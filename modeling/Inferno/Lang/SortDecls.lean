/-
  Inferno.Lang.SortDecls
  ──────────────────────
  `SortDecls`: declarations in an order in which they can be rendered.

    • `DeclNodes`        — what declares what: instances, type declarations, records,
                           labels, pre-processor directives,
    • `isDependOn`       — the two walks, and the members of records,
    • `isDependOn_iff`   — the identifier that a walk comes to,
    • `sortDecls`        — `PreSortDecls`, the directives, then the loop,
    • `sortDecls_exact`  — it is an ordered permutation just when no declaration that
                           is not a directive is given twice.
-/
import Inferno.Helpers.SimpleCompare
import Inferno.Lib.DepthFirst
import Inferno.Lib.GreedyOrder
import Mathlib

namespace Inferno.Lang

open Inferno.Common
open Inferno.DB
open Inferno.Helpers
open Inferno.Lib

/-! ## §1. Declarations. -/

/-- Which declaration a node is, and what of it is asked. -/
inductive Declares (N : Type) where
  | inst (type identifier : Option N)
  | typeDeclaration (identifier : Option N)
  | record (identifier : Option N) (members : List N)
  | labelDeclaration (identifier : Option N)
  | localInclude
  | systemInclude
  | preProcDecl
  | other

/-- Nodes among which there are declarations. -/
structure DeclNodes (N : Type) extends TreeNodes N where
  declares : N → Declares N
  isCallable : N → Bool
  isIndirection : N → Bool
  inst_links : ∀ x type identifier, declares x = .inst type identifier →
    ∀ p ∈ [type, identifier], p ∈ (itemise x).flatMap Item.links
  members_links : ∀ x identifier members, declares x = .record identifier members →
    ∀ m ∈ members, some m ∈ (itemise x).flatMap Item.links

section

variable {N : Type} [LinearOrder N]

namespace DeclNodes

variable (t : DeclNodes N)

/-- `GetIdentifierOfDeclaration`. -/
def getIdentifierOfDeclaration (d : N) : Option N :=
  match t.declares d with
  | .inst _ identifier => identifier
  | .typeDeclaration identifier => identifier
  | .record identifier _ => identifier
  | .labelDeclaration identifier => identifier
  | _ => none

def isRecord (d : N) : Bool :=
  match t.declares d with
  | .record _ _ => true
  | _ => false

/-- `members`, of a `Record`. -/
def members (d : N) : List N :=
  match t.declares d with
  | .record _ members => members
  | _ => []

/-! ## §2. Dependency. -/

/-- `FlattenNode`, without the NULLs. -/
def flattenNode (x : N) : List N := ((t.itemise x).flatMap Item.links).filterMap id

/-- `UniqueWalkNoBody_iterator::GetChildContainer`. -/
def noBody (x : N) : List N :=
  match t.declares x with
  | .inst (some type) identifier =>
      if t.isCallable type then type :: identifier.toList else t.flattenNode x
  | _ => t.flattenNode x

/-- `UniqueWalkNoBodyOrIndirection_iterator::GetChildContainer`. -/
def noBodyOrIndirection (x : N) : List N := if t.isIndirection x then [] else t.noBody x

/-- The child container of the walk that is taken. -/
def getChildContainer (ignoreIndirection : Bool) : N → List N :=
  if ignoreIndirection then t.noBodyOrIndirection else t.noBody

/-- The nodes that the walk presents, each once. -/
def uniqueWalk (ignoreIndirection : Bool) (root : N) : Finset N :=
  (walk id (t.getChildContainer ignoreIndirection) (t.height root + 1) .empty root).nodes

/-- `IsDependOn`, to a depth of records. -/
def isDependOnTo (ignoreIndirectionToRecord : Bool) (a : N) : Nat → N → Bool
  | 0, _ => false
  | depth + 1, b =>
      if a = b then false
      else
        let ignoreIndirection := ignoreIndirectionToRecord && t.isRecord b
        match t.getIdentifierOfDeclaration b with
        | none => false
        | some ib =>
            decide (ib ∈ t.uniqueWalk ignoreIndirection a)
              || (t.members b).any fun memberb =>
                  isDependOnTo ignoreIndirectionToRecord a depth memberb

/-- `IsDependOn`. -/
def isDependOn (ignoreIndirectionToRecord : Bool) (a b : N) : Bool :=
  t.isDependOnTo ignoreIndirectionToRecord a (t.height b + 1) b

/-! ## §3. The sort. -/

/-- The classes that `ExtractDeclsToBack` is called with. -/
def isLocalInclude (d : N) : Bool :=
  match t.declares d with
  | .localInclude => true
  | _ => false

def isSystemInclude (d : N) : Bool :=
  match t.declares d with
  | .systemInclude => true
  | _ => false

/-- `PreProcDecl`, and the includes that derive from it. -/
def isPreProcDecl (d : N) : Bool :=
  match t.declares d with
  | .localInclude | .systemInclude | .preProcDecl => true
  | _ => false

/-- `ExtractDeclsToBack`: the sequence sorted, and the one pre-sorted. -/
def extractDeclsToBack (isNodeType : N → Bool) (s : List N × List N) : List N × List N :=
  (s.1 ++ s.2.filter isNodeType, s.2.filter (! isNodeType ·))

/-- `PreSortDecls`. -/
def preSortDecls (c : List N) : List N :=
  multisetOf (SimpleCompare.compare3Way t.toTreeNodes .TOTAL) c

/-- `SortDecls`. -/
def sortDecls (c : List N) (ignoreIndirectionToRecord : Bool) : Option (List N) := do
  let s := extractDeclsToBack t.isLocalInclude ([], t.preSortDecls c)
  let s := extractDeclsToBack t.isSystemInclude s
  let (sorted, preSorted) := extractDeclsToBack t.isPreProcDecl s
  -- `erase` takes every element that is the same node
  let rest ← greedyOrder (t.isDependOn ignoreIndirectionToRecord) preSorted.length preSorted
  let sorted := sorted ++ rest
  ASSERT (sorted.length = c.length)
  some sorted

/-! ## §4. What a dependency is. -/

variable {t}

omit [LinearOrder N] in
theorem height_of_flattenNode {x y : N} (h : y ∈ t.flattenNode x) : t.height y < t.height x := by
  unfold flattenNode at h
  rw [List.mem_filterMap] at h
  obtain ⟨p, hp, hpy⟩ := h
  obtain ⟨item, hitem, hlink⟩ := List.mem_flatMap.mp hp
  have hsome : p = some y := hpy
  rw [hsome] at hlink
  exact t.height_lt x item hitem y hlink

omit [LinearOrder N] in
theorem flattenNode_of_link {x y : N} (h : some y ∈ (t.itemise x).flatMap Item.links) :
    y ∈ t.flattenNode x :=
  List.mem_filterMap.mpr ⟨some y, h, rfl⟩

omit [LinearOrder N] in
theorem height_of_member {x m : N} (h : m ∈ t.members x) : t.height m < t.height x := by
  unfold members at h
  split at h
  · rename_i identifier members hdecl
    exact height_of_flattenNode (flattenNode_of_link (t.members_links x _ _ hdecl m h))
  · exact absurd h (by simp)

omit [LinearOrder N] in
/-- What the walks go into lies below. -/
theorem height_of_child {ignoreIndirection : Bool} {x y : N}
    (h : y ∈ t.getChildContainer ignoreIndirection x) : t.height y < t.height x := by
  have hnoBody : y ∈ t.noBody x := by
    unfold getChildContainer at h
    cases ignoreIndirection with
    | false => exact h
    | true =>
        have h' : y ∈ (if t.isIndirection x then [] else t.noBody x) := h
        by_cases hind : t.isIndirection x = true
        · rw [if_pos hind] at h'
          exact absurd h' (by simp)
        · rw [if_neg hind] at h'
          exact h'
  unfold noBody at hnoBody
  split at hnoBody
  · rename_i type identifier hdecl
    split at hnoBody
    · have hlinks := t.inst_links x _ _ hdecl
      rcases List.mem_cons.mp hnoBody with hy | hy
      · rw [hy]
        exact height_of_flattenNode (flattenNode_of_link (hlinks _ (by simp)))
      · have hid : identifier = some y := Option.mem_toList.mp hy
        rw [hid] at hlinks
        exact height_of_flattenNode (flattenNode_of_link (hlinks _ (by simp)))
    · exact height_of_flattenNode hnoBody
  · exact height_of_flattenNode hnoBody

/-- **The walk presents what is below the root.** -/
theorem mem_uniqueWalk {ignoreIndirection : Bool} {root z : N} :
    z ∈ t.uniqueWalk ignoreIndirection root ↔
      Relation.ReflTransGen (fun x y => y ∈ t.getChildContainer ignoreIndirection x) root z := by
  have hrank : ∀ x, ∀ y ∈ t.getChildContainer ignoreIndirection x,
      t.height (id y) < t.height x := fun x y hy => height_of_child hy
  have hdepth : t.height (id root) < t.height root + 1 := Nat.lt_succ_self _
  unfold uniqueWalk
  rw [mem_walk_nodes hrank hdepth]
  constructor
  · rintro ⟨f, hf, rfl⟩
    exact hf
  · intro h
    exact ⟨z, h, rfl⟩

/-- A larger depth changes nothing. -/
theorem isDependOnTo_stable {ignore : Bool} {a : N} (m : Nat) : ∀ (n : Nat) (b : N),
    t.height b < m → t.height b < n →
    t.isDependOnTo ignore a m b = t.isDependOnTo ignore a n b := by
  induction m with
  | zero => exact fun n b hm _ => absurd hm (Nat.not_lt_zero _)
  | succ m ih =>
      intro n b hm hn
      cases n with
      | zero => exact absurd hn (Nat.not_lt_zero _)
      | succ n =>
          have hmembers : (t.members b).any (fun memberb => t.isDependOnTo ignore a m memberb)
              = (t.members b).any (fun memberb => t.isDependOnTo ignore a n memberb) := by
            rw [Bool.eq_iff_iff, List.any_eq_true, List.any_eq_true]
            refine exists_congr fun memberb => and_congr_right fun hmem => ?_
            have hlt := height_of_member hmem
            rw [ih n memberb (by omega) (by omega)]
          unfold isDependOnTo
          rw [hmembers]

/-- **When `a` depends on `b`**: the walk of `a` comes to the identifier of `b`, or `a`
depends on a member of the record `b`. -/
theorem isDependOn_iff {ignore : Bool} {a b : N} :
    t.isDependOn ignore a b = true ↔ a ≠ b ∧ ∃ ib, t.getIdentifierOfDeclaration b = some ib ∧
      (Relation.ReflTransGen
          (fun x y => y ∈ t.getChildContainer (ignore && t.isRecord b) x) a ib ∨
        ∃ memberb ∈ t.members b, t.isDependOn ignore a memberb = true) := by
  have hmembers : (t.members b).any (fun memberb => t.isDependOnTo ignore a (t.height b) memberb)
      = (t.members b).any (fun memberb => t.isDependOn ignore a memberb) := by
    rw [Bool.eq_iff_iff, List.any_eq_true, List.any_eq_true]
    refine exists_congr fun memberb => and_congr_right fun hmem => ?_
    have hlt := height_of_member hmem
    unfold isDependOn
    rw [isDependOnTo_stable (t.height b) (t.height memberb + 1) memberb hlt (Nat.lt_succ_self _)]
  have hstep : t.isDependOn ignore a b = if a = b then false else
      match t.getIdentifierOfDeclaration b with
      | none => false
      | some ib => decide (ib ∈ t.uniqueWalk (ignore && t.isRecord b) a)
          || (t.members b).any fun memberb => t.isDependOn ignore a memberb := by
    show t.isDependOnTo ignore a (t.height b + 1) b = _
    unfold isDependOnTo
    rw [hmembers]
  rw [hstep]
  by_cases hab : a = b
  · simp [hab]
  · rw [if_neg hab]
    cases hid : t.getIdentifierOfDeclaration b with
    | none => simp
    | some ib => simp [hab, mem_uniqueWalk]

/-! ## §5. The order. -/

variable (t)

/-- **An ordered permutation**: the sort returns the declarations it was given, and of
those that are not directives none before one it depends on. -/
def SortsDecls (c : List N) (ignoreIndirectionToRecord : Bool) : Prop :=
  ∃ sorted, t.sortDecls c ignoreIndirectionToRecord = some sorted ∧ sorted.Perm c ∧
    (sorted.filter (! t.isPreProcDecl ·)).Pairwise
      fun a b => t.isDependOn ignoreIndirectionToRecord a b = false

variable {t}

omit [LinearOrder N] in
/-- Extracting moves declarations, and loses none. -/
theorem extractDeclsToBack_perm (p : N → Bool) (s : List N × List N) :
    ((extractDeclsToBack p s).1 ++ (extractDeclsToBack p s).2).Perm (s.1 ++ s.2) := by
  show (s.1 ++ s.2.filter p ++ s.2.filter (! p ·)).Perm (s.1 ++ s.2)
  rw [List.append_assoc]
  exact (List.filter_append_perm p s.2).append_left s.1

variable (t)

/-- The directives, and the rest, before the loop. -/
def extracted (c : List N) : List N × List N :=
  extractDeclsToBack t.isPreProcDecl (extractDeclsToBack t.isSystemInclude
    (extractDeclsToBack t.isLocalInclude ([], t.preSortDecls c)))

variable {t}

theorem extracted_perm (c : List N) :
    ((t.extracted c).1 ++ (t.extracted c).2).Perm c := by
  refine (extractDeclsToBack_perm _ _).trans ?_
  refine (extractDeclsToBack_perm _ _).trans ?_
  refine (extractDeclsToBack_perm _ _).trans ?_
  exact multisetOf_perm c

omit [LinearOrder N] in
theorem isPreProcDecl_of_include {d : N}
    (h : t.isLocalInclude d = true ∨ t.isSystemInclude d = true) : t.isPreProcDecl d = true := by
  unfold isLocalInclude isSystemInclude at h
  unfold isPreProcDecl
  cases hd : t.declares d <;> simp [hd] at h ⊢

theorem extracted_fst {c : List N} : ∀ d ∈ (t.extracted c).1, t.isPreProcDecl d = true := by
  intro d hd
  unfold extracted extractDeclsToBack at hd
  simp only [List.nil_append, List.mem_append, List.mem_filter] at hd
  rcases hd with (hd | hd) | hd
  · exact isPreProcDecl_of_include (Or.inl hd.2)
  · exact isPreProcDecl_of_include (Or.inr hd.2)
  · exact hd.2

theorem extracted_snd {c : List N} : ∀ d ∈ (t.extracted c).2, t.isPreProcDecl d = false := by
  intro d hd
  have hkept := (List.mem_filter.mp hd).2
  simpa using hkept

/-- The rest is what of the container is no directive. -/
theorem extracted_rest_perm (c : List N) :
    ((t.extracted c).2).Perm (c.filter (! t.isPreProcDecl ·)) := by
  have hall : ((t.extracted c).1 ++ (t.extracted c).2).Perm c := extracted_perm c
  have hperm := hall.filter (! t.isPreProcDecl ·)
  rw [List.filter_append, List.filter_eq_nil_iff.mpr fun d hd => by simp [extracted_fst d hd],
    List.filter_eq_self.mpr fun d hd => by simp [extracted_snd d hd]] at hperm
  exact hperm

theorem sortDecls_eq (c : List N) (ignore : Bool) :
    t.sortDecls c ignore
      = (greedyOrder (t.isDependOn ignore) (t.extracted c).2.length (t.extracted c).2).bind
        fun rest => (ASSERT (((t.extracted c).1 ++ rest).length = c.length)).bind
          fun _ => some ((t.extracted c).1 ++ rest) :=
  rfl

/-- **`SortDecls` gives an ordered permutation just when no declaration that is not a
directive is given twice**, where `IsDependOn` has no cycle. -/
theorem sortDecls_exact (t : DeclNodes N) (c : List N) (ignoreIndirectionToRecord : Bool)
    (hacyclic : Acyclic (t.isDependOn ignoreIndirectionToRecord) c) :
    t.SortsDecls c ignoreIndirectionToRecord
      ↔ (c.filter (! t.isPreProcDecl ·)).Nodup := by
  have hrest := extracted_rest_perm (t := t) c
  have hall := extracted_perm (t := t) c
  obtain ⟨out, hout, hnodup, hmem, hpairs⟩ := greedyOrder_spec (t.extracted c).2.length
    (hacyclic.mono fun d hd => hall.subset (List.mem_append_right _ hd)) (Nat.le_refl _)
  have hlength : c.length = (t.extracted c).1.length + (t.extracted c).2.length := by
    rw [← hall.length_eq, List.length_append]
  rw [← hrest.nodup_iff]
  unfold SortsDecls
  rw [sortDecls_eq, hout]
  constructor
  · -- the sizes are equal only if the loop has taken each of the rest
    rintro ⟨sorted, hsorted, -⟩
    rw [Option.bind_some] at hsorted
    obtain ⟨_, hassert, -⟩ := Option.bind_eq_some_iff.mp hsorted
    have hsize := ASSERT_eq_some.mp hassert
    rw [List.length_append, hlength] at hsize
    have hsub : out.Subperm (t.extracted c).2 :=
      List.subperm_of_subset hnodup fun d hd => (hmem d).mp hd
    have hperm := hsub.perm_of_length_le (by omega)
    exact hperm.nodup_iff.mp hnodup
  · -- and back: it has, and the directives stand in front
    intro hno
    have hperm : out.Perm (t.extracted c).2 :=
      (List.perm_ext_iff_of_nodup hnodup hno).mpr hmem
    have hsize : ((t.extracted c).1 ++ out).length = c.length := by
      rw [List.length_append, hlength, hperm.length_eq]
    refine ⟨(t.extracted c).1 ++ out, ?_, ?_, ?_⟩
    · show (ASSERT _).bind _ = _
      rw [ASSERT_pos hsize]
      rfl
    · exact (hperm.append_left _).trans hall
    · rw [List.filter_append,
        List.filter_eq_nil_iff.mpr fun d hd => by simp [extracted_fst d hd],
        List.filter_eq_self.mpr fun d hd => by simp [extracted_snd d ((hmem d).mp hd)]]
      exact hpairs

end DeclNodes

end

local instance fourNodes : NeZero 4 := ⟨by decide⟩

/-- A typedef 1 of the type identifier 0, and an instance 3 with that type. -/
def typedefNodes : DeclNodes (Fin 4) where
  typeIndex x := x.val
  value _ := .nothing
  itemise
    | 0 => []
    | 1 => [.singular none, .singular (some 0)]
    | 2 => []
    | 3 => [.singular (some 0), .singular (some 2), .singular none, .singular none]
  height x := x.val
  value_kind := by decide
  layout := by decide
  float_class _ _ _ _ h := by cases h
  float_leaf _ _ h := by cases h
  container_nonnull := by decide
  height_lt := by decide
  declares
    | 1 => .typeDeclaration (some 0)
    | 3 => .inst (some 0) (some 2)
    | _ => .other
  isCallable _ := false
  isIndirection _ := false
  inst_links x _ _ h := by
    match x with
    | 3 =>
        cases h
        decide
  members_links x _ _ h := by
    match x with
    | 0 | 1 | 2 | 3 => cases h

theorem typedefNodes_sorted : typedefNodes.SortsDecls [3, 1] false ↔
    ([3, 1].filter (! typedefNodes.isPreProcDecl ·)).Nodup :=
  DeclNodes.sortDecls_exact typedefNodes [3, 1] false
    (acyclic_of_rank Fin.val (by decide +kernel))

/-- The typedef given twice: there is no cycle, and the sort fails its assertion. -/
theorem twiceGiven_not_sorted : Acyclic (typedefNodes.isDependOn false) [1, 1] ∧
    ¬ typedefNodes.SortsDecls [1, 1] false := by
  constructor
  · exact acyclic_of_rank Fin.val (by decide +kernel)
  · rintro ⟨sorted, hsorted, -⟩
    have hnone : typedefNodes.sortDecls [1, 1] false = none := by decide +kernel
    rw [hnone] at hsorted
    exact absurd hsorted (by simp)

end Inferno.Lang
