/-
  Inferno.DB.CategoryRelation
  ───────────────────────────
  `CategoryRelation`: nodes in the order of their lacing ordinals.

    • `ordinalCompare_sign` — the interleaved descent compares the ordinals,
    • `CategoryKey`, `compare3Way` — nodes, and the minimus of an ordinal,
    • `categoryOrdering`    — the domain's nodes, as the set under the relation has them,
    • `lowerBound`, `upperBound` — where a key would go,
    • `mem_between_minimus` — the nodes between two minimuses are those whose ordinals
                              are in the half-open range.
-/
import Inferno.DB.LacingExact
import Mathlib.Data.List.Sort

namespace Inferno.DB

open Inferno.Common
open Inferno.Lib

/-! ## §1. `OrdinalCompare`. -/

namespace Lacing

variable {N K : Type} [LinearOrder N] [DecidableEq K] {kit : CategoryKit N K}

/-- **One side of the descent looks for `target`**: its range holds it, and so does the
subtree that is left. -/
structure Tracks (kit : CategoryKit N K) (node : Option N) (target : Nat) (d : Descent N) :
    Prop where
  min_le : d.min ≤ target
  le_max : target ≤ d.max
  subtree : ∀ t, d.decisionNode = some t → ordinalFrom kit t node = target ∧ WellRanged kit t
  settled : d.decisionNode = none → d.min = target ∧ d.max = target

/-- The turns that one side still needs. -/
def Descent.rank (d : Descent N) : Nat :=
  match d.decisionNode with
  | none => 0
  | some t => height t + 1

omit [LinearOrder N] [DecidableEq K] in
/-- Advancing from a decision node that leads to the target. -/
theorem tracks_advance {node : Option N} {target : Nat} {t : DecisionNode N} (lo hi : Nat)
    (htarget : ordinalFrom kit t node = target) (hranged : WellRanged kit t) :
    Tracks kit node target (Descent.advance kit node ⟨some t, lo, hi⟩) := by
  cases t with
  | leaf i =>
      have hi : i = target := htarget
      unfold Descent.advance
      dsimp only
      rw [if_pos rfl, hi]
      exact ⟨Nat.le_refl _, Nat.le_refl _, by simp, fun _ => ⟨rfl, rfl⟩⟩
  | localMatch c yes no lo' hi' =>
      obtain ⟨hlt, hin, hyes, hno⟩ := hranged
      have hnode := hin node
      rw [htarget] at hnode
      unfold Descent.advance
      dsimp only
      rw [if_neg (by omega)]
      refine ⟨hnode.1, hnode.2, ?_, by simp⟩
      -- the branch that the local match takes
      intro t ht
      rw [ordinalFrom_localMatch] at htarget
      have ht := Option.some.inj ht
      split at ht
      · next hmatch =>
          rw [if_pos hmatch] at htarget
          rw [← ht]
          exact ⟨htarget, hyes⟩
      · next hmatch =>
          rw [if_neg hmatch] at htarget
          rw [← ht]
          exact ⟨htarget, hno⟩

omit [LinearOrder N] [DecidableEq K] in
theorem Tracks.advance {node : Option N} {target : Nat} {d : Descent N}
    (h : Tracks kit node target d) : Tracks kit node target (d.advance kit node) := by
  obtain ⟨decisionNode, lo, hi⟩ := d
  cases decisionNode with
  | none =>
      have hset := h.settled rfl
      unfold Descent.advance
      dsimp only
      split
      · exact ⟨h.min_le, h.le_max, by simp, fun _ => hset⟩
      · exact h
  | some t =>
      obtain ⟨htarget, hranged⟩ := h.subtree t rfl
      exact tracks_advance lo hi htarget hranged

omit [LinearOrder N] [DecidableEq K] in
/-- **Every advance takes a side one decision down.** -/
theorem rank_advance (kit : CategoryKit N K) (node : Option N) {d : Descent N}
    (hranged : ∀ t, d.decisionNode = some t → WellRanged kit t) :
    (d.advance kit node).rank ≤ d.rank - 1 := by
  obtain ⟨decisionNode, lo, hi⟩ := d
  cases decisionNode with
  | none =>
      have hnone : (Descent.advance kit node ⟨none, lo, hi⟩).decisionNode = none := by
        unfold Descent.advance
        dsimp only
        split <;> rfl
      unfold Descent.rank
      rw [hnone]
      exact Nat.zero_le _
  | some t =>
      cases t with
      | leaf i =>
          unfold Descent.advance Descent.rank
          simp
      | localMatch c yes no lo' hi' =>
          have hlt := (hranged _ rfl).1
          unfold Descent.advance
          dsimp only
          rw [if_neg (by omega)]
          show (Descent.rank ⟨some (if _ then yes else no), lo', hi'⟩)
            ≤ max (height yes) (height no) + 1 + 1 - 1
          cases kit.localMatchWithNULL (some c) node with
          | true => exact Nat.succ_le_succ (Nat.le_max_left _ _)
          | false => exact Nat.succ_le_succ (Nat.le_max_right _ _)

omit [LinearOrder N] [DecidableEq K] in
/-- A result has the sign of the difference of the two targets. -/
theorem Tracks.result_sign {lnode rnode : Option N} {lt rt : Nat} {l r : Descent N}
    (hl : Tracks kit lnode lt l) (hr : Tracks kit rnode rt r) {d : Int}
    (hd : l.result r = some d) : Int.sign d = Int.sign ((lt : Int) - rt) := by
  have h1 := hl.min_le
  have h2 := hl.le_max
  have h3 := hr.min_le
  have h4 := hr.le_max
  unfold Descent.result at hd
  split at hd
  · rw [← Option.some.inj hd, Int.sign_eq_neg_one_of_neg (by omega),
      Int.sign_eq_neg_one_of_neg (by omega)]
  · split at hd
    · rw [← Option.some.inj hd, Int.sign_eq_one_of_pos (by omega),
        Int.sign_eq_one_of_pos (by omega)]
    · split at hd
      · rw [← Option.some.inj hd]
        congr 1
        omega
      · exact absurd hd (by simp)

omit [LinearOrder N] [DecidableEq K] in
/-- Once both sides are settled there is a result. -/
theorem Tracks.result_isSome {lnode rnode : Option N} {lt rt : Nat} {l r : Descent N}
    (hl : Tracks kit lnode lt l) (hr : Tracks kit rnode rt r) (hlr : l.rank = 0)
    (hrr : r.rank = 0) : (l.result r).isSome := by
  have hnone (d : Descent N) (hd : d.rank = 0) : d.decisionNode = none := by
    unfold Descent.rank at hd
    split at hd
    · assumption
    · omega
  have h1 := hl.settled (hnone l hlr)
  have h2 := hr.settled (hnone r hrr)
  unfold Descent.result
  split
  · rfl
  · split
    · rfl
    · rw [if_pos (by omega)]
      rfl

omit [LinearOrder N] [DecidableEq K] in
theorem ordinalCompareLoop_spec {lnode rnode : Option N} {lt rt : Nat} (fuel : Nat) :
    ∀ l r : Descent N, Tracks kit lnode lt l → Tracks kit rnode rt r → l.rank ≤ fuel + 1 →
    r.rank ≤ fuel + 1 →
    ∃ d, ordinalCompareLoop kit lnode rnode (fuel + 1) l r = some d
      ∧ Int.sign d = Int.sign ((lt : Int) - rt) := by
  induction fuel with
  | zero =>
      intro l r hl hr hlr hrr
      have hl' := rank_advance kit lnode (fun t ht => (hl.subtree t ht).2)
      have hr' := rank_advance kit rnode (fun t ht => (hr.subtree t ht).2)
      unfold ordinalCompareLoop
      dsimp only
      -- the left descends first, and then the right; either may decide
      cases hres : (l.advance kit lnode).result r with
      | some d => exact ⟨d, rfl, hl.advance.result_sign hr hres⟩
      | none =>
          obtain ⟨d, hd⟩ := Option.isSome_iff_exists.mp
            (hl.advance.result_isSome hr.advance (by omega) (by omega))
          dsimp only
          rw [hd]
          exact ⟨d, rfl, hl.advance.result_sign hr.advance hd⟩
  | succ fuel ih =>
      intro l r hl hr hlr hrr
      have hl' := rank_advance kit lnode (fun t ht => (hl.subtree t ht).2)
      have hr' := rank_advance kit rnode (fun t ht => (hr.subtree t ht).2)
      unfold ordinalCompareLoop
      dsimp only
      cases hres : (l.advance kit lnode).result r with
      | some d => exact ⟨d, rfl, hl.advance.result_sign hr hres⟩
      | none =>
          dsimp only
          cases hres' : (l.advance kit lnode).result (r.advance kit rnode) with
          | some d => exact ⟨d, rfl, hl.advance.result_sign hr.advance hres'⟩
          | none => exact ih _ _ hl.advance hr.advance (by omega) (by omega)

theorem intMax_pos : 0 < intMax := Nat.succ_pos _

omit [DecidableEq K] in
/-- **`OrdinalCompare` returns, with the sign of the difference of the ordinals.** -/
theorem ordinalCompare_sign {rawCategories kept : Finset N} {lacing : Lacing N K}
    (h : Built kit rawCategories kept lacing) (lnode rnode : Option N) :
    ∃ d, ordinalCompare kit lacing lnode rnode = some d
      ∧ Int.sign d = Int.sign
          ((getOrdinalForNode kit lacing lnode : Int) - getOrdinalForNode kit lacing rnode) := by
  have hranged := h.decides.ranged
  -- the first turn: the right side has not advanced, its range holds every ordinal
  have hzero : lowest lacing.decisionTreeRoot = 0 := by
    obtain ⟨i, hi, _⟩ := h.laced.exists_entry (x := none) (by simp)
    exact Nat.le_zero.mp (h.decides.lowest_le 0 (Finset.mem_range.mpr (by omega)))
  -- both sides after the first turn
  have hl : Tracks kit lnode _ _ := tracks_advance 0 intMax rfl hranged
  have hr : Tracks kit rnode _ _ := tracks_advance 0 intMax rfl hranged
  have hl' := rank_advance kit lnode
    (d := ⟨some lacing.decisionTreeRoot, 0, intMax⟩) (by simpa using hranged)
  have hr' := rank_advance kit rnode
    (d := ⟨some lacing.decisionTreeRoot, 0, intMax⟩) (by simpa using hranged)
  have hfirst : (Descent.advance kit lnode ⟨some lacing.decisionTreeRoot, 0, intMax⟩).result
      ⟨some lacing.decisionTreeRoot, 0, intMax⟩ = none := by
    have hmin : (Descent.advance kit lnode ⟨some lacing.decisionTreeRoot, 0, intMax⟩).min = 0 := by
      unfold Descent.advance
      cases hroot : lacing.decisionTreeRoot with
      | leaf i =>
          rw [hroot] at hzero
          dsimp only
          split <;> exact hzero
      | localMatch c yes no lo hi =>
          rw [hroot] at hzero
          dsimp only
          split <;> exact hzero
    unfold Descent.result
    rw [hmin, if_neg (Nat.not_lt_zero _), if_neg (Nat.not_lt_zero _), if_neg (by
      intro hcon
      exact absurd hcon.2.1 intMax_pos.ne)]
  unfold ordinalCompare ordinalCompareLoop
  dsimp only
  rw [hfirst]
  dsimp only
  cases hres : (Descent.advance kit lnode ⟨some lacing.decisionTreeRoot, 0, intMax⟩).result
      (Descent.advance kit rnode ⟨some lacing.decisionTreeRoot, 0, intMax⟩) with
  | some d => exact ⟨d, rfl, hl.result_sign hr hres⟩
  | none =>
      -- more turns are needed, so the tree is not a leaf
      have hrank : (Descent.rank (⟨some lacing.decisionTreeRoot, 0, intMax⟩ : Descent N))
          = height lacing.decisionTreeRoot + 1 := rfl
      rw [hrank] at hl' hr'
      cases hheight : height lacing.decisionTreeRoot with
      | zero =>
          have hsome := hl.result_isSome hr (by omega) (by omega)
          rw [hres] at hsome
          exact absurd hsome (by simp)
      | succ n => exact ordinalCompareLoop_spec n _ _ hl hr (by omega) (by omega)

/-- **`OrdinalCompare` agrees with `GetOrdinalForNode`**, in every lacing that `Build`
makes, and `Build` returns one for every set of raw categories. -/
theorem ordinalCompare_exact (kit : CategoryKit N K) (rawCategories : Finset N) :
    ∃ lacing, build kit rawCategories = some lacing ∧
      ∀ lnode rnode : Option N, ∃ d, ordinalCompare kit lacing lnode rnode = some d
        ∧ (d < 0 ↔ getOrdinalForNode kit lacing lnode < getOrdinalForNode kit lacing rnode)
        ∧ (d = 0 ↔ getOrdinalForNode kit lacing lnode = getOrdinalForNode kit lacing rnode)
        ∧ (0 < d ↔ getOrdinalForNode kit lacing rnode < getOrdinalForNode kit lacing lnode) := by
  obtain ⟨kept, lacing, hbuild, hbuilt⟩ := build_spec kit rawCategories
  refine ⟨lacing, hbuild, ?_⟩
  intro lnode rnode
  obtain ⟨d, hd, hsign⟩ := ordinalCompare_sign hbuilt lnode rnode
  refine ⟨d, hd, ?_, ?_, ?_⟩
  · -- the signs agree, so each is negative when the other is
    rw [← Int.sign_eq_neg_one_iff_neg, hsign, Int.sign_eq_neg_one_iff_neg]
    omega
  · rw [← Int.sign_eq_zero_iff_zero, hsign, Int.sign_eq_zero_iff_zero]
    omega
  · rw [← Int.sign_eq_one_iff_pos, hsign, Int.sign_eq_one_iff_pos]
    omega

end Lacing

/-! ## §2. The relation. -/

/-- `CategoryRelation::KeyType`: a node of the domain, or a `MinimusNode` with its
ordinal. -/
inductive CategoryKey (N : Type) where
  | normal (node : N)
  | minimus (lacingOrdinal : Int) (node : N)

namespace CategoryRelation

open Lacing

variable {N K : Type} [LinearOrder N] [DecidableEq K] (kit : CategoryKit N K)
  (lacing : Lacing N K)

/-- `TreePtr<Node>::Compare3Way` of two pointers that are not null. -/
def treePtrCompare3Way (l r : N) : Int :=
  if l = r then 0 else if l < r then -1 else 1

/-- `BoundingRole::MINIMUS`. -/
def minimusRole : Int := -1

/-- `CategoryRelation::Compare3Way`. -/
def compare3Way : CategoryKey N → CategoryKey N → Option Int
  | .normal l, .normal r => do
      let d ← ordinalCompare kit lacing (some l) (some r)
      some (if d ≠ 0 then d else treePtrCompare3Way l r)
  | .minimus li l, .minimus ri r =>
      let d := li - ri
      some (if d ≠ 0 then d else treePtrCompare3Way l r) -- the roles are equal
  | .minimus li _, .normal r =>
      let d := li - getOrdinalForNode kit lacing (some r)
      some (if d ≠ 0 then d else minimusRole)
  | .normal l, .minimus ri _ =>
      let d := (getOrdinalForNode kit lacing (some l) : Int) - ri
      some (if d ≠ 0 then d else -minimusRole)

/-- `CategoryRelation::operator()`. -/
def less (l r : CategoryKey N) : Bool :=
  (compare3Way kit lacing l r).any (fun d => decide (d < 0))

/-! ## §3. The ordering. -/

/-- The order in which the set keeps its nodes: the right one is not less. -/
def Precedes (l r : N) : Prop := (!less kit lacing (.normal r) (.normal l)) = true

instance : DecidableRel (Precedes kit lacing) := fun l r => by
  unfold Precedes
  infer_instance

/-- `category_ordering`, walked: the nodes in the order of the relation. -/
def categoryOrdering (nodes : Finset N) : List N :=
  (inOrder nodes).insertionSort (Precedes kit lacing)

/-- `category_ordering.lower_bound(key)`, as a position. -/
def lowerBound (ordering : List N) (key : CategoryKey N) : Nat :=
  ordering.findIdx (fun n => !less kit lacing (.normal n) key)

/-- `category_ordering.upper_bound(key)`. -/
def upperBound (ordering : List N) (key : CategoryKey N) : Nat :=
  ordering.findIdx (fun n => less kit lacing key (.normal n))

variable {kit} {lacing} {rawCategories kept : Finset N}
  (h : Built kit rawCategories kept lacing)

include h in
omit [DecidableEq K] in
/-- Nodes compare by ordinal, then by pointer. -/
theorem less_normal (l r : N) : less kit lacing (.normal l) (.normal r) = true
    ↔ getOrdinalForNode kit lacing (some l) < getOrdinalForNode kit lacing (some r)
      ∨ (getOrdinalForNode kit lacing (some l) = getOrdinalForNode kit lacing (some r)
          ∧ l < r) := by
  obtain ⟨d, hd, hsign⟩ := ordinalCompare_sign h (some l) (some r)
  have hless : less kit lacing (.normal l) (.normal r)
      = ((ordinalCompare kit lacing (some l) (some r)).bind
          (fun d => some (if d ≠ 0 then d else treePtrCompare3Way l r))).any
        (fun d => decide (d < 0)) := rfl
  rw [hless, hd]
  show decide ((if d ≠ 0 then d else treePtrCompare3Way l r) < 0) = true ↔ _
  rw [decide_eq_true_iff]
  -- the ordinals decide unless they are equal, and then the pointers do
  rcases lt_trichotomy (getOrdinalForNode kit lacing (some l))
    (getOrdinalForNode kit lacing (some r)) with hlt | heq | hgt
  · rw [Int.sign_eq_neg_one_of_neg (Int.sub_neg_of_lt (Int.ofNat_lt.mpr hlt)),
      Int.sign_eq_neg_one_iff_neg] at hsign
    rw [if_pos (by omega)]
    exact iff_of_true hsign (Or.inl hlt)
  · rw [heq, Int.sub_self, Int.sign_zero, Int.sign_eq_zero_iff_zero] at hsign
    rw [if_neg (by omega), heq]
    unfold treePtrCompare3Way
    constructor
    · intro hneg
      refine Or.inr ⟨rfl, ?_⟩
      split at hneg
      · omega
      · split at hneg
        · assumption
        · omega
    · intro hor
      rcases hor with hlt | ⟨_, hlt⟩
      · exact absurd hlt (Nat.lt_irrefl _)
      · rw [if_neg hlt.ne, if_pos hlt]
        omega
  · rw [Int.sign_eq_one_of_pos (Int.sub_pos_of_lt (Int.ofNat_lt.mpr hgt)),
      Int.sign_eq_one_iff_pos] at hsign
    rw [if_pos (by omega)]
    exact iff_of_false (by omega) (by omega)

omit [DecidableEq K] in
/-- A node is below a minimus iff its ordinal is; a minimus is below the nodes of its
own ordinal. -/
theorem less_minimus (n m : N) (ordinal : Int) :
    less kit lacing (.normal n) (.minimus ordinal m) = true
      ↔ (getOrdinalForNode kit lacing (some n) : Int) < ordinal := by
  unfold less compare3Way minimusRole
  dsimp only
  rw [Option.any_some, decide_eq_true_iff]
  split <;> omega

include h in
omit [DecidableEq K] in
theorem precedes_iff (l r : N) : Precedes kit lacing l r
    ↔ getOrdinalForNode kit lacing (some l) < getOrdinalForNode kit lacing (some r)
      ∨ (getOrdinalForNode kit lacing (some l) = getOrdinalForNode kit lacing (some r)
          ∧ l ≤ r) := by
  unfold Precedes
  rw [Bool.not_eq_true', Bool.eq_false_iff, Ne, less_normal h]
  constructor
  · intro hno
    rw [not_or, not_and, not_lt] at hno
    rcases Nat.lt_or_eq_of_le hno.1 with hlt | heq
    · exact Or.inl hlt
    · exact Or.inr ⟨heq, not_lt.mp (hno.2 heq.symm)⟩
  · intro hor hcon
    rcases hor with hlt | ⟨heq, hle⟩
    · omega
    · rcases hcon with hlt | ⟨_, hlt⟩
      · omega
      · exact absurd hlt (not_lt.mpr hle)

include h in
omit [DecidableEq K] in
/-- **The ordering is sorted by ordinal.** -/
theorem categoryOrdering_sorted (nodes : Finset N) :
    (categoryOrdering kit lacing nodes).Pairwise (fun l r =>
      getOrdinalForNode kit lacing (some l) ≤ getOrdinalForNode kit lacing (some r)) := by
  have htotal : Std.Total (Precedes kit lacing) := ⟨by
    intro a b
    rw [precedes_iff h, precedes_iff h]
    rcases Nat.lt_trichotomy (getOrdinalForNode kit lacing (some a))
      (getOrdinalForNode kit lacing (some b)) with hlt | heq | hgt
    · exact Or.inl (Or.inl hlt)
    · rcases le_total a b with hab | hab
      · exact Or.inl (Or.inr ⟨heq, hab⟩)
      · exact Or.inr (Or.inr ⟨heq.symm, hab⟩)
    · exact Or.inr (Or.inl hgt)⟩
  have htrans : IsTrans N (Precedes kit lacing) := ⟨by
    intro a b c hab hbc
    rw [precedes_iff h] at hab hbc ⊢
    rcases hab with hab | ⟨hab, hle⟩
    · rcases hbc with hbc | ⟨hbc, _⟩ <;> exact Or.inl (by omega)
    · rcases hbc with hbc | ⟨hbc, hle'⟩
      · exact Or.inl (by omega)
      · exact Or.inr ⟨hab.trans hbc, hle.trans hle'⟩⟩
  have hsorted := List.pairwise_insertionSort (Precedes kit lacing) (inOrder nodes)
  apply hsorted.imp
  intro l r hlr
  rcases (precedes_iff h l r).mp hlr with hlt | ⟨heq, _⟩ <;> omega

omit [DecidableEq K] in
theorem mem_categoryOrdering {nodes : Finset N} {n : N} :
    n ∈ categoryOrdering kit lacing nodes ↔ n ∈ nodes := by
  unfold categoryOrdering
  rw [List.mem_insertionSort, mem_inOrder]

/-- In a list sorted by a number, the part from the first `≥ a` to the first `≥ b`. -/
theorem mem_take_drop_findIdx {f : N → Int} {a b : Int} {ns : List N}
    (hsorted : ns.Pairwise (fun l r => f l ≤ f r)) (n : N) :
    n ∈ (ns.take (ns.findIdx (fun n => decide (b ≤ f n)))).drop
        (ns.findIdx (fun n => decide (a ≤ f n)))
      ↔ n ∈ ns ∧ a ≤ f n ∧ f n < b := by
  -- on the list; `x` decides whether anything is taken, or dropped
  induction ns with
  | nil => simp
  | cons x ns ih =>
      have hx := (List.pairwise_cons.mp hsorted).1
      have ih := ih (List.pairwise_cons.mp hsorted).2
      rw [List.findIdx_cons, List.findIdx_cons]
      by_cases hb : b ≤ f x
      · -- nothing is taken
        rw [decide_eq_true hb]
        show n ∈ List.drop _ [] ↔ _
        rw [List.drop_nil]
        constructor
        · exact fun hn => absurd hn List.not_mem_nil
        · intro hn
          rcases List.mem_cons.mp hn.1 with rfl | hmem
          · omega
          · have := hx n hmem
            omega
      · rw [decide_eq_false hb]
        by_cases ha : a ≤ f x
        · -- nothing is dropped
          have hzero : ns.findIdx (fun n => decide (a ≤ f n)) = 0 := by
            cases ns with
            | nil => rfl
            | cons y ns =>
                rw [List.findIdx_cons, decide_eq_true (ha.trans (hx y List.mem_cons_self))]
                rfl
          rw [hzero, List.drop_zero] at ih
          rw [decide_eq_true ha]
          show n ∈ x :: ns.take _ ↔ _
          rw [List.mem_cons, List.mem_cons, ih]
          constructor
          · intro hn
            rcases hn with rfl | hn
            · exact ⟨Or.inl rfl, ha, by omega⟩
            · exact ⟨Or.inr hn.1, hn.2⟩
          · intro hn
            rcases hn.1 with rfl | hmem
            · exact Or.inl rfl
            · exact Or.inr ⟨hmem, hn.2⟩
        · -- `x` is dropped
          rw [decide_eq_false ha]
          show n ∈ (ns.take _).drop _ ↔ _
          rw [ih, List.mem_cons]
          constructor
          · exact fun hn => ⟨Or.inr hn.1, hn.2⟩
          · intro hn
            rcases hn.1 with rfl | hmem
            · omega
            · exact ⟨hmem, hn.2⟩

include h in
omit [DecidableEq K] in
/-- **Between two minimuses** are the nodes with ordinals in the half-open range. -/
theorem mem_between_minimus (nodes : Finset N) (a b : Int) (m m' n : N) :
    n ∈ ((categoryOrdering kit lacing nodes).take
          (lowerBound kit lacing (categoryOrdering kit lacing nodes) (.minimus b m'))).drop
        (lowerBound kit lacing (categoryOrdering kit lacing nodes) (.minimus a m))
      ↔ n ∈ nodes ∧ a ≤ getOrdinalForNode kit lacing (some n)
          ∧ (getOrdinalForNode kit lacing (some n) : Int) < b := by
  have hbound (ordinal : Int) (m : N) :
      lowerBound kit lacing (categoryOrdering kit lacing nodes) (.minimus ordinal m)
        = (categoryOrdering kit lacing nodes).findIdx (fun n =>
            decide (ordinal ≤ (getOrdinalForNode kit lacing (some n) : Int))) := by
    unfold lowerBound
    congr 1
    funext n
    rw [Bool.eq_iff_iff, Bool.not_eq_true', Bool.eq_false_iff, Ne, less_minimus,
      decide_eq_true_iff, not_lt]
  have hsorted := (categoryOrdering_sorted h nodes).imp (fun {l r} hlr =>
    show (getOrdinalForNode kit lacing (some l) : Int) ≤ getOrdinalForNode kit lacing (some r) by
      omega)
  rw [hbound, hbound, mem_take_drop_findIdx hsorted, mem_categoryOrdering]

end CategoryRelation

end Inferno.DB
