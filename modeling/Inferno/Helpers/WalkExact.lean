/-
  Inferno.Helpers.WalkExact
  ─────────────────────────
  What the walks visit, in an acyclic tree whose nodes may have many parents.

    • `Reaches`          — a node is below the root, by some path of children,
    • `walk_inOrder`     — whatever the filters are, the walk stops at places of the tree in
                           the order of their paths,
    • `walk_plain`       — with filters that look at the node only, at exactly the places
                           they let it reach and hand out,
    • `uniqueWalk_once`  — `UniqueWalk` stops at each node below the root once,
    • `parentWalk_links` — `ParentWalk` at each link of each of these nodes once,
    • `walks_exact`      — all of it.
-/
import Inferno.Helpers.Walk
import Mathlib.Data.Prod.Lex

namespace Inferno.Helpers

open Inferno.Lib

/-! ## §1. Paths. -/

section

variable {N σ : Type} {itemise : N → List (Member N)}

/-- The node is below the root, or is it. -/
def Reaches (itemise : N → List (Member N)) (root : Option N) (n : N) : Prop :=
  ∃ path, PathBelow (steps itemise) root path (some n)

theorem mem_steps {element child : Option N} {n : N} {k : Nat} :
    ((n, k), child) ∈ steps itemise element
      ↔ element = some n ∧ (childPtrs itemise n)[k]? = some child := by
  cases element with
  | none => simp [steps]
  | some m =>
      unfold steps
      rw [List.mem_map]
      constructor
      · rintro ⟨⟨c, i⟩, hc, heq⟩
        cases heq
        exact ⟨rfl, List.mem_zipIdx_iff_getElem?.mp hc⟩
      · rintro ⟨heq, hget⟩
        cases heq
        exact ⟨(child, k), List.mem_zipIdx_iff_getElem?.mpr hget, rfl⟩

/-- The height of an element, above those of the nodes below it. -/
def elementHeight (height : N → Nat) : Option N → Nat
  | none => 0
  | some n => height n + 1

theorem elementHeight_lt {height : N → Nat}
    (hheight : ∀ n, ∀ m, some m ∈ childPtrs itemise n → height m < height n)
    {x : Option N} {c : (N × Nat) × Option N} (hc : c ∈ steps itemise x) :
    elementHeight height c.2 < elementHeight height x := by
  obtain ⟨⟨n, k⟩, child⟩ := c
  obtain ⟨rfl, hget⟩ := mem_steps.mp hc
  cases child with
  | none => exact Nat.succ_pos _
  | some m => exact Nat.succ_lt_succ (hheight n m (List.mem_of_getElem? hget))

/-- A path is no longer than the height of its start. -/
theorem pathLength_le {height : N → Nat}
    (hheight : ∀ n, ∀ m, some m ∈ childPtrs itemise n → height m < height n)
    {children : Option N → List ((N × Nat) × Option N)}
    (hsub : ∀ x, children x ⊆ steps itemise x) {x y : Option N} {path : List (N × Nat)}
    (h : PathBelow children x path y) : path.length ≤ elementHeight height x := by
  induction h with
  | here x => exact Nat.zero_le _
  | @step x y z a path hc _ ih =>
      have hlt : elementHeight height z < elementHeight height x :=
        elementHeight_lt hheight (hsub _ hc)
      show path.length + 1 ≤ _
      omega

/-- Places in the order of their paths: at the first node where they part, the one that
goes on in the earlier child comes first, and a place comes before what is below it. -/
def PathOrder (a b : List (N × Nat) × Option N) : Prop := a.1.map Prod.snd < b.1.map Prod.snd

theorem steps_sorted (x : Option N) :
    (steps itemise x).Pairwise fun c d => c.1.2 < d.1.2 := by
  cases x with
  | none => exact List.Pairwise.nil
  | some n =>
      unfold steps
      rw [List.pairwise_map]
      have hsorted := List.pairwise_lt_range' (s := 0) (n := (childPtrs itemise n).length)
      rw [← List.zipIdx_map_snd 0 (childPtrs itemise n), List.pairwise_map] at hsorted
      exact hsorted

/-- A walk is in the order of its paths. -/
theorem preorder_inOrder {children : Option N → List ((N × Nat) × Option N)}
    (hsub : ∀ x, (children x).Sublist (steps itemise x)) (depth : Nat) (x : Option N) :
    (preorder children depth x).Pairwise PathOrder := by
  have hchildren : ∀ y, ((children y).map fun c => (c.1.2, c.2)).Pairwise
      fun c d => c.1 < d.1 := by
    intro y
    rw [List.pairwise_map]
    exact (steps_sorted y).sublist (hsub y)
  have hsorted := preorder_sorted hchildren depth x
  rw [← preorder_mapSteps Prod.snd depth x, List.pairwise_map] at hsorted
  exact hsorted

/-! ## §2. Walks in general. -/

variable (hacyclic : WellFounded fun m n => some m ∈ childPtrs itemise n)

include hacyclic

/-- **Any walk comes to its end, and stops at places of the tree in order.** -/
theorem walk_inOrder (F : Filters N σ) (root : Option N) (memory : σ) :
    ∃ bound stops, (∀ turns ≥ bound, walk itemise F turns root memory = some stops)
      ∧ (∀ depth ≥ bound, stops = (recursiveWalk itemise F depth memory root).1)
      ∧ stops.Pairwise PathOrder
      ∧ ∀ stop ∈ stops, PathBelow (steps itemise) root stop.1 stop.2 := by
  obtain ⟨bound, hbound⟩ := walk_eq (F := F) hacyclic root memory
  have hsublist : (recursiveWalk itemise F bound memory root).1.Sublist
      (preorder (steps itemise) bound root) := filteredPreorder_sublist bound memory root
  refine ⟨bound, (recursiveWalk itemise F bound memory root).1,
    fun turns hturns => hbound turns hturns bound le_rfl, ?_, ?_, ?_⟩
  · intro depth hdepth
    exact Option.some.inj ((hbound bound le_rfl bound le_rfl).symm.trans
      (hbound bound le_rfl depth hdepth))
  · exact (preorder_inOrder (fun _ => List.Sublist.refl _) bound root).sublist hsublist
  · intro stop hstop
    exact ((mem_preorder bound).mp (hsublist.subset hstop)).1

omit hacyclic

/-! ## §3. Filters that look at the node only. -/

/-- A filter that remembers nothing. -/
def plainFilter (accept : N → Bool) : Filter N σ := fun s n => (accept n, s)

/-- The out filter lets the walk hand out the element. -/
def handsOut (out : Option (N → Bool)) : Option N → Bool
  | none => out.isNone
  | some n => out.all (· n)

/-- The recurse filter lets the walk go below the element. -/
def goesBelow (recurse : Option (N → Bool)) : Option N → Bool
  | none => false
  | some n => recurse.all (· n)

/-- The steps below the elements that the walk goes below. -/
def openSteps (itemise : N → List (Member N)) (recurse : Option (N → Bool)) :
    Option N → List ((N × Nat) × Option N) :=
  openChildren (steps itemise) (goesBelow recurse)

theorem openSteps_sublist (recurse : Option (N → Bool)) (x : Option N) :
    (openSteps itemise recurse x).Sublist (steps itemise x) := by
  unfold openSteps openChildren
  split
  · exact List.Sublist.refl _
  · exact List.nil_sublist _

theorem recursiveWalk_below (out : Option (Filter N σ)) (recurse : Option (N → Bool))
    (depth : Nat) (s : σ) (x : Option N) :
    recursiveWalk itemise ⟨out, recurse.map plainFilter⟩ depth s x
      = filterState (outAccepts ⟨out, none⟩) s (preorder (openSteps itemise recurse) depth x) := by
  have hrecurse : recurseAccepts (⟨out, recurse.map plainFilter⟩ : Filters N σ)
      = fun s x => (goesBelow recurse x, s) := by
    funext s x
    cases x <;> cases recurse <;> rfl
  unfold recursiveWalk
  rw [hrecurse]
  exact filteredPreorder_eq_filterState (goesBelow recurse) depth s x

theorem recursiveWalk_plain (out recurse : Option (N → Bool)) (depth : Nat) (s : σ)
    (x : Option N) :
    (recursiveWalk itemise ⟨out.map plainFilter, recurse.map plainFilter⟩ depth s x).1
      = (preorder (openSteps itemise recurse) depth x).filter fun stop => handsOut out stop.2 := by
  have hout : outAccepts (⟨out.map plainFilter, none⟩ : Filters N σ)
      = fun s x => (handsOut out x, s) := by
    funext s x
    cases x <;> cases out <;> rfl
  rw [recursiveWalk_below, hout, filterState_pure]

/-- **With filters that look at the node only, a walk stops at exactly the places that it
can reach through nodes it goes below and that it hands out**, in order. -/
theorem walk_plain (hacyclic : WellFounded fun m n => some m ∈ childPtrs itemise n)
    (out recurse : Option (N → Bool)) (root : Option N) (memory : σ) :
    ∃ bound stops, (∀ turns ≥ bound,
        walk itemise ⟨out.map plainFilter, recurse.map plainFilter⟩ turns root memory = some stops)
      ∧ stops.Pairwise PathOrder
      ∧ ∀ path element, (path, element) ∈ stops
        ↔ PathBelow (openSteps itemise recurse) root path element
          ∧ handsOut out element = true := by
  obtain ⟨bound, stops, hwalk, hstops, hsorted, _⟩ := walk_inOrder hacyclic
    ⟨out.map plainFilter, recurse.map plainFilter⟩ root memory
  obtain ⟨height, hheight⟩ := exists_childHeight hacyclic
  refine ⟨bound, stops, hwalk, hsorted, ?_⟩
  intro path element
  rw [hstops (max bound (elementHeight height root + 1)) (le_max_left _ _), recursiveWalk_plain,
    List.mem_filter, mem_preorder]
  constructor
  · rintro ⟨⟨hpath, _⟩, hout⟩
    exact ⟨hpath, hout⟩
  · rintro ⟨hpath, hout⟩
    have hle := pathLength_le hheight (fun x => (openSteps_sublist recurse x).subset) hpath
    exact ⟨⟨hpath, lt_of_lt_of_le (Nat.lt_succ_of_le hle) (le_max_right _ _)⟩, hout⟩

end

/-! ## §4. `UniqueWalk`. -/

section

variable {N : Type} [DecidableEq N] {itemise : N → List (Member N)}

/-- The unique filter along a list hands out each new node once, and no NULL. -/
theorem filterState_unique {P : Type} (l : List (P × Option N)) (seen : Finset N) :
    ((filterState (outAccepts ⟨some uniqueFilter, none⟩) seen l).1.map Prod.snd).Nodup
      ∧ ∀ x, x ∈ (filterState (outAccepts ⟨some uniqueFilter, none⟩) seen l).1.map Prod.snd
        ↔ x ∈ l.map Prod.snd ∧ ∃ n, x = some n ∧ n ∉ seen := by
  induction l generalizing seen with
  | nil => simp [filterState]
  | cons v l ih =>
      obtain ⟨place, element⟩ := v
      rw [filterState_cons]
      cases element with
      | none =>
          -- a NULL is never handed out
          obtain ⟨hnodup, hmem⟩ := ih seen
          refine ⟨hnodup, ?_⟩
          intro x
          show x ∈ (filterState _ seen l).1.map Prod.snd ↔ _
          rw [hmem, List.map_cons, List.mem_cons]
          constructor
          · rintro ⟨hx, hnew⟩
            exact ⟨Or.inr hx, hnew⟩
          · rintro ⟨rfl | hx, n, hn, hnew⟩
            · cases hn
            · exact ⟨hx, n, hn, hnew⟩
      | some m =>
          by_cases hm : m ∈ seen
          · -- seen before: not handed out
            have hask : outAccepts ⟨some uniqueFilter, none⟩ seen (some m) = (false, seen) :=
              if_pos hm
            obtain ⟨hnodup, hmem⟩ := ih seen
            simp only [hask]
            refine ⟨hnodup, ?_⟩
            intro x
            show x ∈ (filterState _ seen l).1.map Prod.snd ↔ _
            rw [hmem, List.map_cons, List.mem_cons]
            constructor
            · rintro ⟨hx, hnew⟩
              exact ⟨Or.inr hx, hnew⟩
            · rintro ⟨rfl | hx, n, hn, hnew⟩
              · cases hn
                exact absurd hm hnew
              · exact ⟨hx, n, hn, hnew⟩
          · -- a new node: handed out, and seen from here on
            have hask : outAccepts ⟨some uniqueFilter, none⟩ seen (some m)
                = (true, insert m seen) := if_neg hm
            obtain ⟨hnodup, hmem⟩ := ih (insert m seen)
            simp only [hask]
            show (some m :: (filterState _ (insert m seen) l).1.map Prod.snd).Nodup ∧ ∀ x,
              x ∈ some m :: (filterState _ (insert m seen) l).1.map Prod.snd ↔ _
            constructor
            · refine List.nodup_cons.mpr ⟨?_, hnodup⟩
              intro hagain
              obtain ⟨_, n, hn, hnew⟩ := (hmem _).mp hagain
              cases hn
              exact hnew (Finset.mem_insert_self m seen)
            · intro x
              rw [List.mem_cons, hmem, List.map_cons, List.mem_cons]
              constructor
              · rintro (rfl | ⟨hx, n, hn, hnew⟩)
                · exact ⟨Or.inl rfl, m, rfl, hm⟩
                · exact ⟨Or.inr hx, n, hn, fun h => hnew (Finset.mem_insert_of_mem h)⟩
              · rintro ⟨hx, n, rfl, hnew⟩
                -- another node is new to the rest exactly if it was new here
                by_cases hnm : n = m
                · exact Or.inl (by rw [hnm])
                · refine Or.inr ⟨hx.resolve_left fun h => hnm (Option.some.inj h), n, rfl, ?_⟩
                  simp [hnm, hnew]

/-- **`UniqueWalk` stops at each node below the root once**, and nowhere else. -/
theorem uniqueWalk_once (hacyclic : WellFounded fun m n => some m ∈ childPtrs itemise n)
    (root : Option N) :
    ∃ bound stops, (∀ turns ≥ bound, uniqueWalk itemise turns root = some stops)
      ∧ stops.Pairwise PathOrder
      ∧ (stops.map Prod.snd).Nodup
      ∧ ∀ x, x ∈ stops.map Prod.snd ↔ ∃ n, x = some n ∧ Reaches itemise root n := by
  obtain ⟨bound, stops, hwalk, hstops, hsorted, _⟩ := walk_inOrder hacyclic
    (⟨some uniqueFilter, none⟩ : Filters N (Finset N)) root ∅
  obtain ⟨height, hheight⟩ := exists_childHeight hacyclic
  have hopen : openSteps itemise none = steps itemise := by
    funext x
    cases x <;> rfl
  -- one bound for the walk and for the places
  have heq := hstops (max bound (elementHeight height root + 1)) (le_max_left _ _)
  rw [show (⟨some uniqueFilter, none⟩ : Filters N (Finset N))
      = ⟨some uniqueFilter, Option.map plainFilter none⟩ from rfl, recursiveWalk_below, hopen] at heq
  -- the filter hands out the first place of each node
  obtain ⟨hnodup, hmem⟩ := filterState_unique
    (preorder (steps itemise) (max bound (elementHeight height root + 1)) root) ∅
  rw [← heq] at hnodup hmem
  refine ⟨bound, stops, hwalk, hsorted, hnodup, ?_⟩
  intro x
  rw [hmem, List.mem_map]
  constructor
  · rintro ⟨⟨⟨path, element⟩, hplace, rfl⟩, n, rfl, _⟩
    exact ⟨n, rfl, path, ((mem_preorder _).mp hplace).1⟩
  · rintro ⟨n, rfl, path, hpath⟩
    have hle := pathLength_le hheight (fun x => List.Subset.refl _) hpath
    exact ⟨⟨(path, some n), (mem_preorder _).mpr
      ⟨hpath, lt_of_lt_of_le (Nat.lt_succ_of_le hle) (le_max_right _ _)⟩, rfl⟩, n, rfl,
      Finset.notMem_empty n⟩

/-! ## §5. `ParentWalk`. -/

/-- The last links of the places found. -/
def lastLinks (found : List (List (N × Nat) × Option N)) : List (N × Nat) :=
  found.filterMap fun f => f.1.getLast?

/-- What a part of the walk has done: it found the links of the nodes that are seen since,
all of them below where it started, and other links, `given`. -/
structure LinksFound (itemise : N → List (Member N)) (starts : List (Option N))
    (given : List (N × Nat)) (seen : Finset N)
    (result : List (List (N × Nat) × Option N) × Finset N) : Prop where
  grows : seen ⊆ result.2
  started : ∀ n, some n ∈ starts → n ∈ result.2
  below : ∀ n ∈ result.2, n ∉ seen → ∃ x ∈ starts, Reaches itemise x n
  closed : ∀ n ∈ result.2, n ∉ seen → ∀ m, some m ∈ childPtrs itemise n → m ∈ result.2
  nodup : (lastLinks result.1).Nodup
  links : ∀ n k, (n, k) ∈ lastLinks result.1
    ↔ (n, k) ∈ given ∨ n ∈ result.2 ∧ n ∉ seen ∧ k < (childPtrs itemise n).length

omit [DecidableEq N] in
theorem lastLinks_append (found found' : List (List (N × Nat) × Option N)) :
    lastLinks (found ++ found') = lastLinks found ++ lastLinks found' :=
  List.filterMap_append

omit [DecidableEq N] in
/-- Below a step, the walk's first find is at the step itself. -/
theorem lastLinks_under (step : N × Nat) (x : Option N)
    (below : List (List (N × Nat) × Option N)) (hbelow : ∀ f ∈ below, f.1 ≠ []) :
    lastLinks ((([], x) :: below).map fun f => (step :: f.1, f.2)) = step :: lastLinks below := by
  have hrest : lastLinks (below.map fun f => (step :: f.1, f.2)) = lastLinks below := by
    unfold lastLinks
    rw [List.filterMap_map]
    refine List.filterMap_congr fun f hf => ?_
    show (step :: f.1).getLast? = f.1.getLast?
    exact List.getLast?_cons_of_ne_nil (hbelow f hf)
  rw [List.map_cons, ← hrest]
  rfl

/-- `ParentWalk`'s recursive walk. -/
def recursiveParentWalk (itemise : N → List (Member N)) :
    Nat → Finset N → Option N → List (List (N × Nat) × Option N) × Finset N :=
  recursiveWalk itemise ⟨none, some uniqueFilter⟩

/-- What the recursive walk has done from an element: it found the element, and then links
below it. -/
def FoundFrom (itemise : N → List (Member N)) (seen : Finset N) (x : Option N)
    (result : List (List (N × Nat) × Option N) × Finset N) : Prop :=
  ∃ below, result.1 = ([], x) :: below ∧ (∀ f ∈ below, f.1 ≠ [])
    ∧ LinksFound itemise [x] [] seen (below, result.2)

/-- The children of a node that is seen, in turn. -/
theorem linksFound_inTurn {visit : Finset N → Option N →
      List (List (N × Nat) × Option N) × Finset N} {n : N}
    (l : List ((N × Nat) × Option N))
    (hvisit : ∀ c ∈ l, ∀ seen, FoundFrom itemise seen c.2 (visit seen c.2))
    (hn : ∀ c ∈ l, c.1.1 = n) (hnodup : (l.map Prod.fst).Nodup) (seen : Finset N)
    (hseen : n ∈ seen) :
    LinksFound itemise (l.map Prod.snd) (l.map Prod.fst) seen (inTurn visit seen l)
      ∧ ∀ f ∈ (inTurn visit seen l).1, f.1 ≠ [] := by
  induction l generalizing seen with
  | nil =>
      refine ⟨⟨Finset.Subset.refl _, ?_, ?_, ?_, List.nodup_nil, ?_⟩, by simp [inTurn]⟩
      · intro m hm
        cases hm
      · exact fun m hm hnew => absurd hm hnew
      · exact fun m hm hnew => absurd hm hnew
      · intro m k
        constructor
        · intro h
          cases h
        · rintro (h | ⟨hm, hnew, _⟩)
          · cases h
          · exact absurd hm hnew
  | cons c l ih =>
      -- the first child, and then the others with what has been seen
      obtain ⟨below, hfound, hpaths, hhere⟩ := hvisit c List.mem_cons_self seen
      have hcn := hn c List.mem_cons_self
      obtain ⟨hc, hl⟩ := List.nodup_cons.mp hnodup
      obtain ⟨hlater, hlaterPaths⟩ := ih (fun d hd => hvisit d (List.mem_cons_of_mem c hd))
        (fun d hd => hn d (List.mem_cons_of_mem c hd)) hl (visit seen c.2).2 (hhere.grows hseen)
      have hgiven : ∀ m k, (m, k) ∈ l.map Prod.fst → m = n := by
        intro m k hmk
        obtain ⟨d, hd, heq⟩ := List.mem_map.mp hmk
        have hdn := hn d (List.mem_cons_of_mem c hd)
        rw [heq] at hdn
        exact hdn
      rw [inTurn_cons, hfound]
      set later := inTurn visit (visit seen c.2).2 l with hlaterDef
      -- the last links are those below the child, after the step to it
      have hlinks : lastLinks ((([], c.2) :: below).map (fun f => (c.1 :: f.1, f.2)) ++ later.1)
          = c.1 :: (lastLinks below ++ lastLinks later.1) := by
        rw [lastLinks_append, lastLinks_under c.1 c.2 below hpaths]
        rfl
      refine ⟨⟨hhere.grows.trans hlater.grows, ?_, ?_, ?_, ?_, ?_⟩, ?_⟩
      · -- every child is seen in the end
        intro m hm
        rcases List.mem_cons.mp hm with heq | hm
        · exact hlater.grows (hhere.started m (by simp [heq]))
        · exact hlater.started m hm
      · intro m hm hnew
        -- what was seen first with this child, or later
        by_cases hfirst : m ∈ (visit seen c.2).2
        · obtain ⟨x, hx, hreach⟩ := hhere.below m hfirst hnew
          rw [List.mem_singleton.mp hx] at hreach
          exact ⟨c.2, List.mem_cons_self, hreach⟩
        · obtain ⟨x, hx, hreach⟩ := hlater.below m hm hfirst
          exact ⟨x, List.mem_cons_of_mem _ hx, hreach⟩
      · intro m hm hnew child hchild
        by_cases hfirst : m ∈ (visit seen c.2).2
        · exact hlater.grows (hhere.closed m hfirst hnew child hchild)
        · exact hlater.closed m hm hfirst child hchild
      · show (lastLinks _).Nodup
        rw [hlinks, List.nodup_cons, List.nodup_append]
        refine ⟨?_, hhere.nodup, hlater.nodup, ?_⟩
        · -- the step itself is of a node seen before, and not among the later ones
          intro hmem
          rcases List.mem_append.mp hmem with hmem | hmem
          · rcases (hhere.links c.1.1 c.1.2).mp hmem with h | ⟨_, hnew, _⟩
            · cases h
            · exact hnew (hcn ▸ hseen)
          · rcases (hlater.links c.1.1 c.1.2).mp hmem with h | ⟨_, hnew, _⟩
            · exact hc h
            · exact hnew (hcn ▸ hhere.grows hseen)
        · -- a link below the child is of a node that was new then
          rintro ⟨m, k⟩ hmem ⟨m', k'⟩ hmem' heq
          cases heq
          rcases (hhere.links m k).mp hmem with h | ⟨hm, hnew, _⟩
          · cases h
          · rcases (hlater.links m k).mp hmem' with h | ⟨_, hnew', _⟩
            · exact hnew (hgiven m k h ▸ hseen)
            · exact hnew' hm
      · intro m k
        show (m, k) ∈ lastLinks _ ↔ _
        rw [hlinks, List.mem_cons, List.mem_append, hhere.links, hlater.links, List.map_cons,
          List.mem_cons]
        constructor
        · -- the links of the nodes that became seen, and the steps from `n` itself
          rintro (h | (h | ⟨hm, hnew, hk⟩) | h | ⟨hm, hnew, hk⟩)
          · exact Or.inl (Or.inl h)
          · cases h
          · exact Or.inr ⟨hlater.grows hm, hnew, hk⟩
          · exact Or.inl (Or.inr h)
          · exact Or.inr ⟨hm, fun h => hnew (hhere.grows h), hk⟩
        · rintro ((h | h) | ⟨hm, hnew, hk⟩)
          · exact Or.inl h
          · exact Or.inr (Or.inr (Or.inl h))
          · by_cases hfirst : m ∈ (visit seen c.2).2
            · exact Or.inr (Or.inl (Or.inr ⟨hfirst, hnew, hk⟩))
            · exact Or.inr (Or.inr (Or.inr ⟨hm, hfirst, hk⟩))
      · intro f hf
        rcases List.mem_append.mp hf with hf | hf
        · obtain ⟨g, _, rfl⟩ := List.mem_map.mp hf
          exact List.cons_ne_nil _ _
        · exact hlaterPaths f hf

omit [DecidableEq N] in
/-- The recursive walk from an element that it does not go below. -/
theorem foundFrom_over {seen : Finset N} {x : Option N} (hx : ∀ n, x = some n → n ∈ seen) :
    FoundFrom itemise seen x ([([], x)], seen) := by
  refine ⟨[], rfl, by simp, Finset.Subset.refl _, ?_, ?_, ?_, List.nodup_nil, ?_⟩
  · intro n hn
    exact hx n (List.mem_singleton.mp hn).symm
  · exact fun m hm hnew => absurd hm hnew
  · exact fun m hm hnew => absurd hm hnew
  · intro m k
    constructor
    · intro h
      cases h
    · rintro (h | ⟨hm, hnew, _⟩)
      · cases h
      · exact absurd hm hnew

omit [DecidableEq N] in
theorem steps_nodup (n : N) : ((steps itemise (some n)).map Prod.fst).Nodup := by
  have hsorted : (steps itemise (some n)).Pairwise fun c d => c.1.2 < d.1.2 :=
    steps_sorted (some n)
  refine List.pairwise_map.mpr (hsorted.imp ?_)
  intro c d hlt heq
  rw [heq] at hlt
  exact lt_irrefl _ hlt

/-- A node that was not seen, with the links of its children. -/
theorem linksFound_node {seen : Finset N} {n : N} (hn : n ∉ seen)
    {result : List (List (N × Nat) × Option N) × Finset N}
    (h : LinksFound itemise ((steps itemise (some n)).map Prod.snd)
      ((steps itemise (some n)).map Prod.fst) (insert n seen) result) :
    LinksFound itemise [some n] [] seen result := by
  have hself : n ∈ result.2 := h.grows (Finset.mem_insert_self n seen)
  have hnew : ∀ m, m ≠ n → m ∉ seen → m ∉ insert n seen := by
    intro m hne hm hinsert
    exact (Finset.mem_insert.mp hinsert).elim hne hm
  -- the children are those the steps lead to
  have hchildren : ∀ x, x ∈ (steps itemise (some n)).map Prod.snd ↔ x ∈ childPtrs itemise n := by
    intro x
    show x ∈ ((childPtrs itemise n).zipIdx.map _).map Prod.snd ↔ _
    rw [List.map_map, show (Prod.snd ∘ fun c : Option N × Nat => ((n, c.2), c.1)) = Prod.fst from
      rfl, List.zipIdx_map_fst]
  refine ⟨(Finset.subset_insert n seen).trans h.grows, ?_, ?_, ?_, h.nodup, ?_⟩
  · intro m hm
    cases List.mem_singleton.mp hm
    exact hself
  · -- what is seen below is `n`, or below one of its children
    intro m hm hms
    by_cases hmn : m = n
    · exact ⟨some n, List.mem_singleton_self _, [], hmn ▸ PathBelow.here _⟩
    · obtain ⟨x, hx, path, hpath⟩ := h.below m hm (hnew m hmn hms)
      obtain ⟨⟨step, x'⟩, hstep, rfl⟩ := List.mem_map.mp hx
      exact ⟨some n, List.mem_singleton_self _, step :: path, PathBelow.step hstep hpath⟩
  · intro m hm hms child hchild
    by_cases hmn : m = n
    · rw [hmn] at hchild
      exact h.started child ((hchildren _).mpr hchild)
    · exact h.closed m hm (hnew m hmn hms) child hchild
  · intro m k
    rw [h.links]
    constructor
    · -- the links from `n` itself, and those from the nodes new below
      rintro (hmk | ⟨hm, hms, hk⟩)
      · obtain ⟨⟨⟨n', k'⟩, x⟩, hstep, heq⟩ := List.mem_map.mp hmk
        cases heq
        obtain ⟨heq, hget⟩ := mem_steps.mp hstep
        cases heq
        exact Or.inr ⟨hself, hn, (List.getElem?_eq_some_iff.mp hget).1⟩
      · exact Or.inr ⟨hm, fun hs => hms (Finset.mem_insert_of_mem hs), hk⟩
    · rintro (hmk | ⟨hm, hms, hk⟩)
      · cases hmk
      · by_cases hmn : m = n
        · subst hmn
          exact Or.inl (List.mem_map.mpr
            ⟨((m, k), _), mem_steps.mpr ⟨rfl, List.getElem?_eq_getElem hk⟩, rfl⟩)
        · exact Or.inr ⟨hm, hnew m hmn hms, hk⟩

omit [DecidableEq N] in
/-- A set that is closed under children has what is below the elements it has. -/
theorem mem_of_pathBelow {seen : Finset N} {x y : Option N} {path : List (N × Nat)}
    (h : PathBelow (steps itemise) x path y) (hx : ∀ n, x = some n → n ∈ seen)
    (hclosed : ∀ n ∈ seen, ∀ m, some m ∈ childPtrs itemise n → m ∈ seen) :
    ∀ n, y = some n → n ∈ seen := by
  induction h with
  | here x => exact hx
  | @step x y z a path hc _ ih =>
      refine ih ?_
      rintro m rfl
      obtain ⟨n, k⟩ := a
      obtain ⟨rfl, hget⟩ := mem_steps.mp hc
      exact hclosed n (hx n rfl) m (List.mem_of_getElem? hget)

/-- **The recursive walk finds the links of each new node once.** -/
theorem recursiveParentWalk_found {height : N → Nat}
    (hheight : ∀ n, ∀ m, some m ∈ childPtrs itemise n → height m < height n) (depth : Nat) :
    ∀ (seen : Finset N) (x : Option N), elementHeight height x ≤ depth →
      FoundFrom itemise seen x (recursiveParentWalk itemise (depth + 1) seen x) := by
  induction depth with
  | zero =>
      intro seen x hx
      cases x with
      | none => exact foundFrom_over (by simp)
      | some n => exact absurd hx (Nat.not_succ_le_zero _)
  | succ depth ih =>
      intro seen x hx
      unfold recursiveParentWalk
      cases x with
      | none => exact foundFrom_over (by simp)
      | some n =>
          -- a node that was seen is not walked again, a new one is entered
          by_cases hn : n ∈ seen
          · have hask : recurseAccepts (⟨none, some uniqueFilter⟩ : Filters N (Finset N))
                (outAccepts ⟨none, some uniqueFilter⟩ seen (some n)).2 (some n)
                  = (false, seen) := if_pos hn
            rw [recursiveWalk_over (by rw [hask]), hask]
            exact foundFrom_over fun m hm => Option.some.inj hm ▸ hn
          · have hask : recurseAccepts (⟨none, some uniqueFilter⟩ : Filters N (Finset N))
                (outAccepts ⟨none, some uniqueFilter⟩ seen (some n)).2 (some n)
                  = (true, insert n seen) := if_neg hn
            rw [recursiveWalk_into (by rw [hask]), hask]
            have hvisit : ∀ c ∈ steps itemise (some n), ∀ seen, FoundFrom itemise seen c.2
                (recursiveParentWalk itemise (depth + 1) seen c.2) := by
              intro c hc seen
              have hlt := elementHeight_lt hheight hc
              exact ih seen c.2 (by omega)
            obtain ⟨hlinks, hpaths⟩ := linksFound_inTurn (steps itemise (some n)) hvisit
              (fun c hc => (Option.some.inj (mem_steps.mp hc).1).symm) (steps_nodup n)
              (insert n seen) (Finset.mem_insert_self n seen)
            exact ⟨_, rfl, hpaths, linksFound_node hn hlinks⟩

/-- **`ParentWalk` stops at the root, and then at each link of each node below the root
once.** -/
theorem parentWalk_links (hacyclic : WellFounded fun m n => some m ∈ childPtrs itemise n)
    (root : Option N) :
    ∃ bound below, (∀ turns ≥ bound, parentWalk itemise turns root = some (([], root) :: below))
      ∧ (([], root) :: below).Pairwise PathOrder
      ∧ (∀ stop ∈ below, stop.1 ≠ [] ∧ PathBelow (steps itemise) root stop.1 stop.2)
      ∧ (below.filterMap fun stop => stop.1.getLast?).Nodup
      ∧ ∀ n k, (n, k) ∈ below.filterMap (fun stop => stop.1.getLast?)
        ↔ Reaches itemise root n ∧ k < (childPtrs itemise n).length := by
  obtain ⟨bound, stops, hwalk, hstops, hsorted, hplaces⟩ := walk_inOrder hacyclic
    (⟨none, some uniqueFilter⟩ : Filters N (Finset N)) root ∅
  obtain ⟨height, hheight⟩ := exists_childHeight hacyclic
  have heq := hstops (max bound (elementHeight height root) + 1)
    (le_trans (le_max_left _ _) (Nat.le_succ _))
  -- the recursive walk finds each link once, and the iterator hands out what it finds
  obtain ⟨below, hfound, hpaths, hlinks⟩ := recursiveParentWalk_found hheight
    (max bound (elementHeight height root)) ∅ root (le_max_right _ _)
  unfold recursiveParentWalk at hfound hlinks
  rw [hfound] at heq
  subst heq
  -- what is seen in the end is what is below the root
  have hseen : ∀ n, n ∈ (recursiveWalk itemise ⟨none, some uniqueFilter⟩
      (max bound (elementHeight height root) + 1) ∅ root).2 ↔ Reaches itemise root n := by
    intro n
    constructor
    · intro hn
      obtain ⟨x, hx, hreach⟩ := hlinks.below n hn (Finset.notMem_empty n)
      rwa [List.mem_singleton.mp hx] at hreach
    · rintro ⟨path, hpath⟩
      refine mem_of_pathBelow hpath ?_ (fun m hm => ?_) n rfl
      · intro m hm
        exact hlinks.started m (by simp [hm])
      · exact hlinks.closed m hm (Finset.notMem_empty m)
  refine ⟨bound, below, hwalk, hsorted, ?_, hlinks.nodup, ?_⟩
  · intro stop hstop
    exact ⟨hpaths stop hstop, hplaces stop (List.mem_cons_of_mem _ hstop)⟩
  · intro n k
    have hiff := hlinks.links n k
    rw [hseen] at hiff
    refine hiff.trans ⟨?_, ?_⟩
    · rintro (h | ⟨hn, _, hk⟩)
      · cases h
      · exact ⟨hn, hk⟩
    · rintro ⟨hn, hk⟩
      exact Or.inr ⟨hn, Finset.notMem_empty n, hk⟩

/-! ## §6. All walks. -/

/-- **Walks are depth-first and exhaustive**, on an acyclic tree with shared nodes, NULLs
and empty containers.  With any filters a walk comes to its end without an assertion,
stopping at what the recursive walk hands out, in the order of the paths; with filters that
look at the node only, that is each place which it can reach and hand out; `UniqueWalk`
stops at each node once and `ParentWalk` at each link of each node once. -/
theorem walks_exact (hacyclic : WellFounded fun m n => some m ∈ childPtrs itemise n)
    (root : Option N) :
    (∀ (σ : Type) (F : Filters N σ) (memory : σ), ∃ bound stops,
      (∀ turns ≥ bound, walk itemise F turns root memory = some stops)
      ∧ (∀ depth ≥ bound, stops = (recursiveWalk itemise F depth memory root).1)
      ∧ stops.Pairwise PathOrder
      ∧ ∀ stop ∈ stops, PathBelow (steps itemise) root stop.1 stop.2)
    ∧ (∀ (σ : Type) (out recurse : Option (N → Bool)) (memory : σ), ∃ bound stops,
      (∀ turns ≥ bound, walk itemise ⟨out.map plainFilter, recurse.map plainFilter⟩ turns root
        memory = some stops)
      ∧ stops.Pairwise PathOrder
      ∧ ∀ path element, (path, element) ∈ stops
        ↔ PathBelow (openSteps itemise recurse) root path element
          ∧ handsOut out element = true)
    ∧ (∃ bound stops, (∀ turns ≥ bound, uniqueWalk itemise turns root = some stops)
      ∧ stops.Pairwise PathOrder
      ∧ (stops.map Prod.snd).Nodup
      ∧ ∀ x, x ∈ stops.map Prod.snd ↔ ∃ n, x = some n ∧ Reaches itemise root n)
    ∧ ∃ bound below, (∀ turns ≥ bound, parentWalk itemise turns root = some (([], root) :: below))
      ∧ (([], root) :: below).Pairwise PathOrder
      ∧ (∀ stop ∈ below, stop.1 ≠ [] ∧ PathBelow (steps itemise) root stop.1 stop.2)
      ∧ (below.filterMap fun stop => stop.1.getLast?).Nodup
      ∧ ∀ n k, (n, k) ∈ below.filterMap (fun stop => stop.1.getLast?)
        ↔ Reaches itemise root n ∧ k < (childPtrs itemise n).length :=
  ⟨fun _ F memory => walk_inOrder hacyclic F root memory,
    fun _ out recurse memory => walk_plain hacyclic out recurse root memory,
    uniqueWalk_once hacyclic root, parentWalk_links hacyclic root⟩

/-- A node with two parents, a NULL and two empty containers. -/
def sharedChild : Nat → List (Member Nat)
  | 1 => [.container [], .container [some 0, none, some 0]]
  | 2 => [.singular (some 1), .container [some 0, some 1], .container []]
  | _ => []

theorem walks_exact_sharedChild :
    (parentWalk sharedChild 20 (some 2)).map (fun stops => stops.map Prod.snd)
      = some [some 2, some 1, some 0, none, some 0, some 0, some 1]
    ∧ ∃ bound stops, (∀ turns ≥ bound, uniqueWalk sharedChild turns (some 2) = some stops)
      ∧ stops.Pairwise PathOrder
      ∧ (stops.map Prod.snd).Nodup
      ∧ ∀ x, x ∈ stops.map Prod.snd ↔ ∃ n, x = some n ∧ Reaches sharedChild (some 2) n := by
  have hdown : ∀ m n, some m ∈ childPtrs sharedChild n → m < n := by
    intro m n hm
    match n with
    | 0 => cases hm
    | 1 =>
        simp [childPtrs, flatten, sharedChild, Member.ptrs] at hm
        omega
    | 2 =>
        simp [childPtrs, flatten, sharedChild, Member.ptrs] at hm
        omega
    | n + 3 => cases hm
  exact ⟨by decide, (walks_exact (Subrelation.wf (fun {m n} => hdown m n) Nat.lt_wfRel.wf)
    (some 2)).2.2.1⟩

end

end Inferno.Helpers
