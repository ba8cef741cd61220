/-
  Inferno.SYM.KarnaughExact
  ─────────────────────────
  **THE EXPRESSION OF A KARNAUGH MAP.**

    • `karnaughLoop`               — slices until none improves,
    • `getExpressionViaKarnaughMap` — the Or of the And of each slice,
    • `karnaughLoop_spec`          — the loop ends, its slices cover the ticks and no cross,
    • `getExpressionViaKarnaughMap_exact` — for every table the expression is true at the
                                     ticks and false at the crosses.
-/
import Inferno.SYM.Karnaugh
import Inferno.SYM.TruthTableSolver

namespace Inferno.SYM

open Inferno.Common

/-! ## §1. The map. -/

/-- The iteration order of a `set<shared_ptr<SliceSpec>>`, which goes by addresses. -/
structure SliceOrder where
  walk : List SliceSpec → List SliceSpec
  perm : ∀ l, (walk l).Perm l

/-- The `while( 1 )`: slices for the ticks that are not covered so far. -/
def karnaughLoop (t : TruthTable) : Nat → TruthTable → List SliceSpec → Option (List SliceSpec)
  | 0, _, _ => none
  | fuel + 1, soFar, karnaughMap => do
      match ← t.tryFindBestKarnaughSlice .TRUE true soFar with
      | none => some karnaughMap -- must have got them all
      | some slice => do
          let soFar ← soFar.setSlice slice .FALSE
          karnaughLoop t fuel soFar (karnaughMap ++ [slice])

section

variable {S A M : Type} [DecidableEq S]

/-- One clause of a slice. -/
def karnaughClause (layout : Layout S A M) (predicates : List (EqualPredicateSet S A M))
    (slice : SliceSpec) (axis : Nat) : Option (BooleanExpression (PredicateOperator S A M)) := do
  let index ← slice.lookup axis
  let s ← predicates[axis]?
  let clause := BooleanExpression.predicate (s.front layout)
  some (if index = false then .notOp clause else clause)

/-- The intersection of the clauses of a slice. -/
def karnaughTerm (layout : Layout S A M) (predicates : List (EqualPredicateSet S A M))
    (slice : SliceSpec) : Option (BooleanExpression (PredicateOperator S A M)) := do
  let clauses ← (inOrder slice.keys).mapM (karnaughClause layout predicates slice)
  some (.andOp clauses)

/-- **`GetExpressionViaKarnaughMap`**; a turn of the loop for each cell, and the one that
finds nothing, are enough. -/
def getExpressionViaKarnaughMap (layout : Layout S A M) (order : SliceOrder)
    (initialTtwp : TruthTableWithPredicates S A M) :
    Option (BooleanExpression (PredicateOperator S A M)) := do
  let t := initialTtwp.truthTable
  let karnaughMap ← karnaughLoop t (2 ^ t.degree + 1) t []
  let terms ← (order.walk karnaughMap).mapM (karnaughTerm layout initialTtwp.predicates)
  some (.orOp terms)

end

/-! ## §2. The loop. -/

variable {t soFar : TruthTable}

/-- The ticks of a table. -/
def ticks (t : TruthTable) : Finset (List Bool) :=
  (forPower t.degree indexRangeBool).toFinset.filter (fun w => t.get w = some .TRUE)

theorem mem_ticks {w : List Bool} : w ∈ ticks t ↔ w.length = t.degree ∧ t.get w = some .TRUE := by
  unfold ticks
  rw [Finset.mem_filter, List.mem_toFinset, mem_forPower_bool]

theorem card_ticks_le (t : TruthTable) : (ticks t).card ≤ 2 ^ t.degree := by
  calc (ticks t).card ≤ (forPower t.degree indexRangeBool).toFinset.card :=
        Finset.card_filter_le _ _
    _ ≤ (forPower t.degree indexRangeBool).length := List.toFinset_card_le _
    _ = 2 ^ t.degree := length_forPower_bool t.degree

/-- **What the loop keeps**: the slices so far have no cross, and with the ticks that are
left they cover the table's. -/
structure Covering (t soFar : TruthTable) (karnaughMap : List SliceSpec) : Prop where
  degree : soFar.degree = t.degree
  left : ∀ w ∈ ticks soFar, t.get w = some .TRUE
  keys : ∀ slice ∈ karnaughMap, ∀ k ∈ slice.keys, k < t.degree
  no_cross : ∀ slice ∈ karnaughMap, ∀ w, w.length = t.degree → slice.Matches w →
    t.get w ≠ some .FALSE
  covered : ∀ w ∈ ticks t, w ∈ ticks soFar ∨ ∃ slice ∈ karnaughMap, slice.Matches w

/-- **One turn** covers a tick more. -/
theorem Covering.step {karnaughMap : List SliceSpec} {slice : SliceSpec}
    (h : Covering t soFar karnaughMap)
    (himp : TruthTable.Improves t soFar .TRUE .FALSE slice) :
    ∃ soFar', soFar.setSlice slice .FALSE = some soFar'
      ∧ Covering t soFar' (karnaughMap ++ [slice]) ∧ (ticks soFar').card < (ticks soFar).card := by
  obtain ⟨soFar', hset, hdeg, hget⟩ := soFar.get_setSlice (h.degree.symm ▸ himp.keys) .FALSE
  -- the ticks that are left are those outside the slice
  have hticks : ∀ w, w ∈ ticks soFar' ↔ w ∈ ticks soFar ∧ ¬ slice.Matches w := by
    intro w
    rw [mem_ticks, mem_ticks, hdeg]
    by_cases hlen : w.length = soFar.degree
    · rw [hget w hlen]
      by_cases hmatch : slice.Matches w <;> simp [hmatch, hlen]
    · simp [hlen]
  refine ⟨soFar', hset, ⟨hdeg.trans h.degree, ?_, ?_, ?_, ?_⟩, ?_⟩
  · intro w hw
    exact h.left w ((hticks w).mp hw).1
  · intro s hs
    rcases List.mem_append.mp hs with hs | hs
    · exact h.keys s hs
    · rw [List.mem_singleton.mp hs]
      exact himp.keys
  · intro s hs
    rcases List.mem_append.mp hs with hs | hs
    · exact h.no_cross s hs
    · rw [List.mem_singleton.mp hs]
      exact himp.no_cross
  · intro w hw
    rcases h.covered w hw with hleft | ⟨s, hs, hmatch⟩
    · by_cases hmatch : slice.Matches w
      · exact .inr ⟨slice, List.mem_append_right _ (List.mem_singleton_self slice), hmatch⟩
      · exact .inl ((hticks w).mpr ⟨hleft, hmatch⟩)
    · exact .inr ⟨s, List.mem_append_left _ hs, hmatch⟩
  · -- the slice holds one of the ticks that were left
    obtain ⟨w, hw, hmatch, hget⟩ := himp.new_tick
    have hwt : w ∈ ticks soFar := mem_ticks.mpr ⟨hw.trans h.degree.symm, hget⟩
    refine Finset.card_lt_card ⟨fun v hv => ((hticks v).mp hv).1, ?_⟩
    intro hsub
    exact ((hticks w).mp (hsub hwt)).2 hmatch

/-- **The loop ends**: by induction on the fuel, with fewer ticks left than fuel. -/
theorem karnaughLoop_spec (fuel : Nat) : ∀ {soFar : TruthTable} {karnaughMap : List SliceSpec},
    Covering t soFar karnaughMap → (ticks soFar).card < fuel →
    ∃ slices, karnaughLoop t fuel soFar karnaughMap = some slices
      ∧ (∀ slice ∈ slices, ∀ k ∈ slice.keys, k < t.degree)
      ∧ (∀ slice ∈ slices, ∀ w, w.length = t.degree → slice.Matches w → t.get w ≠ some .FALSE)
      ∧ ∀ w ∈ ticks t, ∃ slice ∈ slices, slice.Matches w := by
  induction fuel with
  | zero =>
      intro soFar karnaughMap _ hfuel
      exact absurd hfuel (Nat.not_lt_zero _)
  | succ fuel ih =>
      intro soFar karnaughMap h hfuel
      obtain ⟨best, hbest, hsome, hnone⟩ :=
        TruthTable.tryFindBestKarnaughSlice_spec h.degree .TRUE true
      unfold karnaughLoop
      rw [hbest]
      dsimp only [Option.bind_eq_bind, Option.bind_some]
      cases best with
      | some slice =>
          obtain ⟨soFar', hset, h', hlt⟩ := h.step (hsome slice rfl)
          dsimp only
          rw [hset]
          exact ih h' (by omega)
      | none =>
          refine ⟨karnaughMap, rfl, h.keys, h.no_cross, ?_⟩
          intro w hw
          rcases h.covered w hw with hleft | hslice
          · -- a tick that is left would be a cross
            have hcross := hnone rfl w ((mem_ticks.mp hw).1) (mem_ticks.mp hleft).2
            rw [(mem_ticks.mp hw).2] at hcross
            exact absurd hcross (by simp)
          · exact hslice

/-! ## §3. The expression. -/

namespace BooleanExpression

variable {P : Type} {pred : P → Option Bool}

/-- Operands that evaluate, to values given one by one. -/
theorem evaluateAll_map {sa : List (BooleanExpression P)} {f : BooleanExpression P → Bool}
    (h : ∀ a ∈ sa, a.evaluate pred = some (f a)) : evaluateAll pred sa = some (sa.map f) := by
  induction sa with
  | nil => rfl
  | cons a sa ih =>
      rw [evaluateAll, h a List.mem_cons_self,
        ih (fun b hb => h b (List.mem_cons_of_mem a hb))]
      rfl

theorem foldl_max (r : Bool) (rs : List Bool) :
    rs.foldl max r = true ↔ r = true ∨ ∃ b ∈ rs, b = true := by
  induction rs generalizing r with
  | nil => simp
  | cons b rs ih =>
      rw [List.foldl_cons, ih]
      cases r <;> cases b <;> simp

theorem maxElement_eq_true (rs : List Bool) : maxElement rs = true ↔ ∃ b ∈ rs, b = true := by
  cases rs with
  | nil => simp [maxElement]
  | cons r rs =>
      rw [maxElement, foldl_max]
      simp

/-- A conjunction of operands that evaluate. -/
theorem evaluate_andOp {sa : List (BooleanExpression P)} {f : BooleanExpression P → Bool}
    (h : ∀ a ∈ sa, a.evaluate pred = some (f a)) :
    (andOp sa).evaluate pred = some (decide (∀ a ∈ sa, f a = true)) := by
  rw [evaluate, evaluateAll_map h, Option.map_some, Option.some.injEq, Bool.eq_iff_iff,
    minElement_eq_true, decide_eq_true_iff, List.forall_mem_map]

/-- A disjunction of operands that evaluate. -/
theorem evaluate_orOp {sa : List (BooleanExpression P)} {f : BooleanExpression P → Bool}
    (h : ∀ a ∈ sa, a.evaluate pred = some (f a)) :
    (orOp sa).evaluate pred = some (decide (∃ a ∈ sa, f a = true)) := by
  rw [evaluate, evaluateAll_map h, Option.map_some, Option.some.injEq, Bool.eq_iff_iff,
    maxElement_eq_true, decide_eq_true_iff]
  simp

end BooleanExpression

section

variable {S A M : Type} [DecidableEq S] {layout : Layout S A M}
  {predicates : List (EqualPredicateSet S A M)} {slice : SliceSpec}

/-- A predicate of the table, or its negation. -/
def IsClause (layout : Layout S A M) (predicates : List (EqualPredicateSet S A M))
    (clause : BooleanExpression (PredicateOperator S A M)) : Prop :=
  ∃ s ∈ predicates, clause = .predicate (s.front layout)
    ∨ clause = .notOp (.predicate (s.front layout))

/-- The predicates of the table have the values of a cell. -/
def HasValues (layout : Layout S A M) (predicates : List (EqualPredicateSet S A M))
    (pred : PredicateOperator S A M → Option Bool) (w : List Bool) : Prop :=
  ∀ (i : Nat) (s : EqualPredicateSet S A M), predicates[i]? = some s →
    pred (s.front layout) = w[i]?

variable (layout predicates) in
/-- **One clause**: it is true where the slice has the value of the axis. -/
theorem karnaughClause_spec {axis : Nat} (hkey : axis ∈ slice.keys)
    (haxis : axis < predicates.length) :
    ∃ clause, karnaughClause layout predicates slice axis = some clause
      ∧ IsClause layout predicates clause
      ∧ ∀ pred w, w.length = predicates.length → HasValues layout predicates pred w →
        clause.evaluate pred = some (decide (w[axis]? = slice.lookup axis)) := by
  obtain ⟨index, hindex⟩ := StdMap.exists_of_mem_keys hkey
  have hs := List.getElem?_eq_getElem haxis
  refine ⟨_, by unfold karnaughClause; rw [hindex, hs]; rfl, ?_, ?_⟩
  · refine ⟨predicates[axis], List.getElem_mem haxis, ?_⟩
    cases index with
    | false => exact .inr rfl
    | true => exact .inl rfl
  · intro pred w hw hvalues
    have hval := hvalues axis _ hs
    rw [List.getElem?_eq_getElem (hw ▸ haxis)] at hval ⊢
    rw [hindex]
    cases index with
    | false =>
        show (pred _).map (!·) = _
        rw [hval]
        cases w[axis] <;> rfl
    | true =>
        show pred _ = _
        rw [hval]
        cases w[axis] <;> rfl

variable (layout predicates) in
/-- **One term**: it is true in the slice. -/
theorem karnaughTerm_spec (hkeys : ∀ k ∈ slice.keys, k < predicates.length) :
    ∃ term clauses, karnaughTerm layout predicates slice = some term ∧ term = .andOp clauses
      ∧ (∀ clause ∈ clauses, IsClause layout predicates clause)
      ∧ ∀ pred w, w.length = predicates.length → HasValues layout predicates pred w →
        term.evaluate pred = some (decide (slice.Matches w)) := by
  obtain ⟨clauses, hclauses, hmem⟩ := exists_mapM (karnaughClause layout predicates slice)
    (inOrder slice.keys) (by
      intro axis haxis
      obtain ⟨clause, hclause, _⟩ := karnaughClause_spec layout predicates
        (mem_inOrder.mp haxis) (hkeys axis (mem_inOrder.mp haxis))
      exact ⟨clause, hclause⟩)
  -- each clause is that of one axis
  have hspec : ∀ clause, clause ∈ clauses ↔ ∃ axis ∈ slice.keys,
      karnaughClause layout predicates slice axis = some clause := by
    intro clause
    rw [hmem]
    simp only [mem_inOrder]
  refine ⟨_, clauses, by unfold karnaughTerm; rw [hclauses]; rfl, rfl, ?_, ?_⟩
  · intro clause hclause
    obtain ⟨axis, haxis, hget⟩ := (hspec clause).mp hclause
    obtain ⟨clause', hclause', hform, _⟩ := karnaughClause_spec layout predicates haxis
      (hkeys axis haxis)
    rw [hget] at hclause'
    cases hclause'
    exact hform
  · -- the term is true where all its clauses are, which is in the slice
    intro pred w hw hvalues
    have heval : ∀ axis ∈ slice.keys, ∀ clause,
        karnaughClause layout predicates slice axis = some clause →
        clause.evaluate pred = some (decide (w[axis]? = slice.lookup axis)) := by
      intro axis haxis clause hget
      obtain ⟨clause', hclause', _, hval⟩ := karnaughClause_spec layout predicates haxis
        (hkeys axis haxis)
      rw [hget] at hclause'
      cases hclause'
      exact hval pred w hw hvalues
    rw [BooleanExpression.evaluate_andOp
      (f := fun clause => (clause.evaluate pred).getD false) (by
        intro clause hclause
        obtain ⟨axis, haxis, hget⟩ := (hspec clause).mp hclause
        rw [heval axis haxis clause hget]
        rfl)]
    rw [Option.some.injEq, decide_eq_decide]
    constructor
    · intro hall axis haxis
      obtain ⟨clause, hget, _⟩ := karnaughClause_spec layout predicates haxis
        (hkeys axis haxis)
      have htrue := hall clause ((hspec clause).mpr ⟨axis, haxis, hget⟩)
      rw [heval axis haxis clause hget] at htrue
      exact decide_eq_true_iff.mp htrue
    · intro hmatch clause hclause
      obtain ⟨axis, haxis, hget⟩ := (hspec clause).mp hclause
      rw [heval axis haxis clause hget]
      exact decide_eq_true_iff.mpr (hmatch axis haxis)

/-- **The expression of every table**: it is returned, it is an Or of Ands of the table's
predicates and their negations, and it is true at the ticks and false at the crosses. -/
theorem getExpressionViaKarnaughMap_exact (layout : Layout S A M) (order : SliceOrder)
    (initialTtwp : TruthTableWithPredicates S A M) :
    ∃ terms, getExpressionViaKarnaughMap layout order initialTtwp = some (.orOp terms)
      ∧ (∀ term ∈ terms, ∃ clauses, term = .andOp clauses
          ∧ ∀ clause ∈ clauses, IsClause layout initialTtwp.predicates clause)
      ∧ ∀ pred w, w.length = initialTtwp.truthTable.degree →
          HasValues layout initialTtwp.predicates pred w →
          (initialTtwp.truthTable.get w = some .TRUE →
            (BooleanExpression.orOp terms).evaluate pred = some true)
          ∧ (initialTtwp.truthTable.get w = some .FALSE →
            (BooleanExpression.orOp terms).evaluate pred = some false) := by
  have hdeg := initialTtwp.degree_eq
  obtain ⟨slices, hslices, hkeys, hcross, hcover⟩ :=
    karnaughLoop_spec (2 ^ initialTtwp.truthTable.degree + 1)
      (show Covering initialTtwp.truthTable initialTtwp.truthTable [] from
        ⟨rfl, fun w hw => (mem_ticks.mp hw).2, by simp, by simp, fun w hw => .inl hw⟩)
      (Nat.lt_succ_of_le (card_ticks_le _))
  -- the order in which the slices are walked does not matter
  have hwalk : ∀ slice, slice ∈ order.walk slices ↔ slice ∈ slices :=
    fun slice => (order.perm slices).mem_iff
  have hterm := fun slice (hslice : slice ∈ order.walk slices) =>
    karnaughTerm_spec layout initialTtwp.predicates
      (hdeg ▸ hkeys slice ((hwalk slice).mp hslice))
  obtain ⟨terms, hterms, hmem⟩ := exists_mapM (karnaughTerm layout initialTtwp.predicates)
    (order.walk slices) (by
      intro slice hslice
      obtain ⟨term, _, hget, _⟩ := hterm slice hslice
      exact ⟨term, hget⟩)
  refine ⟨terms, ?_, ?_, ?_⟩
  · unfold getExpressionViaKarnaughMap
    dsimp only
    rw [hslices]
    dsimp only [Option.bind_eq_bind, Option.bind_some]
    rw [hterms]
    rfl
  · intro term hterm'
    obtain ⟨slice, hslice, hget⟩ := (hmem term).mp hterm'
    obtain ⟨term', clauses, hget', hform, hclauses, _⟩ := hterm slice hslice
    rw [hget] at hget'
    cases hget'
    exact ⟨clauses, hform, hclauses⟩
  · intro pred w hw hvalues
    have heval : ∀ slice ∈ order.walk slices, ∀ term,
        karnaughTerm layout initialTtwp.predicates slice = some term →
        term.evaluate pred = some (decide (slice.Matches w)) := by
      intro slice hslice term hget
      obtain ⟨term', _, hget', _, _, hval⟩ := hterm slice hslice
      rw [hget] at hget'
      cases hget'
      exact hval pred w (hw.trans hdeg) hvalues
    rw [BooleanExpression.evaluate_orOp
      (f := fun term => (term.evaluate pred).getD false) (by
        intro term hterm'
        obtain ⟨slice, hslice, hget⟩ := (hmem term).mp hterm'
        rw [heval slice hslice term hget]
        rfl)]
    rw [Option.some.injEq, Option.some.injEq, decide_eq_true_iff, decide_eq_false_iff_not]
    constructor
    · -- a tick is covered by one of the slices
      intro htick
      obtain ⟨slice, hslice, hmatch⟩ := hcover w (mem_ticks.mpr ⟨hw, htick⟩)
      obtain ⟨term, _, hget, _⟩ := hterm slice ((hwalk slice).mpr hslice)
      refine ⟨term, (hmem term).mpr ⟨slice, (hwalk slice).mpr hslice, hget⟩, ?_⟩
      rw [heval slice ((hwalk slice).mpr hslice) term hget]
      exact decide_eq_true_iff.mpr hmatch
    · -- a cross is in none of them
      intro hfalse htrue
      obtain ⟨term, hterm', hval⟩ := htrue
      obtain ⟨slice, hslice, hget⟩ := (hmem term).mp hterm'
      rw [heval slice hslice term hget] at hval
      exact hcross slice ((hwalk slice).mp hslice) w hw (decide_eq_true_iff.mp hval) hfalse

end

end Inferno.SYM
