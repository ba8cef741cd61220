/-
  Inferno.SYM.SubsetResult
  ────────────────────────
  `SYM::SubsetResult`: a finite set of values, or the complement of one.

    • the operations as the code computes them, with its assertions as `none`,
    • `contains` — the set of values such a result denotes,
    • the intersection and union of ANY list of results (plain, complemented,
      mixed, empty) never assert, and denote the intersection and the union.
-/
import Mathlib.Data.Finset.Basic
import Mathlib.Data.List.Basic

namespace Inferno.SYM

/-- `SYM::SubsetResult`. -/
structure SubsetResult (Val : Type*) where
  xlinks : Finset Val
  complementFlag : Bool

namespace SubsetResult

variable {Val : Type*} [DecidableEq Val]

instance : DecidableEq (SubsetResult Val) := fun a b =>
  decidable_of_iff (a.xlinks = b.xlinks ∧ a.complementFlag = b.complementFlag) (by
    cases a; cases b; simp)

/-! ## §1. The operations. -/

/-- `TryExtensionalise` refuses a complement set. -/
def tryExtensionalise (r : SubsetResult Val) : Option (Finset Val) :=
  if r.complementFlag then none else some r.xlinks

/-- `GetComplement`. -/
def getComplement (r : SubsetResult Val) : SubsetResult Val :=
  ⟨r.xlinks, !r.complementFlag⟩

/-- `UnionCore`; asserts that no operand is a complement. -/
def unionCore (ops : List (SubsetResult Val)) : Option (SubsetResult Val) := do
  let resultXlinks ← ops.foldlM (fun acc op =>
    if op.complementFlag then none else some (acc ∪ op.xlinks)) ∅
  some ⟨resultXlinks, false⟩

/-- The search of `IntersectionCore` for a non-complement operand.  The loop has
no `break`, so it ends up pointing at the LAST one. -/
def nonCompOp (ops : List (SubsetResult Val)) : Option (SubsetResult Val × Nat) :=
  ops.zipIdx.foldl (fun acc op => if op.1.complementFlag then acc else some op) none

/-- `IntersectionCore`; asserts that some operand is not a complement. -/
def intersectionCore (ops : List (SubsetResult Val)) : Option (SubsetResult Val) := do
  let base ← nonCompOp ops
  let resultXlinks := ops.zipIdx.foldl (fun acc op =>
    if op.2 = base.2 then acc -- the code compares the operand pointers
    else if op.1.complementFlag then acc \ op.1.xlinks
    else acc ∩ op.1.xlinks) base.1.xlinks
  some ⟨resultXlinks, false⟩

/-- `DeMorgan`. -/
def deMorgan (core : List (SubsetResult Val) → Option (SubsetResult Val))
    (ops : List (SubsetResult Val)) : Option (SubsetResult Val) := do
  let cres ← core (ops.map getComplement)
  some cres.getComplement

/-- `n_comp`: how many operands are complements. -/
def nComp (ops : List (SubsetResult Val)) : Nat :=
  ops.countP (·.complementFlag)

/-- `GetUnion`. -/
def getUnion (ops : List (SubsetResult Val)) : Option (SubsetResult Val) :=
  if 0 < nComp ops then deMorgan intersectionCore ops else unionCore ops

/-- `GetIntersection`. -/
def getIntersection (ops : List (SubsetResult Val)) : Option (SubsetResult Val) :=
  if nComp ops = ops.length then deMorgan unionCore ops else intersectionCore ops

/-! ## §2. The denoted set. -/

/-- The values a result denotes. -/
def contains (r : SubsetResult Val) (x : Val) : Prop :=
  if r.complementFlag then x ∉ r.xlinks else x ∈ r.xlinks

instance (r : SubsetResult Val) (x : Val) : Decidable (r.contains x) := by
  unfold contains; infer_instance

omit [DecidableEq Val] in
theorem contains_plain (xs : Finset Val) (x : Val) :
    contains (⟨xs, false⟩ : SubsetResult Val) x ↔ x ∈ xs := by
  simp [contains]

omit [DecidableEq Val] in
@[simp] theorem contains_getComplement (r : SubsetResult Val) (x : Val) :
    r.getComplement.contains x ↔ ¬ r.contains x := by
  cases h : r.complementFlag <;> simp [contains, getComplement, h]

omit [DecidableEq Val] in
theorem tryExtensionalise_eq_some {r : SubsetResult Val} {xs : Finset Val} :
    r.tryExtensionalise = some xs → ∀ x, x ∈ xs ↔ r.contains x := by
  intro h x
  unfold tryExtensionalise at h
  split at h
  · cases h
  next hc =>
    cases h
    simp [contains, hc]

/-! ## §3. The two cores. -/

private theorem foldlM_union (ops : List (SubsetResult Val)) :
    (∀ op ∈ ops, op.complementFlag = false) →
    ∀ acc : Finset Val, ∃ xs, ops.foldlM (fun acc op =>
        if op.complementFlag then none else some (acc ∪ op.xlinks)) acc = some xs
      ∧ ∀ x, x ∈ xs ↔ x ∈ acc ∨ ∃ op ∈ ops, op.contains x := by
  induction ops with
  | nil => intro _ acc; exact ⟨acc, rfl, by simp⟩
  | cons op ops ih =>
      intro hplain acc
      have hop : op.complementFlag = false := hplain op List.mem_cons_self
      obtain ⟨xs, hxs, hmem⟩ := ih (fun o ho => hplain o (List.mem_cons_of_mem _ ho))
        (acc ∪ op.xlinks)
      refine ⟨xs, ?_, ?_⟩
      · simp only [List.foldlM_cons, hop, Bool.false_eq_true, if_false, Option.bind_eq_bind,
          Option.bind_some, hxs]
      · intro x
        have hc : op.contains x ↔ x ∈ op.xlinks := by simp [contains, hop]
        simp only [hmem x, Finset.mem_union, List.mem_cons, exists_eq_or_imp, hc, or_assoc]

theorem unionCore_spec {ops : List (SubsetResult Val)}
    (hplain : ∀ op ∈ ops, op.complementFlag = false) :
    ∃ r, unionCore ops = some r ∧ ∀ x, r.contains x ↔ ∃ op ∈ ops, op.contains x := by
  obtain ⟨xs, hxs, hmem⟩ := foldlM_union ops hplain ∅
  refine ⟨⟨xs, false⟩, ?_, ?_⟩
  · simp [unionCore, hxs]
  · intro x
    rw [contains_plain, hmem x]
    simp

omit [DecidableEq Val] in
private theorem foldl_nonCompOp (ops : List (SubsetResult Val × Nat)) :
    ∀ acc : Option (SubsetResult Val × Nat),
      ((∃ op ∈ ops, op.1.complementFlag = false) ∨ acc.isSome) →
      ∃ base, ops.foldl (fun acc op => if op.1.complementFlag then acc else some op) acc
          = some base
        ∧ ((base ∈ ops ∧ base.1.complementFlag = false) ∨ acc = some base) := by
  induction ops with
  | nil =>
      intro acc h
      obtain ⟨base, hb⟩ := Option.isSome_iff_exists.mp (h.resolve_left (by simp))
      exact ⟨base, hb, Or.inr hb⟩
  | cons op ops ih =>
      intro acc h
      cases hop : op.1.complementFlag with
      | true =>
          -- an operand that is a complement leaves what was chosen
          have h' : (∃ op ∈ ops, op.1.complementFlag = false) ∨ acc.isSome := by
            rcases h with ⟨o, ho, hf⟩ | h
            · rcases List.mem_cons.mp ho with rfl | ho
              · rw [hop] at hf; cases hf
              · exact Or.inl ⟨o, ho, hf⟩
            · exact Or.inr h
          obtain ⟨base, hb, hcase⟩ := ih acc h'
          refine ⟨base, by simpa [hop] using hb, ?_⟩
          exact hcase.imp (fun hm => ⟨List.mem_cons_of_mem _ hm.1, hm.2⟩) id
      | false =>
          obtain ⟨base, hb, hcase⟩ := ih (some op) (Or.inr rfl)
          refine ⟨base, by simpa [hop] using hb, Or.inl ?_⟩
          rcases hcase with hm | hm
          · exact ⟨List.mem_cons_of_mem _ hm.1, hm.2⟩
          · cases hm
            exact ⟨List.mem_cons_self, hop⟩

/-- The running intersection: an element survives iff it was there and every
operand but the base (position `j`) contains it. -/
private theorem foldl_intersection (j : Nat) (ops : List (SubsetResult Val × Nat)) :
    ∀ (acc : Finset Val) (x : Val), x ∈ ops.foldl (fun acc op =>
        if op.2 = j then acc
        else if op.1.complementFlag then acc \ op.1.xlinks
        else acc ∩ op.1.xlinks) acc
      ↔ x ∈ acc ∧ ∀ op ∈ ops, op.2 ≠ j → op.1.contains x := by
  induction ops with
  | nil => intro acc x; simp
  | cons op ops ih =>
      intro acc x
      rw [List.foldl_cons, ih, List.forall_mem_cons]
      by_cases hj : op.2 = j
      · simp [hj]
      · cases hc : op.1.complementFlag <;> simp [hj, hc, contains, and_assoc]

theorem intersectionCore_spec {ops : List (SubsetResult Val)}
    (hplain : ∃ op ∈ ops, op.complementFlag = false) :
    ∃ r, intersectionCore ops = some r ∧ ∀ x, r.contains x ↔ ∀ op ∈ ops, op.contains x := by
  obtain ⟨op, hop, hflag⟩ := hplain
  obtain ⟨i, hi, rfl⟩ := List.getElem_of_mem hop
  obtain ⟨⟨base, j⟩, hb, hcase⟩ := foldl_nonCompOp ops.zipIdx none
    (Or.inl ⟨(ops[i], i), by simp [List.mk_mem_zipIdx_iff_getElem?, hi], hflag⟩)
  obtain ⟨hmem, hbase : base.complementFlag = false⟩ := hcase.resolve_right (by simp)
  rw [List.mk_mem_zipIdx_iff_getElem?] at hmem
  refine ⟨_, by simp only [intersectionCore, nonCompOp, hb]; rfl, ?_⟩
  intro x
  rw [contains_plain, foldl_intersection]
  have hbx : x ∈ base.xlinks ↔ base.contains x := by simp [contains, hbase]
  rw [hbx]
  constructor
  · -- the base itself was skipped by the loop, and is the initial accumulator
    rintro ⟨hx, hall⟩ o ho
    obtain ⟨k, hk, rfl⟩ := List.getElem_of_mem ho
    by_cases hkj : k = j
    · subst hkj
      rw [List.getElem?_eq_getElem hk, Option.some.injEq] at hmem
      rw [hmem]
      exact hx
    · exact hall (ops[k], k) (by simp [List.mk_mem_zipIdx_iff_getElem?, hk]) hkj
  · intro hall
    refine ⟨hall base (List.mem_of_getElem? hmem), ?_⟩
    rintro ⟨o, k⟩ ho _
    rw [List.mk_mem_zipIdx_iff_getElem?] at ho
    exact hall o (List.mem_of_getElem? ho)

/-! ## §4. Intersection and union of any list. -/

omit [DecidableEq Val] in
private theorem map_getComplement_plain {ops : List (SubsetResult Val)}
    (h : ∀ op ∈ ops, op.complementFlag = true) :
    ∀ op ∈ ops.map getComplement, op.complementFlag = false := by
  intro op hop
  obtain ⟨o, ho, rfl⟩ := List.mem_map.mp hop
  simp [getComplement, h o ho]

/-- **Intersection is exact**: no assertion fires, and the result denotes the
intersection of the denoted sets (everything, for the empty list). -/
theorem getIntersection_spec (ops : List (SubsetResult Val)) :
    ∃ r, getIntersection ops = some r ∧ ∀ x, r.contains x ↔ ∀ op ∈ ops, op.contains x := by
  unfold getIntersection
  split
  next hall =>
    have hcomp : ∀ op ∈ ops, op.complementFlag = true := List.countP_eq_length.mp hall
    obtain ⟨r, hr, hmem⟩ := unionCore_spec (map_getComplement_plain hcomp)
    refine ⟨r.getComplement, by simp [deMorgan, hr], ?_⟩
    intro x
    rw [contains_getComplement, hmem x]
    simp
  next hnot =>
    have hplain : ∃ op ∈ ops, op.complementFlag = false := by
      by_contra hno
      push Not at hno
      exact hnot (List.countP_eq_length.mpr (fun op hop => by simpa using hno op hop))
    exact intersectionCore_spec hplain

/-- **Union is exact**: no assertion fires, and the result denotes the union of
the denoted sets (nothing, for the empty list). -/
theorem getUnion_spec (ops : List (SubsetResult Val)) :
    ∃ r, getUnion ops = some r ∧ ∀ x, r.contains x ↔ ∃ op ∈ ops, op.contains x := by
  unfold getUnion
  split
  next hpos =>
    obtain ⟨op, hop, hflag⟩ := List.countP_pos_iff.mp hpos
    have hplain : ∃ op ∈ ops.map getComplement, op.complementFlag = false :=
      ⟨op.getComplement, List.mem_map_of_mem hop, by simp [getComplement, hflag]⟩
    obtain ⟨r, hr, hmem⟩ := intersectionCore_spec hplain
    refine ⟨r.getComplement, by simp [deMorgan, hr], ?_⟩
    intro x
    rw [contains_getComplement, hmem x]
    simp
  next hnot =>
    refine unionCore_spec ?_
    intro op hop
    have hnone := List.countP_eq_zero.mp (Nat.eq_zero_of_not_pos hnot) op hop
    simpa using hnone

/-- **The algebra is exact**, for every list of results: no assertion of the cores fires,
and the intersection, the union and the complement denote what they are named for. -/
theorem subset_algebra_exact :
    (∀ ops : List (SubsetResult Val),
      (∃ r, getIntersection ops = some r
        ∧ ∀ x, r.contains x ↔ ∀ op ∈ ops, op.contains x)
      ∧ ∃ r, getUnion ops = some r ∧ ∀ x, r.contains x ↔ ∃ op ∈ ops, op.contains x)
    ∧ ∀ (r : SubsetResult Val) (x : Val), r.getComplement.contains x ↔ ¬ r.contains x :=
  ⟨fun ops => ⟨getIntersection_spec ops, getUnion_spec ops⟩, contains_getComplement⟩

example : (getIntersection [⟨{1, 2, 3}, false⟩, (⟨{2}, true⟩ : SubsetResult Nat)])
    = some ⟨{1, 3}, false⟩ := by decide

end SubsetResult

end Inferno.SYM
