/-
  Inferno.DB.LacingExact
  ──────────────────────
  The ranges and the decision tree of a lacing.

    • `Laced`                — the order is a walk of the kept categories and null,
    • `profile`              — the kept categories a node is in; the entries of the order
                               have different ones,
    • `buildRanges_spec`     — each category's range list is the runs of its entries,
    • `makeDecisionSubtree_spec` — the tree finds the entry with the node's profile,
    • `Built`, `build_spec`  — `Build` returns, and what its result satisfies.
-/
import Inferno.DB.LacingSort

namespace Inferno.DB.Lacing

open Inferno.Common
open Inferno.Lib

variable {N K : Type} [LinearOrder N] [DecidableEq K] (kit : CategoryKit N K)

/-! ## §1. Profiles. -/

/-- The categories, as `FixupCategories` leaves them. -/
def withNull (kept : Finset N) : Finset (Option N) :=
  insert none (kept.map Function.Embedding.some)

theorem mem_withNull {kept : Finset N} {x : Option N} :
    x ∈ withNull kept ↔ ∀ c, x = some c → c ∈ kept := by
  unfold withNull
  cases x <;> simp

/-- The kept categories that a node is in. -/
def profile (kept : Finset N) (x : Option N) : Finset N :=
  kept.filter (fun c => kit.localMatchWithNULL (some c) x)

omit [LinearOrder N] [DecidableEq K] in
theorem mem_profile {kept : Finset N} {x : Option N} {c : N} :
    c ∈ profile kit kept x ↔ c ∈ kept ∧ kit.localMatchWithNULL (some c) x = true := by
  unfold profile
  rw [Finset.mem_filter]

omit [LinearOrder N] [DecidableEq K] in
theorem mem_profile_some {kept : Finset N} {x c : N} :
    c ∈ profile kit kept (some x) ↔ c ∈ kept ∧ kit.isSubcategory c x = true :=
  mem_profile kit

omit [LinearOrder N] [DecidableEq K] in
theorem profile_none (kept : Finset N) : profile kit kept none = ∅ := by
  rw [Finset.eq_empty_iff_forall_notMem]
  intro c hc
  exact Bool.noConfusion ((mem_profile kit).mp hc).2

omit [LinearOrder N] [DecidableEq K] in
/-- Equivalent categories have one profile. -/
theorem profile_congr (kept : Finset N) {x y : N} (h : kit.isEquivalentCategory x y = true) :
    profile kit kept (some x) = profile kit kept (some y) := by
  rw [isEquivalentCategory_iff] at h
  ext c
  rw [mem_profile_some, mem_profile_some, and_congr_right_iff]
  intro _
  constructor
  · exact fun hc => kit.isSubcategory_trans c x y hc h.1
  · exact fun hc => kit.isSubcategory_trans c y x hc h.2

omit [DecidableEq K] in
theorem mem_nonstrictSupercats {kept : Finset N} {c : N} {x : Option N} :
    some c ∈ nonstrictSupercats kit (withNull kept) x ↔ c ∈ profile kit kept x := by
  unfold nonstrictSupercats
  rw [Finset.mem_filter, mem_withNull, mem_profile]
  simp

/-- **The order is a walk of the kept categories and null.** -/
structure Laced (kept : Finset N) (order : List (Option N)) : Prop where
  inequivalent : Inequivalent kit kept
  nodup : order.Nodup
  mem_order : ∀ x, x ∈ order ↔ ∀ c, x = some c → c ∈ kept

/-- The entry at a place; null off the end. -/
def entry (order : List (Option N)) (i : Nat) : Option N := order[i]?.join

omit [DecidableEq K] in
theorem currentSupercats_eq (kept : Finset N) (order : List (Option N)) (i : Nat) :
    currentSupercats kit (withNull kept) order i = profile kit kept (entry order i) := by
  unfold currentSupercats entry
  cases order[i]? with
  | none => exact (profile_none kit kept).symm
  | some x =>
      cases x with
      | none => exact (profile_none kit kept).symm
      | some cat =>
          ext c
          show c ∈ (nonstrictSupercats kit (withNull kept) (some cat)).eraseNone
            ↔ c ∈ profile kit kept (some cat)
          rw [Finset.mem_eraseNone, mem_nonstrictSupercats]

namespace Laced

variable {kit} {kept : Finset N} {order : List (Option N)} (h : Laced kit kept order)

omit [LinearOrder N] in
theorem entry_eq_of_getElem {i : Nat} {x : Option N} (hx : order[i]? = some x) :
    entry order i = x := by
  unfold entry
  rw [hx]
  rfl

include h in
omit [LinearOrder N] [DecidableEq K] in
/-- A kept category has a place. -/
theorem exists_entry {x : Option N} (hx : ∀ c, x = some c → c ∈ kept) :
    ∃ i < order.length, order[i]? = some x := by
  obtain ⟨i, hi, hget⟩ := List.getElem_of_mem ((h.mem_order x).mpr hx)
  exact ⟨i, hi, by rw [List.getElem?_eq_getElem hi, hget]⟩

include h in
omit [LinearOrder N] [DecidableEq K] in
theorem mem_kept_of_getElem {i : Nat} {c : N} (hc : order[i]? = some (some c)) : c ∈ kept :=
  (h.mem_order (some c)).mp (List.mem_of_getElem? hc) c rfl

include h in
omit [LinearOrder N] [DecidableEq K] in
/-- **Two entries with one profile are one**: a category is in its own profile, and no
other kept category is equivalent to it. -/
theorem profile_injective {i j : Nat} (hi : i < order.length) (hj : j < order.length)
    (hij : profile kit kept (entry order i) = profile kit kept (entry order j)) : i = j := by
  have hself {c : N} (hc : c ∈ kept) : c ∈ profile kit kept (some c) :=
    (mem_profile_some kit).mpr ⟨hc, kit.isSubcategory_refl c⟩
  -- equal profiles make equal entries, whichever of them is `NULL`
  have heq : order[i]? = order[j]? := by
    cases hx : order[i]? with
    | none => rw [List.getElem?_eq_none_iff] at hx; omega
    | some x =>
        cases hy : order[j]? with
        | none => rw [List.getElem?_eq_none_iff] at hy; omega
        | some y =>
            rw [entry_eq_of_getElem hx, entry_eq_of_getElem hy] at hij
            congr 1
            cases x with
            | none =>
                cases y with
                | none => rfl
                | some d =>
                    have hd := hself (h.mem_kept_of_getElem hy)
                    rw [← hij, profile_none] at hd
                    exact absurd hd (Finset.notMem_empty d)
            | some c =>
                have hc := hself (h.mem_kept_of_getElem hx)
                cases y with
                | none =>
                    rw [hij, profile_none] at hc
                    exact absurd hc (Finset.notMem_empty c)
                | some d =>
                    have hd := hself (h.mem_kept_of_getElem hy)
                    -- each is in the other's profile, so they are equivalent
                    rw [hij] at hc
                    rw [← hij] at hd
                    congr 1
                    apply h.inequivalent c ((mem_profile kit).mp hc).1 d ((mem_profile kit).mp hd).1
                    rw [isEquivalentCategory_iff]
                    exact ⟨((mem_profile_some kit).mp hc).2, ((mem_profile_some kit).mp hd).2⟩
  exact h.nodup.getElem_inj_iff.mp (by
    rw [List.getElem?_eq_getElem hi, List.getElem?_eq_getElem hj] at heq
    exact Option.some.inj heq)

end Laced

/-! ## §2. `BuildRanges`. -/

omit [LinearOrder N] [DecidableEq K] in
/-- Keys tell the kept categories apart. -/
theorem key_injective {kept : Finset N} (h : Inequivalent kit kept) {c d : N} (hc : c ∈ kept)
    (hd : d ∈ kept) (hk : kit.simpleCompareKey c = kit.simpleCompareKey d) : c = d :=
  h c hc d hd (isEquivalentCategory_of_key kit hk)

/-- Change the range list of one category. -/
def updateRanges (g : List (Int × Int) → Option (List (Int × Int)))
    (lists : StdMap K (List (Int × Int))) (c : N) : Option (StdMap K (List (Int × Int))) :=
  (g (rangeLists kit lists c)).map (lists.set (kit.simpleCompareKey c))

omit [LinearOrder N] in
theorem beginRange_eq (i : Int) :
    beginRange kit i = updateRanges kit (fun rs => some (rs ++ [(i, -1)])) := rfl

omit [LinearOrder N] in
theorem endRange_eq (i : Int) : endRange kit i = updateRanges kit (closeLast i) := rfl

omit [LinearOrder N] in
theorem rangeLists_set (lists : StdMap K (List (Int × Int))) (c d : N) (rs : List (Int × Int)) :
    rangeLists kit (lists.set (kit.simpleCompareKey c) rs) d
      = if kit.simpleCompareKey d = kit.simpleCompareKey c then rs else rangeLists kit lists d := by
  unfold rangeLists
  rw [StdMap.lookup_set]
  split <;> rfl

/-- Every key of the map is that of a kept category. -/
def KeysFrom (kept : Finset N) (lists : StdMap K (List (Int × Int))) : Prop :=
  ∀ k ∈ lists.keys, ∃ c ∈ kept, kit.simpleCompareKey c = k

omit [LinearOrder N] in
/-- **A loop over categories changes their range lists, each once.** -/
theorem foldlM_updateRanges {kept : Finset N} (hkept : Inequivalent kit kept)
    (g : List (Int × Int) → Option (List (Int × Int))) (xs : List N) (hxs : xs.Nodup)
    (hsub : ∀ c ∈ xs, c ∈ kept) : ∀ lists : StdMap K (List (Int × Int)),
    KeysFrom kit kept lists → (∀ c ∈ xs, (g (rangeLists kit lists c)).isSome) →
    ∃ lists', xs.foldlM (updateRanges kit g) lists = some lists' ∧ KeysFrom kit kept lists'
      ∧ (∀ c ∈ xs, g (rangeLists kit lists c) = some (rangeLists kit lists' c))
      ∧ ∀ c ∈ kept, c ∉ xs → rangeLists kit lists' c = rangeLists kit lists c := by
  induction xs with
  | nil =>
      intro lists hkeys _
      exact ⟨lists, rfl, hkeys, fun c hc => absurd hc List.not_mem_nil, fun _ _ _ => rfl⟩
  | cons x xs ih =>
      intro lists hkeys hsome
      rw [List.nodup_cons] at hxs
      have hx : x ∈ kept := hsub x List.mem_cons_self
      obtain ⟨rs, hrs⟩ := Option.isSome_iff_exists.mp (hsome x List.mem_cons_self)
      -- the lists of the other categories stay, for two categories have two keys
      have hother (c : N) (hc : c ∈ kept) (hcx : c ≠ x) :
          rangeLists kit (lists.set (kit.simpleCompareKey x) rs) c = rangeLists kit lists c := by
        rw [rangeLists_set, if_neg (fun hk => hcx (key_injective kit hkept hc hx hk))]
      have hkeys' : KeysFrom kit kept (lists.set (kit.simpleCompareKey x) rs) := by
        intro k hk
        rw [StdMap.keys_set, Finset.mem_insert] at hk
        rcases hk with rfl | hk
        · exact ⟨x, hx, rfl⟩
        · exact hkeys k hk
      have hne (c : N) (hc : c ∈ xs) : c ≠ x := fun hcx => hxs.1 (hcx ▸ hc)
      have hsub' (c : N) (hc : c ∈ xs) : c ∈ kept := hsub c (List.mem_cons_of_mem x hc)
      obtain ⟨lists', hfold, hkeys'', hdone, hrest⟩ := ih hxs.2 hsub' _ hkeys' (by
        intro c hc
        rw [hother c (hsub' c hc) (hne c hc)]
        exact hsome c (List.mem_cons_of_mem x hc))
      refine ⟨lists', ?_, hkeys'', ?_, ?_⟩
      · rw [List.foldlM_cons]
        unfold updateRanges
        rw [hrs]
        exact hfold
      · intro c hc
        -- this category is not changed again by the later turns
        rcases List.mem_cons.mp hc with rfl | hc
        · rw [hrest c hx hxs.1, rangeLists_set, if_pos rfl]
          exact hrs
        · rw [← hdone c hc, hother c (hsub' c hc) (hne c hc)]
      · intro c hc hcx
        rw [List.mem_cons, not_or] at hcx
        rw [hrest c hc hcx.2, hother c hc hcx.1]

/-- Whether `c` is a supercategory of the entry at `i`. -/
def covers (kept : Finset N) (order : List (Option N)) (c : N) (i : Nat) : Bool :=
  decide (c ∈ profile kit kept (entry order i))

/-- **The loop of `BuildRanges` before iteration `m`.** -/
structure RangesBefore (kept : Finset N) (order : List (Option N)) (m : Nat)
    (s : StdMap K (List (Int × Int)) × Finset N) : Prop where
  prev_subset : s.2 ⊆ kept
  prev : ∀ c ∈ kept, (decide (c ∈ s.2)) = valueBefore (covers kit kept order c) m
  keys : KeysFrom kit kept s.1
  progress : ∀ c ∈ kept, RunsProgress (covers kit kept order c) m (rangeLists kit s.1 c)

/-- What the two loops of an iteration do to one category. -/
theorem rangesStep_of_mem {current previous : Finset N} {c : N} (i : Int)
    (rs : List (Int × Int)) :
    rangesStep (decide (c ∈ previous)) (decide (c ∈ current)) i rs
      = if c ∈ current \ previous then some (rs ++ [(i, -1)])
        else if c ∈ previous \ current then closeLast i rs else some rs := by
  unfold rangesStep
  by_cases hc : c ∈ current <;> by_cases hp : c ∈ previous <;> simp [hc, hp]

theorem buildRangesStep_spec {kept : Finset N} {order : List (Option N)} {m : Nat}
    {s : StdMap K (List (Int × Int)) × Finset N} (h : Laced kit kept order)
    (hs : RangesBefore kit kept order m s) :
    ∃ s', buildRangesStep kit (withNull kept) order s m = some s'
      ∧ RangesBefore kit kept order (m + 1) s' := by
  obtain ⟨lists, previous⟩ := s
  have hcur := currentSupercats_eq kit kept order m
  generalize hcurrent : profile kit kept (entry order m) = current at hcur
  have hcsub : current ⊆ kept := by
    rw [← hcurrent]
    exact Finset.filter_subset _ _
  -- what each category needs done, by the step rule of the pass
  have hstep (c : N) (hc : c ∈ kept) : ∃ rs',
      (if c ∈ current \ previous then some (rangeLists kit lists c ++ [((m : Int), -1)])
        else if c ∈ previous \ current then closeLast m (rangeLists kit lists c)
        else some (rangeLists kit lists c)) = some rs'
      ∧ RunsProgress (covers kit kept order c) (m + 1) rs' := by
    obtain ⟨rs', hrs', hprog⟩ := (hs.progress c hc).step
    refine ⟨rs', ?_, hprog⟩
    rw [← rangesStep_of_mem, hs.prev c hc, ← hrs', ← hcurrent]
    rfl
  -- the two sets of categories are apart, so that the two loops do not meet
  have hbegin (c : N) (hc : c ∈ inOrder (current \ previous)) : c ∈ kept :=
    hcsub (Finset.mem_sdiff.mp (mem_inOrder.mp hc)).1
  have hend (c : N) (hc : c ∈ inOrder (previous \ current)) : c ∈ kept :=
    hs.prev_subset (Finset.mem_sdiff.mp (mem_inOrder.mp hc)).1
  have hdisjoint (c : N) (hc : c ∈ inOrder (previous \ current)) :
      c ∉ inOrder (current \ previous) := by
    rw [mem_inOrder, Finset.mem_sdiff] at hc ⊢
    exact fun hc' => hc.2 hc'.1
  obtain ⟨lists₁, hfold₁, hkeys₁, hdone₁, hrest₁⟩ := foldlM_updateRanges kit h.inequivalent
    (fun rs => some (rs ++ [((m : Int), -1)])) (inOrder (current \ previous)) (inOrder_nodup _)
    hbegin lists hs.keys (fun _ _ => rfl)
  obtain ⟨lists₂, hfold₂, hkeys₂, hdone₂, hrest₂⟩ := foldlM_updateRanges kit h.inequivalent
    (closeLast m) (inOrder (previous \ current)) (inOrder_nodup _) hend lists₁ hkeys₁ (by
      intro c hc
      obtain ⟨rs', hrs', _⟩ := hstep c (hend c hc)
      have hne := hdisjoint c hc
      rw [mem_inOrder] at hne
      rw [if_neg hne, if_pos (mem_inOrder.mp hc)] at hrs'
      rw [hrest₁ c (hend c hc) (hdisjoint c hc), hrs']
      rfl)
  refine ⟨(lists₂, current), ?_, hcsub, ?_, hkeys₂, ?_⟩
  · unfold buildRangesStep
    dsimp only
    rw [hcur, beginRange_eq, endRange_eq, hfold₁]
    show ((inOrder (previous \ current)).foldlM (updateRanges kit _) lists₁).bind _ = _
    rw [hfold₂]
    rfl
  · intro c _
    show decide (c ∈ current) = covers kit kept order c m
    rw [← hcurrent]
    rfl
  · -- a category that begins, one that ends, or neither
    intro c hc
    obtain ⟨rs', hrs', hprog⟩ := hstep c hc
    have hrs : rangeLists kit lists₂ c = rs' := by
      by_cases hb : c ∈ current \ previous
      · have hb' := mem_inOrder.mpr hb
        have hne : c ∉ inOrder (previous \ current) := fun he => hdisjoint c he hb'
        rw [if_pos hb, hdone₁ c hb'] at hrs'
        rw [hrest₂ c hc hne]
        exact Option.some.inj hrs'
      · have hb' : c ∉ inOrder (current \ previous) := fun hb' => hb (mem_inOrder.mp hb')
        rw [if_neg hb] at hrs'
        by_cases he : c ∈ previous \ current
        · rw [if_pos he, ← hrest₁ c hc hb', hdone₂ c (mem_inOrder.mpr he)] at hrs'
          exact Option.some.inj hrs'
        · rw [if_neg he] at hrs'
          rw [hrest₂ c hc (fun he' => he (mem_inOrder.mp he')), hrest₁ c hc hb']
          exact Option.some.inj hrs'
    rw [hrs]
    exact hprog

theorem foldlM_buildRangesStep {kept : Finset N} {order : List (Option N)}
    (h : Laced kit kept order) (m : Nat) :
    ∃ s, (List.range m).foldlM (buildRangesStep kit (withNull kept) order) (StdMap.empty, ∅)
        = some s ∧ RangesBefore kit kept order m s := by
  induction m with
  | zero =>
      refine ⟨(StdMap.empty, ∅), rfl, Finset.empty_subset kept, ?_, ?_, ?_⟩
      · intro c _
        simp [valueBefore]
      · intro k hk
        exact absurd hk (Finset.notMem_empty k)
      · intro c _
        exact runsProgress_zero _
  | succ m ih =>
      obtain ⟨s, hfold, hs⟩ := ih
      obtain ⟨s', hstep, hs'⟩ := buildRangesStep_spec kit h hs
      refine ⟨s', ?_, hs'⟩
      rw [List.range_succ, List.foldlM_append, hfold]
      show (buildRangesStep kit (withNull kept) order s m).bind _ = some s'
      rw [hstep]
      rfl

/-- **`BuildRanges` records, for each kept category, the runs of the entries it is a
supercategory of.** -/
theorem buildRanges_spec {kept : Finset N} {order : List (Option N)}
    (h : Laced kit kept order) :
    ∃ lists, buildRanges kit (withNull kept) order = some lists ∧ KeysFrom kit kept lists
      ∧ ∀ c ∈ kept, RunsUpTo (covers kit kept order c) (order.length + 1)
          (rangeLists kit lists c) := by
  obtain ⟨s, hfold, hs⟩ := foldlM_buildRangesStep kit h (order.length + 1)
  refine ⟨s.1, ?_, hs.keys, ?_⟩
  · unfold buildRanges
    rw [hfold]
    rfl
  · intro c hc
    apply (hs.progress c hc).runs_of_down
    -- the extra iteration: there is no entry at `ncats`
    show covers kit kept order c order.length = false
    unfold covers entry
    rw [List.getElem?_eq_none (Nat.le_refl _)]
    show decide (c ∈ profile kit kept none) = false
    rw [profile_none]
    rfl

/-! ## §3. The decision tree. -/

section Tree

variable {kit} {kept : Finset N} {order : List (Option N)}

omit [DecidableEq K] in
theorem mem_lacingSet {c : N} {i : Nat} :
    i ∈ lacingSet kit (withNull kept) order c
      ↔ i < order.length ∧ c ∈ profile kit kept (entry order i) := by
  unfold lacingSet
  rw [Finset.mem_filter, Finset.mem_range, and_congr_right_iff]
  intro hi
  unfold entry
  rw [List.getElem?_eq_getElem hi]
  simp [mem_nonstrictSupercats]

omit [DecidableEq K] in
theorem lacingSetAt_eq (h : Laced kit kept order) {c : N} (hc : c ∈ kept) :
    lacingSetAt kit (withNull kept) order c
      = some (lacingSet kit (withNull kept) order c) := by
  obtain ⟨i, hi, hget⟩ := h.exists_entry (x := some c) (by
    intro d hd
    rw [← Option.some.inj hd]
    exact hc)
  have hne : (lacingSet kit (withNull kept) order c).Nonempty := by
    refine ⟨i, mem_lacingSet.mpr ⟨hi, ?_⟩⟩
    rw [Laced.entry_eq_of_getElem hget, mem_profile_some]
    exact ⟨hc, kit.isSubcategory_refl c⟩
  unfold lacingSetAt
  rw [ASSERT_pos hne]
  rfl

/-- A category that tells some of the ordinals from the others. -/
def Splits (kit : CategoryKit N K) (kept : Finset N) (order : List (Option N))
    (possible : Finset Nat) (c : N) : Prop :=
  possible ∩ lacingSet kit (withNull kept) order c ≠ ∅
    ∧ (possible ∩ lacingSet kit (withNull kept) order c).card ≠ possible.card

omit [DecidableEq K] in
/-- Two ordinals are told apart by a category. -/
theorem exists_splits (h : Laced kit kept order) {possible : Finset Nat}
    (hsub : possible ⊆ Finset.range order.length) {i j : Nat} (hi : i ∈ possible)
    (hj : j ∈ possible) (hij : i ≠ j) : ∃ c ∈ kept, Splits kit kept order possible c := by
  have hilt := Finset.mem_range.mp (hsub hi)
  have hjlt := Finset.mem_range.mp (hsub hj)
  -- some category is in the profile of one entry and not of the other
  have hdiff : ∃ c, ¬ (c ∈ profile kit kept (entry order i)
      ↔ c ∈ profile kit kept (entry order j)) := by
    by_contra hall
    push Not at hall
    exact hij (h.profile_injective hilt hjlt (Finset.ext hall))
  have hsplit {a b : Nat} {c : N} (ha : a ∈ possible) (hb : b ∈ possible)
      (hca : c ∈ profile kit kept (entry order a))
      (hcb : c ∉ profile kit kept (entry order b)) : Splits kit kept order possible c := by
    constructor
    · have hmem : a ∈ possible ∩ lacingSet kit (withNull kept) order c :=
        Finset.mem_inter.mpr ⟨ha, mem_lacingSet.mpr ⟨Finset.mem_range.mp (hsub ha), hca⟩⟩
      intro hempty
      rw [hempty] at hmem
      exact Finset.notMem_empty a hmem
    · apply Nat.ne_of_lt
      apply Finset.card_lt_card
      refine ⟨Finset.inter_subset_left, ?_⟩
      intro hle
      exact hcb (mem_lacingSet.mp (Finset.mem_inter.mp (hle hb)).2).2
  obtain ⟨c, hc⟩ := hdiff
  by_cases hci : c ∈ profile kit kept (entry order i)
  · have hcj : c ∉ profile kit kept (entry order j) := fun hcj => hc (iff_of_true hci hcj)
    exact ⟨c, ((mem_profile kit).mp hci).1, hsplit hi hj hci hcj⟩
  · have hcj : c ∈ profile kit kept (entry order j) := by
      by_contra hcj
      exact hc (iff_of_false hci hcj)
    exact ⟨c, ((mem_profile kit).mp hcj).1, hsplit hj hi hcj hci⟩

/-- **The search for the best category so far**: what was found splits; nothing was
found only if nothing seen splits, and then any split is better. -/
structure BestSoFar (kit : CategoryKit N K) (kept : Finset N) (order : List (Option N))
    (possible : Finset Nat) (seen : List (Option N)) (best : Best N) : Prop where
  found : ∀ c inter, best.2 = some (c, inter) → c ∈ kept ∧ Splits kit kept order possible c
    ∧ inter = possible ∩ lacingSet kit (withNull kept) order c
  notFound : best.2 = none → best.1 = possible.card + 1
    ∧ ∀ c, some c ∈ seen → ¬ Splits kit kept order possible c

omit [DecidableEq K] in
theorem betterSplit_spec {possible : Finset Nat} {seen : List (Option N)} {best : Best N}
    {c : N} (hc : c ∈ kept) (hb : BestSoFar kit kept order possible seen best) :
    BestSoFar kit kept order possible (seen ++ [some c])
      (betterSplit possible best c (possible ∩ lacingSet kit (withNull kept) order c)) := by
  -- a category that is passed over
  have hkeep (hns : best.2 = none → ¬ Splits kit kept order possible c) :
      BestSoFar kit kept order possible (seen ++ [some c]) best := by
    refine ⟨hb.found, ?_⟩
    intro hnone
    refine ⟨(hb.notFound hnone).1, ?_⟩
    intro d hd
    rcases List.mem_append.mp hd with hd | hd
    · exact (hb.notFound hnone).2 d hd
    · rw [Option.some.inj (List.mem_singleton.mp hd)]
      exact hns hnone
  unfold betterSplit
  by_cases hsplit : Splits kit kept order possible c
  · rw [if_neg (not_or.mpr hsplit)]
    dsimp only
    by_cases hlt : (((possible ∩ lacingSet kit (withNull kept) order c).card : Int) * 2
        - possible.card).natAbs < best.1
    · rw [if_pos hlt]
      constructor
      · intro d inter hd
        rw [← (Prod.mk.inj (Option.some.inj hd)).1, ← (Prod.mk.inj (Option.some.inj hd)).2]
        exact ⟨hc, hsplit, rfl⟩
      · intro hnone
        simp at hnone
    · rw [if_neg hlt]
      apply hkeep
      -- the first split found is always better than nothing
      intro hnone
      exfalso
      apply hlt
      have hsub : possible ∩ lacingSet kit (withNull kept) order c ⊆ possible :=
        Finset.inter_subset_left
      have hle := Finset.card_le_card hsub
      rw [(hb.notFound hnone).1]
      omega
  · rw [if_pos (not_not.mp (fun hcon => hsplit (not_or.mp hcon)))]
    exact hkeep (fun _ => hsplit)

omit [DecidableEq K] in
theorem bestStep_spec (h : Laced kit kept order) {possible : Finset Nat}
    {seen : List (Option N)} {best : Best N} {x : Option N} (hx : ∀ c, x = some c → c ∈ kept)
    (hb : BestSoFar kit kept order possible seen best) :
    ∃ best', bestStep kit (withNull kept) order possible best x = some best'
      ∧ BestSoFar kit kept order possible (seen ++ [x]) best' := by
  cases x with
  | none =>
      refine ⟨best, rfl, hb.found, ?_⟩
      intro hnone
      refine ⟨(hb.notFound hnone).1, ?_⟩
      intro c hc
      exact (hb.notFound hnone).2 c (by simpa using hc)
  | some c =>
      refine ⟨_, ?_, betterSplit_spec (hx c rfl) hb⟩
      show (lacingSetAt kit (withNull kept) order c).bind _ = _
      rw [lacingSetAt_eq h (hx c rfl)]
      rfl

omit [DecidableEq K] in
theorem foldlM_bestStep (h : Laced kit kept order) (possible : Finset Nat)
    (xs : List (Option N)) (hxs : ∀ x ∈ xs, ∀ c, x = some c → c ∈ kept) :
    ∀ (seen : List (Option N)) (best : Best N), BestSoFar kit kept order possible seen best →
    ∃ best', xs.foldlM (bestStep kit (withNull kept) order possible) best = some best'
      ∧ BestSoFar kit kept order possible (seen ++ xs) best' := by
  induction xs with
  | nil =>
      intro seen best hb
      refine ⟨best, rfl, ?_⟩
      rw [List.append_nil]
      exact hb
  | cons x xs ih =>
      intro seen best hb
      obtain ⟨next, hstep, hnext⟩ := bestStep_spec h (hxs x List.mem_cons_self) hb
      obtain ⟨best', hfold, hb'⟩ := ih (fun y hy => hxs y (List.mem_cons_of_mem x hy))
        (seen ++ [x]) next hnext
      refine ⟨best', ?_, ?_⟩
      · rw [List.foldlM_cons, hstep]
        exact hfold
      · rw [List.append_assoc] at hb'
        exact hb'

omit [DecidableEq K] in
/-- **`ASSERT( found )` holds**: several ordinals are split by the best category. -/
theorem exists_best (h : Laced kit kept order) {possible : Finset Nat}
    (hsub : possible ⊆ Finset.range order.length) {i j : Nat} (hi : i ∈ possible)
    (hj : j ∈ possible) (hij : i ≠ j) :
    ∃ diff c, (inPtrOrder (withNull kept)).foldlM
        (bestStep kit (withNull kept) order possible) (possible.card + 1, none)
        = some (diff, some (c, possible ∩ lacingSet kit (withNull kept) order c))
      ∧ c ∈ kept ∧ Splits kit kept order possible c := by
  have hmem (x : Option N) (hx : x ∈ inPtrOrder (withNull kept)) : ∀ c, x = some c → c ∈ kept :=
    mem_withNull.mp (mem_inPtrOrder.mp hx)
  obtain ⟨best, hfold, hb⟩ := foldlM_bestStep h possible
    (inPtrOrder (withNull kept)) hmem [] (possible.card + 1, none)
    ⟨by simp, fun _ => ⟨rfl, fun _ hc => absurd hc List.not_mem_nil⟩⟩
  obtain ⟨diff, found⟩ := best
  cases found with
  | none =>
      obtain ⟨c, hc, hsplit⟩ := exists_splits h hsub hi hj hij
      have hin : some c ∈ inPtrOrder (withNull kept) := by
        rw [mem_inPtrOrder, mem_withNull]
        intro d hd
        rw [← Option.some.inj hd]
        exact hc
      exact absurd hsplit ((hb.notFound rfl).2 c hin)
  | some found =>
      obtain ⟨c, inter⟩ := found
      obtain ⟨hc, hsplit, rfl⟩ := hb.found c inter rfl
      exact ⟨diff, c, hfold, hc, hsplit⟩

/-- The range at each decision holds the ordinals below it, and is not a single one. -/
def WellRanged (kit : CategoryKit N K) : DecisionNode N → Prop
  | .leaf _ => True
  | .localMatch c yes no lo hi => lo < hi
      ∧ (∀ x, lo ≤ ordinalFrom kit (.localMatch c yes no lo hi) x
          ∧ ordinalFrom kit (.localMatch c yes no lo hi) x ≤ hi)
      ∧ WellRanged kit yes ∧ WellRanged kit no

/-- The least ordinal of a tree. -/
def lowest : DecisionNode N → Nat
  | .leaf i => i
  | .localMatch _ _ _ lo _ => lo

/-- **A tree that decides between the ordinals**: every node gets one of them, and a
node with the profile of an entry gets that entry's. -/
structure Decides (kit : CategoryKit N K) (kept : Finset N) (order : List (Option N))
    (possible : Finset Nat) (tree : DecisionNode N) : Prop where
  possible_of : ∀ x, ordinalFrom kit tree x ∈ possible
  of_profile : ∀ x, ∀ i ∈ possible, profile kit kept x = profile kit kept (entry order i) →
    ordinalFrom kit tree x = i
  ranged : WellRanged kit tree
  lowest_le : ∀ i ∈ possible, lowest tree ≤ i

omit [LinearOrder N] [DecidableEq K] in
theorem decides_leaf (i : Nat) : Decides kit kept order {i} (.leaf i) where
  possible_of _ := Finset.mem_singleton_self i
  of_profile _ _ hj _ := (Finset.mem_singleton.mp hj).symm
  ranged := trivial
  lowest_le _ hj := Nat.le_of_eq (Finset.mem_singleton.mp hj).symm

omit [LinearOrder N] [DecidableEq K] in
theorem ordinalFrom_localMatch (c : N) (yes no : DecisionNode N) (lo hi : Nat)
    (x : Option N) : ordinalFrom kit (.localMatch c yes no lo hi) x
      = if kit.localMatchWithNULL (some c) x = true then ordinalFrom kit yes x
        else ordinalFrom kit no x := rfl

omit [DecidableEq K] in
theorem Decides.localMatch {possible : Finset Nat} {c : N} {yes no : DecisionNode N}
    {lo hi : Nat} (hc : c ∈ kept) (hsub : possible ⊆ Finset.range order.length)
    (hlohi : lo < hi) (hbounds : ∀ i ∈ possible, lo ≤ i ∧ i ≤ hi)
    (hyes : Decides kit kept order (possible ∩ lacingSet kit (withNull kept) order c) yes)
    (hno : Decides kit kept order (possible \ lacingSet kit (withNull kept) order c) no) :
    Decides kit kept order possible (.localMatch c yes no lo hi) := by
  have hpossible (x : Option N) :
      ordinalFrom kit (.localMatch c yes no lo hi) x ∈ possible := by
    rw [ordinalFrom_localMatch]
    split
    · exact (Finset.mem_inter.mp (hyes.possible_of x)).1
    · exact (Finset.mem_sdiff.mp (hno.possible_of x)).1
  refine ⟨hpossible, ?_, ⟨hlohi, ?_, hyes.ranged, hno.ranged⟩, fun i hi => (hbounds i hi).1⟩
  · intro x i hi hx
    -- the test at the node asks whether the ordinal is in the lacing set
    have htest : kit.localMatchWithNULL (some c) x = true
        ↔ i ∈ lacingSet kit (withNull kept) order c := by
      rw [mem_lacingSet, ← hx, mem_profile]
      constructor
      · exact fun ht => ⟨Finset.mem_range.mp (hsub hi), hc, ht⟩
      · exact fun ht => ht.2.2
    rw [ordinalFrom_localMatch]
    split
    · next ht =>
        exact hyes.of_profile x i (Finset.mem_inter.mpr ⟨hi, htest.mp ht⟩) hx
    · next ht =>
        exact hno.of_profile x i
          (Finset.mem_sdiff.mpr ⟨hi, fun hin => ht (htest.mpr hin)⟩) hx
  · exact fun x => hbounds _ (hpossible x)

/-- The ends of a sorted list bound it. -/
theorem bounds_of_sorted {i j last : Nat} {rest : List Nat}
    (hsorted : (i :: j :: rest).Pairwise (· ≤ ·)) (hnodup : (i :: j :: rest).Nodup)
    (hlast : (i :: j :: rest).getLast? = some last) :
    i < last ∧ ∀ k ∈ i :: j :: rest, i ≤ k ∧ k ≤ last := by
  obtain ⟨init, hinit⟩ := List.getLast?_eq_some_iff.mp hlast
  have hle (k : Nat) (hk : k ∈ i :: j :: rest) : i ≤ k ∧ k ≤ last := by
    constructor
    · rcases List.mem_cons.mp hk with rfl | hk
      · exact Nat.le_refl k
      · exact (List.pairwise_cons.mp hsorted).1 k hk
    · rw [hinit] at hk hsorted
      rcases List.mem_append.mp hk with hk | hk
      · exact (List.pairwise_append.mp hsorted).2.2 k hk last (List.mem_singleton_self last)
      · rw [List.mem_singleton.mp hk]
  refine ⟨?_, hle⟩
  have hij : i ≠ j := fun hij => (List.nodup_cons.mp hnodup).1 (hij ▸ List.mem_cons_self)
  have hj := hle j (List.mem_cons_of_mem i List.mem_cons_self)
  omega

omit [DecidableEq K] in
/-- **`MakeDecisionSubtree` returns**, given as much fuel as there are ordinals, and
its tree decides between them. -/
theorem makeDecisionSubtree_spec (h : Laced kit kept order) (fuel : Nat) :
    ∀ possible : Finset Nat, possible ⊆ Finset.range order.length → possible ≠ ∅ →
    possible.card ≤ fuel →
    ∃ tree, makeDecisionSubtree kit (withNull kept) order fuel possible = some tree
      ∧ Decides kit kept order possible tree := by
  -- on the fuel; each half has fewer ordinals
  induction fuel with
  | zero =>
      intro possible _ hne hcard
      exact absurd (Finset.card_eq_zero.mp (Nat.le_zero.mp hcard)) hne
  | succ fuel ih =>
      intro possible hsub hne hcard
      unfold makeDecisionSubtree
      rw [ASSERT_pos hne]
      have hmem (i : Nat) : i ∈ inOrder possible ↔ i ∈ possible := mem_inOrder
      have hnodup := inOrder_nodup possible
      have hsorted := inOrder_pairwise possible
      generalize inOrder possible = ordinals at hmem hnodup hsorted
      match ordinals, hmem, hnodup, hsorted with
      | [], hmem, _, _ =>
          exact absurd (Finset.eq_empty_of_forall_notMem
            (fun i hi => List.not_mem_nil ((hmem i).mpr hi))) hne
      -- one ordinal left: a leaf
      | [i], hmem, _, _ =>
          have hp : possible = {i} := by
            ext j
            rw [← hmem j, List.mem_singleton, Finset.mem_singleton]
          refine ⟨.leaf i, rfl, ?_⟩
          rw [hp]
          exact decides_leaf i
      -- more: some category splits them
      | i :: j :: rest, hmem, hnodup, hsorted =>
          have hi : i ∈ possible := (hmem i).mp List.mem_cons_self
          have hj : j ∈ possible :=
            (hmem j).mp (List.mem_cons_of_mem i List.mem_cons_self)
          have hij : i ≠ j := by
            intro hij
            rw [List.nodup_cons, hij] at hnodup
            exact hnodup.1 List.mem_cons_self
          obtain ⟨diff, c, hbest, hc, hsplit⟩ := exists_best h hsub hi hj hij
          -- both halves are smaller, and neither is empty
          have hcount := Finset.card_inter_add_card_sdiff possible
            (lacingSet kit (withNull kept) order c)
          have hpos := Finset.card_pos.mpr (Finset.nonempty_iff_ne_empty.mpr hsplit.1)
          have hlt := hsplit.2
          obtain ⟨yes, hyes, hyesd⟩ := ih _ (Finset.inter_subset_left.trans hsub) hsplit.1
            (by omega)
          obtain ⟨no, hno, hnod⟩ := ih (possible \ lacingSet kit (withNull kept) order c)
            (Finset.sdiff_subset.trans hsub)
            (Finset.nonempty_iff_ne_empty.mp (Finset.card_pos.mp (by omega))) (by omega)
          have hlast := List.getLast?_eq_some_getLast (List.cons_ne_nil i (j :: rest))
          obtain ⟨hlohi, hbounds⟩ := bounds_of_sorted hsorted hnodup hlast
          refine ⟨.localMatch c yes no i _, ?_, Decides.localMatch hc hsub hlohi
            (fun k hk => hbounds k ((hmem k).mpr hk)) hyesd hnod⟩
          show ((inPtrOrder (withNull kept)).foldlM
            (bestStep kit (withNull kept) order possible) (possible.card + 1, none)).bind _ = _
          rw [hbest]
          show (lacingSetAt kit (withNull kept) order c).bind _ = _
          rw [lacingSetAt_eq h hc, Option.bind_some]
          show (makeDecisionSubtree kit (withNull kept) order fuel _).bind _ = _
          rw [hyes, Option.bind_some]
          show (makeDecisionSubtree kit (withNull kept) order fuel _).bind _ = _
          rw [hno, Option.bind_some, hlast]
          rfl

omit [DecidableEq K] [LinearOrder N] in
/-- **`TestDecisionTree` passes**: an entry has its own profile. -/
theorem testDecisionTree_spec {tree : DecisionNode N}
    (htree : Decides kit kept order (Finset.range order.length) tree) :
    testDecisionTree kit order tree = some () := by
  unfold testDecisionTree
  apply ASSERT_pos
  intro e he
  have hget := List.mem_zipIdx_iff_getElem?.mp he
  apply htree.of_profile
  · rw [Finset.mem_range]
    by_contra hlt
    rw [List.getElem?_eq_none (by omega)] at hget
    simp at hget
  · rw [Laced.entry_eq_of_getElem hget]

end Tree

/-! ## §4. `Build`. -/

/-- **What `Build` makes of the raw categories**: `kept` are those `FixupCategories`
keeps. -/
structure Built (rawCategories kept : Finset N) (lacing : Lacing N K) : Prop where
  kept_subset : kept ⊆ rawCategories
  covered : ∀ x ∈ rawCategories, ∃ y ∈ kept, kit.isEquivalentCategory x y = true
  categories_eq : lacing.categories = withNull kept
  laced : Laced kit kept lacing.catsInLacingOrder
  keys : KeysFrom kit kept lacing.catsToLacingRangeLists
  runs : ∀ c ∈ kept, RunsUpTo (covers kit kept lacing.catsInLacingOrder c)
    (lacing.catsInLacingOrder.length + 1) (rangeLists kit lacing.catsToLacingRangeLists c)
  decides : Decides kit kept lacing.catsInLacingOrder
    (Finset.range lacing.catsInLacingOrder.length) lacing.decisionTreeRoot

/-- **`Build` returns on every set of categories**, and none of its assertions fires. -/
theorem build_spec (rawCategories : Finset N) :
    ∃ kept lacing, build kit rawCategories = some lacing ∧ Built kit rawCategories kept lacing := by
  obtain ⟨kept, hfixup, hsub, hineq, hcov⟩ := fixupCategories_spec kit rawCategories
  obtain ⟨order, hsort, hperm⟩ := sort_spec kit (withNull kept)
  have hlaced : Laced kit kept order := by
    refine ⟨hineq, hperm.nodup_iff.mpr (inPtrOrder_nodup _), ?_⟩
    intro x
    rw [hperm.mem_iff, mem_inPtrOrder, mem_withNull]
  obtain ⟨lists, hlists, hkeys, hruns⟩ := buildRanges_spec kit hlaced
  have hnonempty : Finset.range order.length ≠ ∅ := by
    obtain ⟨i, hi, _⟩ := hlaced.exists_entry (x := none) (by simp)
    exact Finset.nonempty_iff_ne_empty.mp ⟨i, Finset.mem_range.mpr hi⟩
  obtain ⟨tree, htree, hdecides⟩ := makeDecisionSubtree_spec hlaced order.length
    (Finset.range order.length) (Finset.Subset.refl _) hnonempty
    (Nat.le_of_eq (Finset.card_range order.length))
  refine ⟨kept, ⟨withNull kept, order, lists, tree⟩, ?_, hsub, hcov, rfl, hlaced, hkeys, hruns,
    hdecides⟩
  unfold build
  rw [hfixup]
  show (sort kit (withNull kept)).bind _ = _
  rw [hsort, Option.bind_some]
  show (buildRanges kit (withNull kept) order).bind _ = _
  rw [hlists, Option.bind_some]
  show (makeDecisionSubtree kit (withNull kept) order order.length
    (Finset.range order.length)).bind _ = _
  rw [htree, Option.bind_some, testDecisionTree_spec hdecides]
  rfl

namespace Built

variable {kit} {rawCategories kept : Finset N} {lacing : Lacing N K}
  (h : Built kit rawCategories kept lacing)

include h

omit [DecidableEq K] in
theorem ordinal_lt (x : Option N) :
    getOrdinalForNode kit lacing x < lacing.catsInLacingOrder.length :=
  Finset.mem_range.mp (h.decides.possible_of x)

omit [DecidableEq K] in
/-- A kept category's range list holds the ordinals of the entries it covers. -/
theorem inRanges_iff {c : N} (hc : c ∈ kept) (x : Option N) :
    InRanges (rangeLists kit lacing.catsToLacingRangeLists c) (getOrdinalForNode kit lacing x)
      ↔ c ∈ profile kit kept (entry lacing.catsInLacingOrder (getOrdinalForNode kit lacing x)) := by
  have hlt := h.ordinal_lt x
  rw [← (h.runs c hc).exact_runs _ (by omega)]
  unfold covers
  exact decide_eq_true_iff

omit [DecidableEq K] in
/-- Its range list is not empty: it covers its own entry. -/
theorem rangeLists_ne_nil {c : N} (hc : c ∈ kept) :
    rangeLists kit lacing.catsToLacingRangeLists c ≠ [] := by
  obtain ⟨i, hi, hget⟩ := h.laced.exists_entry (x := some c) (by
    intro d hd
    rw [← Option.some.inj hd]
    exact hc)
  intro hnil
  have hdown := (h.runs c hc).eq_nil_iff.mp hnil i (by omega)
  have hup : covers kit kept lacing.catsInLacingOrder c i = true := by
    unfold covers
    rw [Laced.entry_eq_of_getElem hget, decide_eq_true_iff, mem_profile_some]
    exact ⟨hc, kit.isSubcategory_refl c⟩
  rw [hup] at hdown
  exact Bool.noConfusion hdown

omit [DecidableEq K] in
/-- **A category has a range list iff `SimpleCompare` does not tell it from a kept one**,
and then it is that one's. -/
theorem getRangeListForCategory_eq_some {archetype : N} {rs : List (Int × Int)} :
    getRangeListForCategory kit lacing archetype = some rs
      ↔ ∃ c ∈ kept, kit.simpleCompareKey c = kit.simpleCompareKey archetype
          ∧ rangeLists kit lacing.catsToLacingRangeLists c = rs := by
  unfold getRangeListForCategory tryGetRangeListForCategory
  cases hl : lacing.catsToLacingRangeLists.lookup (kit.simpleCompareKey archetype) with
  | none =>
      -- a category that is no key: its list is empty, and the assertion fires
      constructor
      · intro hrs
        have hfail : (ASSERT (([] : List (Int × Int)) ≠ []) >>= fun _ => some []) = some rs := hrs
        exact absurd rfl (ASSERT_bind_eq_some.mp hfail).1
      · intro hrs
        obtain ⟨c, hc, hkey, _⟩ := hrs
        apply absurd _ (h.rangeLists_ne_nil hc)
        unfold rangeLists
        rw [hkey, hl]
        rfl
  | some lrl =>
      -- a key is that of a kept category, whose list is not empty
      obtain ⟨c, hc, hkey⟩ := h.keys _ (StdMap.mem_keys_of_lookup hl)
      have hlist : rangeLists kit lacing.catsToLacingRangeLists c = lrl := by
        unfold rangeLists
        rw [hkey, hl]
        rfl
      have hne := h.rangeLists_ne_nil hc
      rw [hlist] at hne
      dsimp only
      rw [ASSERT_pos hne]
      show (ASSERT (lrl ≠ [])).bind _ = some rs ↔ _
      rw [ASSERT_pos hne]
      constructor
      · intro hrs
        exact ⟨c, hc, hkey, hlist.trans (Option.some.inj hrs)⟩
      · intro hrs
        obtain ⟨d, hd, hdkey, hdlist⟩ := hrs
        have hcd : c = d :=
          key_injective kit h.laced.inequivalent hc hd (hkey.trans hdkey.symm)
        rw [← hdlist, ← hcd, hlist]
        rfl

end Built

end Inferno.DB.Lacing
