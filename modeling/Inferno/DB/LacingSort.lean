/-
  Inferno.DB.LacingSort
  ─────────────────────
  The first two phases of `Lacing::Build` run to their ends.

    • `fixupCategories_spec` — one category of each equivalence class stays, and the
                               assertions on the node ordering hold,
    • `getMetric_eq`         — `GetMetric` is the junction of two entries,
    • `swapMetrics_segments` — the metrics it compares are the junctions at the ends of
                               the two blocks,
    • `sortStep_spec`, `sort_spec` — the reduction is the expected one, every pass that
                               swaps lowers the total, the result is a permutation.
-/
import Inferno.DB.Lacing

namespace Inferno.DB.Lacing

open Inferno.Common
open Inferno.Lib

variable {N K : Type} [LinearOrder N] (kit : CategoryKit N K)

/-! ## §1. Equivalent categories. -/

omit [LinearOrder N] in
theorem isEquivalentCategory_iff {x y : N} : kit.isEquivalentCategory x y = true ↔
    kit.isSubcategory x y = true ∧ kit.isSubcategory y x = true := by
  unfold CategoryKit.isEquivalentCategory
  exact Bool.and_eq_true_iff

omit [LinearOrder N] in
theorem isEquivalentCategory_refl (x : N) : kit.isEquivalentCategory x x = true := by
  rw [isEquivalentCategory_iff]
  exact ⟨kit.isSubcategory_refl x, kit.isSubcategory_refl x⟩

omit [LinearOrder N] in
theorem isEquivalentCategory_comm (x y : N) :
    kit.isEquivalentCategory x y = kit.isEquivalentCategory y x := by
  unfold CategoryKit.isEquivalentCategory
  exact Bool.and_comm _ _

omit [LinearOrder N] in
theorem isEquivalentCategory_trans {x y z : N} (hxy : kit.isEquivalentCategory x y = true)
    (hyz : kit.isEquivalentCategory y z = true) : kit.isEquivalentCategory x z = true := by
  rw [isEquivalentCategory_iff] at hxy hyz ⊢
  exact ⟨kit.isSubcategory_trans x y z hxy.1 hyz.1, kit.isSubcategory_trans z y x hyz.2 hxy.2⟩

omit [LinearOrder N] in
theorem isEquivalentCategory_of_orderCompare {p : OrderProperty} {x y : N}
    (h : kit.orderCompare3Way p x y = 0) : kit.isEquivalentCategory x y = true := by
  rw [isEquivalentCategory_iff]
  exact kit.isSubcategory_of_orderCompare p x y h

omit [LinearOrder N] in
/-- Nodes that `SimpleCompare` does not tell apart are of equivalent categories. -/
theorem isEquivalentCategory_of_key {x y : N}
    (h : kit.simpleCompareKey x = kit.simpleCompareKey y) :
    kit.isEquivalentCategory x y = true :=
  isEquivalentCategory_of_orderCompare kit (kit.orderCompare_of_key x y h)

omit [LinearOrder N] in
/-- Equivalent categories have the same subcategories. -/
theorem isSubcategory_congr {x y : N} (h : kit.isEquivalentCategory x y = true) (z : N) :
    kit.isSubcategory x z = kit.isSubcategory y z := by
  rw [isEquivalentCategory_iff] at h
  rw [Bool.eq_iff_iff]
  constructor
  · exact fun hz => kit.isSubcategory_trans y x z h.2 hz
  · exact fun hz => kit.isSubcategory_trans x y z h.1 hz

/-- No two categories of the set are equivalent. -/
def Inequivalent (categories : Finset N) : Prop :=
  ∀ x ∈ categories, ∀ y ∈ categories, kit.isEquivalentCategory x y = true → x = y

/-! ## §2. `FixupCategories`. -/

omit [LinearOrder N] in
theorem foldlM_isUnique (x : N) (ys : List N) : ∀ unique : Bool,
    ys.foldlM (isUnique kit x) unique
      = some (unique && ys.all (fun y => !kit.isEquivalentCategory x y)) := by
  induction ys with
  | nil => intro unique; simp
  | cons y ys ih =>
      intro unique
      rw [List.foldlM_cons, List.all_cons]
      unfold isUnique
      cases hxy : kit.isEquivalentCategory x y with
      | true =>
          rw [if_pos rfl]
          show ys.foldlM (isUnique kit x) false = _
          rw [ih]
          simp
      | false =>
          -- the assertions: a zero comparison would make the two equivalent
          have hne : ∀ p, kit.orderCompare3Way p x y ≠ 0 := by
            intro p h0
            rw [isEquivalentCategory_of_orderCompare kit h0] at hxy
            exact Bool.noConfusion hxy
          rw [if_neg (by simp), ASSERT_pos (hne _), ASSERT_pos (hne _)]
          show ys.foldlM (isUnique kit x) unique = _
          rw [ih]
          simp

theorem fixupCategory_eq (categories : Finset N) (x : N) :
    fixupCategory kit categories x = some
      (if ∀ y ∈ categories, kit.isEquivalentCategory x y = false then insert x categories
        else categories) := by
  unfold fixupCategory
  rw [foldlM_isUnique]
  simp

/-- What the outer loop has done to the categories it started from. -/
structure FixedUp (xs : List N) (categories result : Finset N) : Prop where
  subset : categories ⊆ result
  only : ∀ y ∈ result, y ∈ categories ∨ y ∈ xs
  inequivalent : Inequivalent kit categories → Inequivalent kit result
  covered : ∀ x ∈ xs, ∃ y ∈ result, kit.isEquivalentCategory x y = true

theorem Inequivalent.insert {categories : Finset N} {x : N} (h : Inequivalent kit categories)
    (hx : ∀ y ∈ categories, kit.isEquivalentCategory x y = false) :
    Inequivalent kit (insert x categories) := by
  intro a ha b hb hab
  rw [Finset.mem_insert] at ha hb
  rcases ha with rfl | ha <;> rcases hb with rfl | hb
  · rfl
  · rw [hx b hb] at hab
    exact Bool.noConfusion hab
  · rw [isEquivalentCategory_comm, hx a ha] at hab
    exact Bool.noConfusion hab
  · exact h a ha b hb hab

theorem foldlM_fixupCategory (xs : List N) : ∀ categories : Finset N,
    ∃ result, xs.foldlM (fixupCategory kit) categories = some result
      ∧ FixedUp kit xs categories result := by
  induction xs with
  | nil =>
      intro categories
      exact ⟨categories, rfl, Finset.Subset.refl _, fun y hy => Or.inl hy, id,
        fun x hx => absurd hx List.not_mem_nil⟩
  | cons x xs ih =>
      intro categories
      rw [List.foldlM_cons, fixupCategory_eq]
      by_cases hx : ∀ y ∈ categories, kit.isEquivalentCategory x y = false
      · -- a category with no equivalent one: it is inserted
        rw [if_pos hx]
        obtain ⟨result, hr, hf⟩ := ih (insert x categories)
        refine ⟨result, hr, ?_, ?_, ?_, ?_⟩
        · exact (Finset.subset_insert x categories).trans hf.subset
        · intro y hy
          rcases hf.only y hy with hy | hy
          · rcases Finset.mem_insert.mp hy with rfl | hy
            · exact Or.inr List.mem_cons_self
            · exact Or.inl hy
          · exact Or.inr (List.mem_cons_of_mem _ hy)
        · exact fun h => hf.inequivalent (h.insert kit hx)
        · intro z hz
          rcases List.mem_cons.mp hz with rfl | hz
          · exact ⟨z, hf.subset (Finset.mem_insert_self z categories),
              isEquivalentCategory_refl kit z⟩
          · exact hf.covered z hz
      · rw [if_neg hx]
        -- one that is equivalent to a category there: passed over, and covered by that one
        obtain ⟨result, hr, hf⟩ := ih categories
        refine ⟨result, hr, hf.subset, ?_, hf.inequivalent, ?_⟩
        · intro y hy
          rcases hf.only y hy with hy | hy
          · exact Or.inl hy
          · exact Or.inr (List.mem_cons_of_mem _ hy)
        · intro z hz
          rcases List.mem_cons.mp hz with rfl | hz
          · push Not at hx
            obtain ⟨y, hy, hzy⟩ := hx
            exact ⟨y, hf.subset hy, by simpa using hzy⟩
          · exact hf.covered z hz

/-- **`FixupCategories` keeps one category of each class**, and adds the null
pointer. -/
theorem fixupCategories_spec (rawCategories : Finset N) :
    ∃ kept : Finset N,
      fixupCategories kit rawCategories
        = some (insert none (kept.map Function.Embedding.some))
      ∧ kept ⊆ rawCategories ∧ Inequivalent kit kept
      ∧ ∀ x ∈ rawCategories, ∃ y ∈ kept, kit.isEquivalentCategory x y = true := by
  obtain ⟨kept, hr, hf⟩ := foldlM_fixupCategory kit (inOrder rawCategories) ∅
  refine ⟨kept, ?_, ?_, ?_, ?_⟩
  · unfold fixupCategories
    rw [hr]
    rfl
  · intro y hy
    rcases hf.only y hy with hy | hy
    · exact absurd hy (Finset.notMem_empty y)
    · exact mem_inOrder.mp hy
  · apply hf.inequivalent
    intro x hx
    exact absurd hx (Finset.notMem_empty x)
  · exact fun x hx => hf.covered x (mem_inOrder.mpr hx)

theorem mem_inPtrOrder {s : Finset (Option N)} {x : Option N} : x ∈ inPtrOrder s ↔ x ∈ s := by
  unfold inPtrOrder
  cases x with
  | none => by_cases h : none ∈ s <;> simp [h]
  | some x => by_cases h : none ∈ s <;> simp [h]

theorem inPtrOrder_nodup (s : Finset (Option N)) : (inPtrOrder s).Nodup := by
  unfold inPtrOrder
  have hsome : ((inOrder s.eraseNone).map some).Nodup :=
    (inOrder_nodup s.eraseNone).map (Option.some_injective N)
  split
  · rw [List.singleton_append, List.nodup_cons]
    exact ⟨by simp, hsome⟩
  · exact hsome

/-! ## §3. The metric of an order. -/

section Sorting

variable (categories : Finset (Option N))

theorem metric_comm (pa qa : Option N) :
    metric kit categories pa qa = metric kit categories qa pa := by
  unfold metric
  rw [symmDiff_comm]

theorem getMetric_eq {order : List (Option N)} {p q : Int} (hpq : p ≠ q) :
    getMetric kit categories order p q
      = some (junction (metric kit categories) (entryAt order p) (entryAt order q)) := by
  unfold getMetric
  cases entryAt order p with
  | none => simp
  | some pa =>
      cases entryAt order q with
      | none => simp
      | some qa => simp [ASSERT_pos hpq, junction]

omit [LinearOrder N] in
theorem entryAt_nat (order : List (Option N)) (k : Nat) : entryAt order k = order[k]? := by
  unfold entryAt
  rw [if_neg (by omega), Int.toNat_natCast]

omit [LinearOrder N] in
/-- The entry where a second part starts. -/
theorem entryAt_append_head {a b : List (Option N)} {p : Int} (hp : p = a.length) :
    entryAt (a ++ b) p = b.head? := by
  rw [hp, entryAt_nat, List.getElem?_append_right (Nat.le_refl _), Nat.sub_self,
    List.head?_eq_getElem?]

omit [LinearOrder N] in
/-- The entry where a first part ends. -/
theorem entryAt_append_last {a b : List (Option N)} {p : Int} (hp : p = a.length - 1) :
    entryAt (a ++ b) p = a.getLast? := by
  unfold entryAt
  cases ha : a.length with
  | zero =>
      rw [if_pos (by omega), List.length_eq_zero_iff.mp ha]
      rfl
  | succ n =>
      rw [if_neg (by omega), List.getElem?_append_left (by omega), List.getLast?_eq_getElem?]
      congr 1
      omega

theorem foldlM_add (f : Nat → Option Nat) (g : Nat → Nat) (ks : List Nat)
    (h : ∀ k ∈ ks, f k = some (g k)) : ∀ tot : Nat,
    ks.foldlM (fun tot k => (f k).map (tot + ·)) tot = some (tot + (ks.map g).sum) := by
  induction ks with
  | nil => intro tot; rfl
  | cons k ks ih =>
      intro tot
      rw [List.foldlM_cons, h k List.mem_cons_self]
      show ks.foldlM _ (tot + g k) = _
      rw [ih (fun x hx => h x (List.mem_cons_of_mem _ hx)), List.map_cons, List.sum_cons,
        Nat.add_assoc]

/-- **The total is the weight of the order as a path.** -/
theorem totalMetric_eq (order : List (Option N)) :
    totalMetric kit categories order = some (pathWeight (metric kit categories) order) := by
  unfold totalMetric
  rw [foldlM_add _ (fun k => junction (metric kit categories) order[k]? order[k + 1]?)]
  · rw [Nat.zero_add, pathWeight_eq_sum]
    rfl
  · intro k _
    rw [getMetric_eq kit categories (by omega), entryAt_nat]
    have hk : ((k : Int) + 1) = ((k + 1 : Nat) : Int) := by omega
    rw [hk, entryAt_nat]

/-! ## §4. One exchange. -/

/-- An order cut at two blocks of `bs` entries, the first at `j`, the second at `i`. -/
structure Segments (N : Type) (bs i j : Nat) where
  before : List (Option N)
  js : List (Option N)
  between : List (Option N)
  is : List (Option N)
  after : List (Option N)
  length_before : before.length = j
  length_js : js.length = bs
  length_between : between.length = i - (j + bs)
  length_is : is.length = bs

namespace Segments

variable {bs i j : Nat} (s : Segments N bs i j)

/-- The order that was cut. -/
def whole : List (Option N) := s.before ++ s.js ++ s.between ++ s.is ++ s.after

/-- The blocks exchanged. -/
def swapped : List (Option N) := s.before ++ s.is ++ s.between ++ s.js ++ s.after

omit [LinearOrder N] in
theorem exists_whole {order : List (Option N)} (hj : j + bs ≤ i)
    (hi : i + bs ≤ order.length) : ∃ s : Segments N bs i j, order = s.whole := by
  have hcut (l : List (Option N)) (n : Nat) (hn : n ≤ l.length) :
      ∃ a b, l = a ++ b ∧ a.length = n :=
    ⟨l.take n, l.drop n, (List.take_append_drop n l).symm, List.length_take_of_le hn⟩
  obtain ⟨before, rest, rfl, hb⟩ := hcut order j (by omega)
  rw [List.length_append] at hi
  obtain ⟨js, rest, rfl, hjs⟩ := hcut rest bs (by omega)
  rw [List.length_append] at hi
  obtain ⟨between, rest, rfl, hm⟩ := hcut rest (i - (j + bs)) (by omega)
  rw [List.length_append] at hi
  obtain ⟨is, after, rfl, his⟩ := hcut rest bs (by omega)
  exact ⟨⟨before, js, between, is, after, hb, hjs, hm, his⟩, by simp [whole]⟩

/-- The junctions that an exchange breaks. -/
def broken (w : Option N → Option N → Nat) : Nat :=
  junction w s.before.getLast? s.js.head? + junction w s.is.getLast? s.after.head?
    + if s.between = [] then junction w s.js.getLast? s.is.head?
      else junction w s.js.getLast? s.between.head? + junction w s.between.getLast? s.is.head?

/-- The junctions that an exchange makes. -/
def made (w : Option N → Option N → Nat) : Nat :=
  junction w s.before.getLast? s.is.head? + junction w s.js.getLast? s.after.head?
    + if s.between = [] then junction w s.is.getLast? s.js.head?
      else junction w s.is.getLast? s.between.head? + junction w s.between.getLast? s.js.head?

omit [LinearOrder N] in
theorem js_ne_nil (hbs : 1 ≤ bs) : s.js ≠ [] := by
  intro h
  have hl := s.length_js
  rw [h, List.length_nil] at hl
  omega

omit [LinearOrder N] in
theorem is_ne_nil (hbs : 1 ≤ bs) : s.is ≠ [] := by
  intro h
  have hl := s.length_is
  rw [h, List.length_nil] at hl
  omega

theorem swapped_perm : s.swapped.Perm s.whole := by
  unfold swapped whole
  rw [List.perm_iff_count]
  intro x
  simp only [List.count_append]
  omega

omit [LinearOrder N] in
theorem swapBlocks_eq (hj : j + bs ≤ i) : swapBlocks bs i j s.whole = some s.swapped := by
  have h := swapBlocks_append s.js s.is s.before s.between s.after
    (s.length_is.trans s.length_js.symm)
  rw [s.length_js, s.length_before, s.length_between] at h
  have hi : j + bs + (i - (j + bs)) = i := by omega
  rw [hi] at h
  exact h

omit [LinearOrder N] in
theorem pathWeight_swapped (hbs : 1 ≤ bs) (w : Option N → Option N → Nat) :
    pathWeight w s.whole + s.made w = pathWeight w s.swapped + s.broken w :=
  pathWeight_exchange w s.before s.js s.between s.is s.after (s.js_ne_nil hbs)
    (s.is_ne_nil hbs)

/-! The entries that `Sort` looks at are the ends of the segments. -/

omit [LinearOrder N] in
theorem entryAt_beforeLast : entryAt s.whole ((j : Int) - 1) = s.before.getLast? := by
  unfold whole
  rw [List.append_assoc, List.append_assoc, List.append_assoc]
  exact entryAt_append_last (by rw [s.length_before])

omit [LinearOrder N] in
theorem entryAt_jsHead (hbs : 1 ≤ bs) : entryAt s.whole (j : Int) = s.js.head? := by
  unfold whole
  rw [List.append_assoc, List.append_assoc, List.append_assoc,
    entryAt_append_head (by rw [s.length_before]),
    List.head?_append_of_ne_nil _ (s.js_ne_nil hbs)]

omit [LinearOrder N] in
theorem entryAt_jsLast (hbs : 1 ≤ bs) :
    entryAt s.whole ((j : Int) + bs - 1) = s.js.getLast? := by
  have hp : (j : Int) + bs - 1 = (s.before ++ s.js).length - 1 := by
    rw [List.length_append, s.length_before, s.length_js]
    omega
  unfold whole
  rw [List.append_assoc, List.append_assoc, entryAt_append_last hp,
    List.getLast?_append_of_ne_nil _ (s.js_ne_nil hbs)]

omit [LinearOrder N] in
theorem entryAt_betweenHead (hm : s.between ≠ []) :
    entryAt s.whole ((j : Int) + bs) = s.between.head? := by
  have hp : (j : Int) + bs = (s.before ++ s.js).length := by
    rw [List.length_append, s.length_before, s.length_js]
    omega
  unfold whole
  rw [List.append_assoc, List.append_assoc, entryAt_append_head hp,
    List.head?_append_of_ne_nil _ hm]

omit [LinearOrder N] in
theorem length_toBetween (hj : j + bs ≤ i) : (s.before ++ s.js ++ s.between).length = i := by
  rw [List.length_append, List.length_append, s.length_before, s.length_js, s.length_between]
  omega

omit [LinearOrder N] in
theorem entryAt_betweenLast (hj : j + bs ≤ i) (hm : s.between ≠ []) :
    entryAt s.whole ((i : Int) - 1) = s.between.getLast? := by
  have hp : (i : Int) - 1 = (s.before ++ s.js ++ s.between).length - 1 := by
    rw [s.length_toBetween hj]
  unfold whole
  rw [List.append_assoc, entryAt_append_last hp, List.getLast?_append_of_ne_nil _ hm]

omit [LinearOrder N] in
theorem entryAt_isHead (hbs : 1 ≤ bs) (hj : j + bs ≤ i) :
    entryAt s.whole (i : Int) = s.is.head? := by
  have hp : (i : Int) = (s.before ++ s.js ++ s.between).length := by
    rw [s.length_toBetween hj]
  unfold whole
  rw [List.append_assoc, entryAt_append_head hp,
    List.head?_append_of_ne_nil _ (s.is_ne_nil hbs)]

omit [LinearOrder N] in
theorem length_toIs (hj : j + bs ≤ i) :
    (s.before ++ s.js ++ s.between ++ s.is).length = i + bs := by
  rw [List.length_append, s.length_toBetween hj, s.length_is]

omit [LinearOrder N] in
theorem entryAt_isLast (hbs : 1 ≤ bs) (hj : j + bs ≤ i) :
    entryAt s.whole ((i : Int) + bs - 1) = s.is.getLast? := by
  have hp : (i : Int) + bs - 1 = (s.before ++ s.js ++ s.between ++ s.is).length - 1 := by
    rw [s.length_toIs hj]
    omega
  unfold whole
  rw [entryAt_append_last hp, List.getLast?_append_of_ne_nil _ (s.is_ne_nil hbs)]

omit [LinearOrder N] in
theorem entryAt_afterHead (hj : j + bs ≤ i) :
    entryAt s.whole ((i : Int) + bs) = s.after.head? := by
  have hp : (i : Int) + bs = (s.before ++ s.js ++ s.between ++ s.is).length := by
    rw [s.length_toIs hj]
    omega
  unfold whole
  exact entryAt_append_head hp

theorem outerMetrics_eq (hbs : 1 ≤ bs) (hj : j + bs ≤ i) :
    outerMetrics kit categories s.whole bs i j
      = some (junction (metric kit categories) s.before.getLast? s.js.head?
            + junction (metric kit categories) s.is.getLast? s.after.head?,
          junction (metric kit categories) s.before.getLast? s.is.head?
            + junction (metric kit categories) s.js.getLast? s.after.head?) := by
  have hcomm := junction_comm (metric kit categories) (metric_comm kit categories)
  unfold outerMetrics
  split
  · rw [getMetric_eq kit categories (by omega), getMetric_eq kit categories (by omega),
      getMetric_eq kit categories (by omega), getMetric_eq kit categories (by omega),
      s.entryAt_isLast hbs hj, s.entryAt_afterHead hj, s.entryAt_jsHead hbs,
      s.entryAt_beforeLast, s.entryAt_isHead hbs hj, s.entryAt_jsLast hbs,
      hcomm s.js.head?, hcomm s.is.head?]
    show some (_, _) = some (_, _)
    rw [Nat.add_comm (junction _ s.is.getLast? s.after.head?)]
  · next hend =>
      -- the blocks are at the two ends of the order: no neighbours outside
      have hlen : s.whole.length = i + bs + s.after.length := by
        unfold whole
        rw [List.length_append, s.length_toIs hj]
      have hb : s.before = [] := List.length_eq_zero_iff.mp (by rw [s.length_before]; omega)
      have ha : s.after = [] := List.length_eq_zero_iff.mp (by omega)
      rw [hb, ha]
      simp

theorem innerMetrics_eq (hbs : 1 ≤ bs) (hj : j + bs ≤ i) :
    innerMetrics kit categories s.whole bs i j
      = some (if s.between = [] then
            junction (metric kit categories) s.js.getLast? s.is.head?
          else junction (metric kit categories) s.js.getLast? s.between.head?
            + junction (metric kit categories) s.between.getLast? s.is.head?,
          if s.between = [] then
            junction (metric kit categories) s.is.getLast? s.js.head?
          else junction (metric kit categories) s.is.getLast? s.between.head?
            + junction (metric kit categories) s.between.getLast? s.js.head?) := by
  have hcomm := junction_comm (metric kit categories) (metric_comm kit categories)
  have hl := s.length_between
  unfold innerMetrics
  split
  · -- with something between the blocks, there are four junctions
    next hgap =>
      have hm : s.between ≠ [] := by
        intro hm
        rw [hm, List.length_nil] at hl
        omega
      rw [getMetric_eq kit categories (by omega), getMetric_eq kit categories (by omega),
        getMetric_eq kit categories (by omega), getMetric_eq kit categories (by omega),
        s.entryAt_isHead hbs hj, s.entryAt_betweenLast hj hm, s.entryAt_jsLast hbs,
        s.entryAt_betweenHead hm, s.entryAt_isLast hbs hj, s.entryAt_jsHead hbs,
        hcomm s.is.head?, hcomm s.js.head?, if_neg hm, if_neg hm]
      show some (_, _) = some (_, _)
      rw [Nat.add_comm (junction _ s.between.getLast? s.is.head?)]
  · -- blocks that touch have one junction, before the swap and after it
    next htouch =>
      have hm : s.between = [] := List.length_eq_zero_iff.mp (by omega)
      rw [getMetric_eq kit categories (by omega), getMetric_eq kit categories (by omega),
        s.entryAt_jsLast hbs, s.entryAt_isHead hbs hj, s.entryAt_isLast hbs hj,
        s.entryAt_jsHead hbs, if_pos hm, if_pos hm]
      rfl

/-- **`curr_metric` and `metric_if_swapped`** are the junctions an exchange breaks and
those it makes. -/
theorem swapMetrics_eq (hbs : 1 ≤ bs) (hj : j + bs ≤ i) :
    swapMetrics kit categories s.whole bs i j
      = some (s.broken (metric kit categories), s.made (metric kit categories)) := by
  unfold swapMetrics
  rw [s.outerMetrics_eq kit categories hbs hj, s.innerMetrics_eq kit categories hbs hj]
  rfl

end Segments

/-! ## §5. `Sort`. -/

/-- The total metric of an order. -/
def weightOf (order : List (Option N)) : Nat := pathWeight (metric kit categories) order

/-- What the body of the loops may do: nothing, or exchange two blocks, lower the total
and set `swapped`. -/
structure Improves (s s' : List (Option N) × Bool) : Prop where
  perm : s'.1.Perm s.1
  improved : s' = s ∨ (s'.2 = true ∧ weightOf kit categories s'.1 < weightOf kit categories s.1)

theorem Improves.refl (s : List (Option N) × Bool) : Improves kit categories s s :=
  ⟨List.Perm.refl s.1, Or.inl rfl⟩

theorem Improves.trans {s t u : List (Option N) × Bool} (h : Improves kit categories s t)
    (h' : Improves kit categories t u) : Improves kit categories s u where
  perm := h'.perm.trans h.perm
  improved := by
    rcases h'.improved with rfl | ⟨hu, hlt'⟩
    · exact h.improved
    · rcases h.improved with rfl | ⟨_, hlt⟩
      · exact Or.inr ⟨hu, hlt'⟩
      · exact Or.inr ⟨hu, hlt'.trans hlt⟩

/-- **One turn of the inner loop**: its assertions hold. -/
theorem sortStep_spec {order : List (Option N)} (swapped : Bool) {bs i j : Nat}
    (hbs : 1 ≤ bs) (hj : j + bs ≤ i) (hi : i + bs ≤ order.length) :
    ∃ s', sortStep kit categories (order, swapped) (bs, i, j) = some s'
      ∧ Improves kit categories (order, swapped) s' := by
  obtain ⟨seg, rfl⟩ := Segments.exists_whole hj hi
  unfold sortStep
  show ∃ s', (swapMetrics kit categories seg.whole bs i j).bind _ = some s' ∧ _
  rw [seg.swapMetrics_eq kit categories hbs hj, Option.bind_some]
  by_cases hlt : seg.made (metric kit categories) < seg.broken (metric kit categories)
  · have hweight := seg.pathWeight_swapped hbs (metric kit categories)
    refine ⟨(seg.swapped, true), ?_, seg.swapped_perm, Or.inr ⟨rfl, ?_⟩⟩
    · rw [if_pos hlt, totalMetric_eq, seg.swapBlocks_eq hj]
      show (totalMetric kit categories seg.swapped).bind _ = _
      rw [totalMetric_eq, Option.bind_some]
      dsimp only
      rw [ASSERT_pos (by omega)]
      rfl
    · show pathWeight (metric kit categories) seg.swapped
        < pathWeight (metric kit categories) seg.whole
      omega
  · refine ⟨(seg.whole, swapped), ?_, Improves.refl kit categories _⟩
    rw [if_neg hlt]

theorem mem_blockSwaps {n bs i j : Nat} (h : (bs, i, j) ∈ blockSwaps n) :
    1 ≤ bs ∧ j + bs ≤ i ∧ i + bs ≤ n := by
  unfold blockSwaps at h
  simp only [List.mem_flatMap, List.mem_map, List.mem_range, List.mem_reverse,
    Prod.mk.injEq] at h
  obtain ⟨b, _, i', hi, j', hj, rfl, rfl, rfl⟩ := h
  omega

theorem foldlM_sortStep {n : Nat} (bijs : List (Nat × Nat × Nat))
    (h : ∀ b ∈ bijs, b ∈ blockSwaps n) : ∀ s : List (Option N) × Bool, s.1.length = n →
    ∃ s', bijs.foldlM (sortStep kit categories) s = some s' ∧ Improves kit categories s s' := by
  induction bijs with
  | nil =>
      intro s _
      exact ⟨s, rfl, Improves.refl kit categories s⟩
  | cons b bijs ih =>
      intro s hs
      obtain ⟨bs, i, j⟩ := b
      obtain ⟨hbs, hj, hi⟩ := mem_blockSwaps (h _ List.mem_cons_self)
      obtain ⟨t, ht, hst⟩ := sortStep_spec kit categories s.2 hbs hj (hs ▸ hi)
      obtain ⟨u, hu, htu⟩ := ih (fun x hx => h x (List.mem_cons_of_mem _ hx)) t
        (hst.perm.length_eq.trans hs)
      refine ⟨u, ?_, hst.trans kit categories htu⟩
      rw [List.foldlM_cons, ht]
      exact hu

/-- **Every pass that swaps lowers the total**, so a fuel above it is enough. -/
theorem sortLoop_spec (fuel : Nat) : ∀ order : List (Option N),
    weightOf kit categories order < fuel →
    ∃ order', sortLoop kit categories fuel order = some order' ∧ order'.Perm order := by
  induction fuel with
  | zero => intro order h; exact absurd h (Nat.not_lt_zero _)
  | succ fuel ih =>
      intro order h
      obtain ⟨⟨next, swapped⟩, hpass, himp⟩ := foldlM_sortStep kit categories
        (blockSwaps order.length) (fun _ hb => hb) (order, false) rfl
      unfold sortLoop sortPass
      rw [hpass]
      cases swapped with
      | false => exact ⟨next, rfl, himp.perm⟩
      | true =>
          rcases himp.improved with heq | ⟨_, hlt⟩
          · simp at heq
          · obtain ⟨order', hrun, hperm⟩ := ih next (by simp only at hlt; omega)
            exact ⟨order', hrun, hperm.trans himp.perm⟩

/-- **`Sort` terminates with a permutation of the categories**, and no assertion of it
fires. -/
theorem sort_spec :
    ∃ order, sort kit categories = some order ∧ order.Perm (inPtrOrder categories) := by
  unfold sort
  show ∃ order, (totalMetric kit categories (inPtrOrder categories)).bind _ = some order ∧ _
  rw [totalMetric_eq]
  exact sortLoop_spec kit categories _ _ (Nat.lt_succ_self _)

end Sorting

end Inferno.DB.Lacing
