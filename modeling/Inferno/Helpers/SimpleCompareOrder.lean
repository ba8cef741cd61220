/-
  Inferno.Helpers.SimpleCompareOrder
  ──────────────────────────────────
  When `SimpleCompare` is a total preorder, NULLs or not.

    • `compareItems_swap`, `compareItems_trans` — the early return at a NULL keeps the laws,
    • `orders_compare3Way_iff`                  — the nodes are ordered exactly if their float
                                                  literals are.
-/
import Inferno.Helpers.SimpleCompareExact

namespace Inferno.Helpers.SimpleCompare

open Inferno.Common
open Inferno.DB
open Inferno.Lib

variable {N : Type} [LinearOrder N] {t : TreeNodes N} {cmp : N → N → Int} {S T : Set N}

/-! ## §1. The loop. -/

omit [LinearOrder N] in
/-- A NULL is not above anything. -/
theorem compareItems_null_left {r : Item (Option N)} (hkind : itemKind r = 0)
    (ls rs : List (Item (Option N))) : compareItems cmp (.singular none :: ls) (r :: rs) ≤ 0 := by
  cases r with
  | singular q => cases q <;> simp [compareItems]
  | sequence _ => simp [itemKind] at hkind
  | collection _ => simp [itemKind] at hkind

omit [LinearOrder N] in
/-- Anything else is above a NULL. -/
theorem compareItems_null_right {l : Item (Option N)} (hkind : itemKind l = 0)
    (hl : l ≠ .singular none) (ls rs : List (Item (Option N))) :
    0 < compareItems cmp (l :: ls) (.singular none :: rs) := by
  cases l with
  | singular p =>
      cases p with
      | none => exact absurd rfl hl
      | some x => simp [compareItems]
  | sequence _ => simp [itemKind] at hkind
  | collection _ => simp [itemKind] at hkind

variable (h : Orders S cmp)

include h

theorem compareItems_swap {ls : List (Item (Option N))} : ∀ {rs : List (Item (Option N))},
    ls.map itemKind = rs.map itemKind → (∀ l ∈ ls, l ∈ itemsOver S) → (∀ r ∈ rs, r ∈ itemsOver S) →
    (compareItems cmp ls rs < 0 ↔ 0 < compareItems cmp rs ls) := by
  induction ls with
  | nil =>
      intro rs hkinds _ _
      have hnil : rs = [] := by simpa using hkinds.symm
      rw [hnil]
      exact Iff.rfl
  | cons l ls ih =>
      intro rs hkinds hls hrs
      cases rs with
      | nil => simp at hkinds
      | cons r rs =>
          rw [List.map_cons, List.map_cons, List.cons.injEq] at hkinds
          rw [List.forall_mem_cons] at hls hrs
          by_cases hnull : l = .singular none ∧ r = .singular none
          · obtain ⟨rfl, rfl⟩ := hnull
            exact Iff.rfl
          · rw [compareItems_cons hkinds.1 hnull,
              compareItems_cons hkinds.1.symm (fun hboth => hnull ⟨hboth.2, hboth.1⟩)]
            exact (orders_itemCompare h).thenBy_swap hls.1 hrs.1
              (fun _ => ih hkinds.2 hls.2 hrs.2)

theorem compareItems_trans {ls : List (Item (Option N))} : ∀ {ms rs : List (Item (Option N))},
    ls.map itemKind = ms.map itemKind → ms.map itemKind = rs.map itemKind →
    (∀ l ∈ ls, l ∈ itemsOver S) → (∀ m ∈ ms, m ∈ itemsOver S) → (∀ r ∈ rs, r ∈ itemsOver S) →
    compareItems cmp ls ms ≤ 0 → compareItems cmp ms rs ≤ 0 → compareItems cmp ls rs ≤ 0 := by
  induction ls with
  | nil =>
      intro ms rs _ _ _ _ _ _ _
      exact Int.le_refl 0
  | cons l ls ih =>
      intro ms rs hlm hmr hls hms hrs hle hle'
      cases ms with
      | nil => simp at hlm
      | cons m ms =>
          cases rs with
          | nil => simp at hmr
          | cons r rs =>
              rw [List.map_cons, List.map_cons, List.cons.injEq] at hlm hmr
              rw [List.forall_mem_cons] at hls hms hrs
              by_cases hl : l = .singular none
              · rw [hl] at hlm ⊢
                exact compareItems_null_left (hlm.1.trans hmr.1).symm ls rs
              · -- no NULL on the left, so none further right
                have hm : m ≠ .singular none := by
                  intro hm
                  rw [hm] at hlm hle
                  have hpos : 0 < compareItems cmp (l :: ls) (.singular none :: ms) :=
                    compareItems_null_right hlm.1 hl ls ms
                  omega
                rw [compareItems_cons hlm.1 (fun hboth => hl hboth.1)] at hle
                rw [compareItems_cons hmr.1 (fun hboth => hm hboth.1)] at hle'
                rw [compareItems_cons (hlm.1.trans hmr.1) (fun hboth => hl hboth.1)]
                apply (orders_itemCompare h).thenBy_trans hls.1 hms.1 hrs.1 ?_ hle hle'
                intro _ _
                exact ih hlm.2 hmr.2 hls.2 hms.2 hrs.2

/-! ## §2. The nodes. -/

/-- **One comparison** orders the nodes whose children are ordered. -/
theorem orders_compareWith (hfloats : Orders (literals t T) APFloat.orderCompare)
    (hT : ∀ x ∈ T, ∀ y, IsElement (t.itemise x) y → y ∈ S) :
    Orders T (compareWith t .TOTAL cmp) := by
  -- first the types, then the local values, then the items
  have htype : Orders T (fun x y => linearCompare (t.typeIndex x) (t.typeIndex y)) :=
    orders_of_key orders_linearCompare t.typeIndex (fun _ _ => Set.mem_univ _)
      (fun _ _ _ _ => rfl)
  have hitems : ∀ x ∈ T, Orders {y | y ∈ T ∧ linearCompare (t.typeIndex x) (t.typeIndex y) = 0}
      (fun y z => compareItems cmp (t.itemise y) (t.itemise z)) := by
    intro x _
    -- nodes of one type have items of the same kinds
    have hlayout {y z : N} (hy : linearCompare (t.typeIndex x) (t.typeIndex y) = 0)
        (hz : linearCompare (t.typeIndex x) (t.typeIndex z) = 0) :
        (t.itemise y).map itemKind = (t.itemise z).map itemKind :=
      t.layout y z ((linearCompare_eq_zero.mp hy).symm.trans (linearCompare_eq_zero.mp hz))
    constructor
    · intro y hy z hz
      exact compareItems_swap h (hlayout hy.2 hz.2) (itemise_over hT hy.1) (itemise_over hT hz.1)
    · intro y hy z hz w hw
      exact compareItems_trans h (hlayout hy.2 hz.2) (hlayout hz.2 hw.2) (itemise_over hT hy.1)
        (itemise_over hT hz.1) (itemise_over hT hw.1)
  have hlocal : ∀ x ∈ T, Orders {y | y ∈ T ∧ linearCompare (t.typeIndex x) (t.typeIndex y) = 0}
      (t.orderCompare3WayCovariant .TOTAL) := by
    intro x _
    refine (orders_covariant hfloats x).mono (fun y hy => ⟨hy.1, ?_⟩)
    exact t.value_kind x y (linearCompare_eq_zero.mp hy.2)
  have hlex := htype.lex (fun x hx =>
    (hlocal x hx).lex (fun y _ => (hitems x hx).mono (fun z hz => hz.1)))
  apply hlex.congr
  intro x hx y hy
  -- a node is not compared with itself, and the sizes differ only with the type
  unfold compareWith TreeNodes.orderCompare3Way
  by_cases hxy : x = y
  · rw [if_pos hxy, hxy]
    exact (hlex.refl hy).symm
  · rw [if_neg hxy]
    by_cases hzero : linearCompare (t.typeIndex x) (t.typeIndex y) = 0
    · have hlen := congrArg List.length (t.layout x y (linearCompare_eq_zero.mp hzero))
      rw [List.length_map, List.length_map] at hlen
      rw [hzero, hlen, Int.sub_self, thenBy_zero, thenBy_zero, thenBy_zero]
    · rw [thenBy_of_ne hzero, thenBy_of_ne hzero, thenBy_of_ne hzero]

omit h in
/-- **The nodes are ordered exactly if their float literals are.** -/
theorem orders_compare3Way_iff (hclosed : Closed t S) : Orders S (compare3Way t .TOTAL)
    ↔ Orders (literals t S) APFloat.orderCompare := by
  constructor
  · intro h
    refine ⟨fun a _ b _ => APFloat.orderCompare_swap a b, ?_⟩
    intro a ha b hb c hc
    obtain ⟨x, hx, hxa⟩ := ha
    obtain ⟨y, hy, hyb⟩ := hb
    obtain ⟨z, hz, hzc⟩ := hc
    rw [← compare3Way_float hxa hyb, ← compare3Way_float hyb hzc, ← compare3Way_float hxa hzc]
    exact h.trans x hx y hy z hz
  · intro hfloats
    -- by induction on the height: one comparison orders the nodes of the next height
    have hbelow : ∀ n, Orders (below t S n) (compare3Way t .TOTAL) := by
      intro n
      induction n with
      | zero =>
          have hnone : ∀ x, x ∉ below t S 0 := fun x hx => absurd hx.2 (Nat.not_lt_zero _)
          exact ⟨fun x hx => absurd hx (hnone x), fun x hx => absurd hx (hnone x)⟩
      | succ n ih =>
          have hT : ∀ x ∈ below t S (n + 1), ∀ y, IsElement (t.itemise x) y →
              y ∈ below t S n := by
            intro x hx y hy
            have hlow := height_of_isElement t hy
            have hbound := hx.2
            exact ⟨hclosed x hx.1 y hy, by omega⟩
          have hlits : literals t (below t S (n + 1)) ⊆ literals t S :=
            fun f ⟨x, hx, hf⟩ => ⟨x, hx.1, hf⟩
          exact (orders_compareWith ih (hfloats.mono hlits) hT).congr
            (fun x _ y _ => compare3Way_eq t .TOTAL x y)
    have hlow {x : N} (hx : x ∈ S) {n : Nat} (hn : t.height x < n) : x ∈ below t S n := ⟨hx, hn⟩
    constructor
    · intro x hx y hy
      exact (hbelow (max (t.height x) (t.height y) + 1)).swap x (hlow hx (by omega)) y
        (hlow hy (by omega))
    · intro x hx y hy z hz
      exact (hbelow (max (t.height x) (max (t.height y) (t.height z)) + 1)).trans x
        (hlow hx (by omega)) y (hlow hy (by omega)) z (hlow hz (by omega))

end Inferno.Helpers.SimpleCompare
