/-
  Inferno.DB.ZoneRoundTrip
  ────────────────────────
  A zone is duplicated, and the subtrees at its terminii merged into the duplicate.

    • `duplicateSubtrees` — the duplicates of the subtrees at the terminii,
    • `fill`, `mergeAll_fill` — merging whole subtrees fills the placeholders,
    • `TerminiiInOrder`   — the duplicate's terminii stand where those of the zone stood,
    • `RoundTrips`        — duplicated and merged, the tree is as it was,
    • `roundTrip_exact`   — the zones that round trip; and what a container does to a
                            placeholder.
-/
import Inferno.DB.ContainerMerge
import Inferno.DB.HeapCompare

namespace Inferno.DB

open Inferno.Common Inferno.Helpers Update TreeHeap

/-! ## §1. Subtrees. -/

/-- `CreateSubtree( terminus, ordinal ).Duplicate()` for each terminus. -/
def duplicateSubtrees (ordinal : Int) : List Nat → Update (List FreeZone)
  | [] => return []
  | t :: ts => do
      let zone ← TreeZone.make t [] ordinal
      let freeZone ← zone.duplicate
      return freeZone :: (← duplicateSubtrees ordinal ts)

/-- A free zone that goes all the way to leaves. -/
def FreeZone.subtree (base : Nat) : FreeZone := ⟨some base, []⟩

variable {h₀ h h' h'' : TreeHeap} {k n : Nat} {z : TreeZone}

/-- The duplicates are of the subtrees, as long as they are kept. -/
theorem duplicateSubtrees_spec {ts : List Nat} {ordinal : Int}
    (hts : ∀ t ∈ ts, ∃ c, h₀.HoldsZone k ⟨t, [], ordinal⟩ c) : ∀ {h : TreeHeap}, h₀.Grows h →
    ∃ es h', duplicateSubtrees ordinal ts h = some (es.map FreeZone.subtree, h')
      ∧ h.Grows h' ∧ ∀ h'', h₀.Grows h'' → Keeps h h' [] h'' →
        List.Forall₂ (fun t e => ∃ c, h₀.childOf t = some c ∧ h''.SameTree k c e) ts es := by
  induction ts with
  | nil =>
      intro h _
      exact ⟨[], h, rfl, Grows.refl h, fun _ _ _ => List.Forall₂.nil⟩
  | cons t ts ih =>
      intro h hgrows
      rw [List.forall_mem_cons] at hts
      obtain ⟨⟨c, hzone⟩, hts⟩ := hts
      -- a zone with no terminii: the whole subtree at the link
      have hmake : TreeZone.make t [] ordinal h = some (⟨t, [], ordinal⟩, h) := by
        have hchild : getChild t h = some (some c, h) := by
          show some (h.childOf t, h) = _
          rw [hgrows.childOf _ hzone.base_lt, hzone.base]
        refine (run_bind hchild).trans ?_
        exact (run_bind (run_assert rfl h)).trans rfl
      obtain ⟨e, ms, h₁, hrun, hdup⟩ := TreeZone.duplicate_spec hzone rfl hgrows
      obtain rfl : ms = [] := List.eq_nil_of_length_eq_zero hdup.length
      obtain ⟨es, h₂, hrun', hgrows', hsame⟩ := ih hts (hgrows.trans hdup.grows)
      refine ⟨e :: es, h₂, ?_, hdup.grows.trans hgrows', ?_⟩
      · rw [duplicateSubtrees]
        refine (run_bind hmake).trans ?_
        refine (run_bind hrun).trans ?_
        exact (run_bind hrun').trans rfl
      · -- what the later writes leave alone keeps this duplicate and the others
        intro h'' hlater hkeeps
        refine List.Forall₂.cons ⟨c, hzone.base, ?_⟩ (hsame h'' hlater ?_)
        · refine hdup.same h'' _ hlater ⟨fun n hle hlt => ?_, fun x hle hlt hx => ?_⟩ ?_
          · rw [hkeeps.nodeAt n hle (Nat.lt_of_lt_of_le hlt hgrows'.node_le), hgrows'.nodeAt n hlt]
          · rw [hkeeps.childOf x hle (Nat.lt_of_lt_of_le hlt hgrows'.link_le) hx,
              hgrows'.childOf x hlt]
          · exact fun p hp => absurd hp List.not_mem_nil
        · refine ⟨fun n hle hlt => ?_, fun x hle hlt hx => ?_⟩
          · exact hkeeps.nodeAt n (Nat.le_trans hdup.grows.node_le hle) hlt
          · exact hkeeps.childOf x (Nat.le_trans hdup.grows.link_le hle) hlt hx

/-! ## §2. Filling the placeholders. -/

/-- The memory with nodes at some links. -/
def TreeHeap.fill (h : TreeHeap) : List (Nat × Nat) → TreeHeap
  | [] => h
  | (x, e) :: rest =>
      TreeHeap.fill { h with childOf := Function.update h.childOf x (some e) } rest

theorem fill_nodeAt (pairs : List (Nat × Nat)) : ∀ h : TreeHeap,
    (h.fill pairs).nodeAt = h.nodeAt ∧ (h.fill pairs).nextNode = h.nextNode
      ∧ (h.fill pairs).nextLink = h.nextLink := by
  induction pairs with
  | nil => exact fun _ => ⟨rfl, rfl, rfl⟩
  | cons p pairs ih => exact fun h => ih _

/-- Other links are as they were. -/
theorem fill_childOf_of_not_mem {pairs : List (Nat × Nat)} {y : Nat} : ∀ {h : TreeHeap},
    y ∉ pairs.map Prod.fst → (h.fill pairs).childOf y = h.childOf y := by
  induction pairs with
  | nil => exact fun _ => rfl
  | cons p pairs ih =>
      intro h hy
      rw [List.map_cons, List.mem_cons, not_or] at hy
      show (TreeHeap.fill _ pairs).childOf y = _
      rw [ih hy.2]
      exact Function.update_of_ne hy.1 _ _

theorem fill_childOf {pairs : List (Nat × Nat)} : ∀ {h : TreeHeap},
    (pairs.map Prod.fst).Nodup → ∀ p ∈ pairs, (h.fill pairs).childOf p.1 = some p.2 := by
  induction pairs with
  | nil => exact fun _ p hp => absurd hp List.not_mem_nil
  | cons q pairs ih =>
      intro h hnodup p hp
      rw [List.map_cons, List.nodup_cons] at hnodup
      rcases List.mem_cons.mp hp with rfl | hp
      · show (TreeHeap.fill _ pairs).childOf p.1 = _
        rw [fill_childOf_of_not_mem hnodup.1]
        exact Function.update_self _ _ _
      · exact ih hnodup.2 p hp

theorem run_isContainerInterface {e : Nat} (hkind : (h.nodeAt e).kind ≠ .subContainer) :
    isContainerInterface (some e) h = some (false, h) := by
  show some (decide ((h.nodeAt e).kind = .subContainer), h) = _
  rw [decide_eq_false hkind]

theorem run_resultingXLink {asked : Bool} {t : Mutator} (hmode : t.mode ≠ .null) :
    FreeZone.resultingXLink asked t h = some (if asked then some t.slot else none, h) := by
  cases asked with
  | false => rfl
  | true => exact (run_bind (Mutator.run_getTreePtrInterface hmode h)).trans rfl

/-- A whole subtree goes in at the first terminus. -/
theorem mergeTerminus_subtree {d e : Nat} {m : Mutator} {ms : List Mutator}
    (hmode : m.mode ≠ .null) (hkind : (h.nodeAt e).kind ≠ .subContainer) :
    FreeZone.mergeTerminus ⟨some d, m :: ms⟩ 0 (FreeZone.subtree e) false h
      = some ((⟨some d, ms⟩, 0, none),
        { h with childOf := Function.update h.childOf m.slot (some e) }) := by
  have hbase : (FreeZone.subtree e).tryGetContainerBase h = some (none, h) := by
    refine (run_bind (run_isContainerInterface hkind)).trans ?_
    rfl
  have hexchange : m.exchangeChild (some e) h = some (h.childOf m.slot,
      { h with childOf := Function.update h.childOf m.slot (some e) }) := by
    refine (run_bind (run_isContainerInterface hkind)).trans ?_
    refine (run_bind (run_assert rfl h)).trans ?_
    exact (run_bind (Mutator.run_getChildTreePtr hmode h)).trans rfl
  refine (run_bind (show (FreeZone.subtree e).isEmpty h = some (false, h) from rfl)).trans ?_
  refine (run_bind (show (⟨some d, m :: ms⟩ : FreeZone).isEmpty h = some (false, h) from
    rfl)).trans ?_
  refine (run_bind hbase).trans ?_
  refine (run_bind hexchange).trans ?_
  exact (run_bind (run_resultingXLink hmode)).trans rfl

theorem mergeAllLoop_fill {d : Nat} {ms : List Mutator} {es : List Nat}
    (hms : ∀ m ∈ ms, m.mode ≠ .null) (hlen : ms.length = es.length) : ∀ {h : TreeHeap},
    (∀ e ∈ es, (h.nodeAt e).kind ≠ .subContainer) →
    FreeZone.mergeAllLoop ⟨some d, ms⟩ 0 (es.map FreeZone.subtree) h
      = some ((FreeZone.subtree d, 0), h.fill ((ms.map Mutator.slot).zip es)) := by
  induction ms generalizing es with
  | nil =>
      intro h _
      obtain rfl := List.eq_nil_of_length_eq_zero hlen.symm
      rfl
  | cons m ms ih =>
      intro h hes
      cases es with
      | nil => exact absurd hlen (by simp)
      | cons e es =>
          rw [List.forall_mem_cons] at hms hes
          rw [List.map_cons, FreeZone.mergeAllLoop]
          refine (run_bind (run_assert (Nat.succ_pos _) h)).trans ?_
          refine (run_bind (mergeTerminus_subtree hms.1 hes.1)).trans ?_
          exact ih hms.2 (by simpa using hlen) hes.2

/-- **`MergeAll` with whole subtrees** fills the placeholders, and no terminus is left. -/
theorem mergeAll_fill {d : Nat} {ms : List Mutator} {es : List Nat}
    (hms : ∀ m ∈ ms, m.mode ≠ .null) (hlen : ms.length = es.length)
    (hes : ∀ e ∈ es, (h.nodeAt e).kind ≠ .subContainer) :
    FreeZone.mergeAll ⟨some d, ms⟩ (es.map FreeZone.subtree) h
      = some (FreeZone.subtree d, h.fill ((ms.map Mutator.slot).zip es)) := by
  have hlen' : ms.length = (es.map FreeZone.subtree).length := by rw [List.length_map, hlen]
  refine (run_bind (show (⟨some d, ms⟩ : FreeZone).isEmpty h = some (false, h) from rfl)).trans ?_
  refine (run_bind (run_assert hlen' h)).trans ?_
  refine (run_bind (mergeAllLoop_fill hms hlen hes)).trans ?_
  refine (run_bind (run_assert rfl _)).trans ?_
  exact (run_bind (run_assert rfl _)).trans rfl

/-! ## §3. The round trip. -/

/-- **The terminii of a duplicate in the order of the zone's**: they are placeholders, in
their nodes, and the trees are the same but for each of them and the terminus it is for. -/
structure TerminiiInOrder (h : TreeHeap) (z : TreeZone) (n d : Nat) (ms : List Mutator) :
    Prop where
  length : ms.length = z.terminii.length
  placed : ∀ m ∈ ms, h.childOf m.slot = none ∧ (h.nodeAt m.parentNode).HasPlace m
  same : ∃ k, h.SameUpTo (fun x y => (x, y) ∈ z.terminii.zip (ms.map Mutator.slot)) k n d

/-- **The round trip**: `Duplicate` returns with the terminii in order, and `MergeAll` with the
subtrees gives a tree equal to the one at `n`, which is as it was. -/
def RoundTrips (h : TreeHeap) (z : TreeZone) (n : Nat) : Prop :=
  ∃ d ms h₁ zones h₂ d' h₃, z.duplicate h = some (⟨some d, ms⟩, h₁)
    ∧ TerminiiInOrder h₁ z n d ms
    ∧ duplicateSubtrees z.ordinal z.terminii h₁ = some (zones, h₂)
    ∧ FreeZone.mergeAll ⟨some d, ms⟩ zones h₂ = some (⟨some d', []⟩, h₃)
    ∧ h.Grows h₃ ∧ h₃.SimpleCompareEqual n d'

/-- The trees of the duplicates are no containers. -/
theorem kind_of_sameTree (hz : h₀.HoldsZone k z n) (hne : z.isEmpty = false) {t c e : Nat}
    (ht : t ∈ z.terminii) (hc : h₀.childOf t = some c) (hgrows : h₀.Grows h)
    (hsame : h.SameTree k c e) : (h.nodeAt e).kind ≠ .subContainer := by
  obtain ⟨c', hsub⟩ := hz.subtree hne ht
  obtain rfl : c = c' := Option.some.inj (hc.symm.trans hsub.base)
  rw [← hsame.kind]
  have htree := hsub.tree
  cases k with
  | zero => exact hsame.elim
  | succ k =>
      rw [hgrows.nodeAt c htree.1]
      exact htree.2.1

theorem mem_zip_of_forall₂ {R : Nat → Nat → Prop} {ts es : List Nat} (hall : List.Forall₂ R ts es)
    {ys : List Nat} (hlen : ys.length = ts.length) : ∀ p ∈ ts.zip ys,
    ∃ e, (p.2, e) ∈ ys.zip es ∧ R p.1 e := by
  induction hall generalizing ys with
  | nil => exact fun p hp => absurd hp List.not_mem_nil
  | cons hte _ ih =>
      cases ys with
      | nil => exact absurd hlen (by simp)
      | cons y ys =>
          intro p hp
          rcases List.mem_cons.mp hp with rfl | hp
          · exact ⟨_, List.mem_cons_self, hte⟩
          · obtain ⟨e, he, hpe⟩ := ih (by simpa using hlen) p hp
            exact ⟨e, List.mem_cons_of_mem _ he, hpe⟩

/-- **A zone that is not empty round trips.** -/
theorem roundTrips_of_not_empty (hz : h.HoldsZone k z n) (hne : z.isEmpty = false) :
    RoundTrips h z n := by
  -- the copy of the zone, and the copies of the subtrees at its terminii
  obtain ⟨d, ms, h₁, hrun, hdup⟩ := TreeZone.duplicate_spec hz hne (Grows.refl h)
  obtain ⟨es, h₂, hrun', hgrows, hsubtrees⟩ :=
    duplicateSubtrees_spec (fun t ht => hz.subtree hne ht) hdup.grows
  have hlater : h.Grows h₂ := hdup.grows.trans hgrows
  have hsubtrees₂ := hsubtrees h₂ hlater ⟨fun _ _ _ => rfl, fun _ _ _ _ => rfl⟩
  have hlen : ms.length = es.length := hdup.length.trans hsubtrees₂.length_eq
  have hkind : ∀ e ∈ es, (h₂.nodeAt e).kind ≠ .subContainer := by
    intro e he
    obtain ⟨t, ht, c, hc, hsame⟩ := exists_of_forall₂ hsubtrees₂.flip he
    exact kind_of_sameTree hz hne ht hc hlater hsame
  have hmode : ∀ m ∈ ms, m.mode ≠ .null := fun m hm => (hdup.inside m hm).place.mode_ne_null
  -- the memory with the placeholders filled
  have hfst : ((ms.map Mutator.slot).zip es).map Prod.fst = ms.map Mutator.slot :=
    List.map_fst_zip (by rw [List.length_map, hlen])
  have hfill := fill_nodeAt ((ms.map Mutator.slot).zip es) h₂
  have hchild {x : Nat} (hx : x ∉ ms.map Mutator.slot) :
      (h₂.fill ((ms.map Mutator.slot).zip es)).childOf x = h₂.childOf x :=
    fill_childOf_of_not_mem (hfst.symm ▸ hx)
  have hslot {x : Nat} (hx : x ∈ ms.map Mutator.slot) : h.nextLink ≤ x ∧ x < h₁.nextLink := by
    obtain ⟨m, hm, rfl⟩ := List.mem_map.mp hx
    exact hdup.fresh m hm
  have hend : h.Grows (h₂.fill ((ms.map Mutator.slot).zip es)) := by
    refine ⟨?_, ?_, fun m hm => ?_, fun x hx => ?_⟩
    · rw [hfill.2.1]
      exact hlater.node_le
    · rw [hfill.2.2]
      exact hlater.link_le
    · rw [hfill.1, hlater.nodeAt m hm]
    · rw [hchild fun hmem => absurd (hslot hmem).1 (by omega), hlater.childOf x hx]
  -- the copies keep what the others have made
  have hkept : Keeps h h₁ (ms.map Mutator.slot) (h₂.fill ((ms.map Mutator.slot).zip es)) := by
    refine ⟨fun m _ hlt => ?_, fun x _ hlt hx => ?_⟩
    · rw [hfill.1, hgrows.nodeAt m hlt]
    · rw [hchild hx, hgrows.childOf x hlt]
  have hkept' : Keeps h₁ h₂ [] (h₂.fill ((ms.map Mutator.slot).zip es)) := by
    refine ⟨fun m _ _ => ?_, fun x hle _ _ => ?_⟩
    · rw [hfill.1]
    · exact hchild fun hmem => absurd (hslot hmem).2 (by omega)
  -- the copy with the subtrees put in is the same tree
  have hfilled : (h₂.fill ((ms.map Mutator.slot).zip es)).SameTree (k + k) n d := by
    refine (hdup.same _ (fun x y => (x, y) ∈ z.terminii.zip (ms.map Mutator.slot)) hend hkept
      (fun p hp => hp)).fill fun x y hxy => ?_
    obtain ⟨e, he, c, hc, hsame⟩ := mem_zip_of_forall₂ (hsubtrees _ hend hkept')
      (by rw [List.length_map, hdup.length]) (x, y) hxy
    obtain ⟨c', hsub⟩ := hz.subtree hne (List.of_mem_zip hxy).1
    refine ⟨c, e, ?_, ?_, hsame⟩
    · rw [hend.childOf x hsub.base_lt]
      exact hc
    · exact fill_childOf (hfst.symm ▸ hdup.nodup) (y, e) he
  refine ⟨d, ms, h₁, es.map FreeZone.subtree, h₂, d, h₂.fill ((ms.map Mutator.slot).zip es),
    hrun, ⟨hdup.length, ?_, k, ?_⟩, hrun', mergeAll_fill hmode hlen hkind, hend,
    hfilled.simpleCompareEqual⟩
  · exact fun m hm => ⟨hdup.null m hm, (hdup.inside m hm).place⟩
  · exact hdup.same h₁ _ hdup.grows ⟨fun _ _ _ => rfl, fun _ _ _ _ => rfl⟩ (fun p hp => hp)

/-- **The zones that round trip** are those that are not empty; and a container merged at a
terminus in a container leaves its elements, in order, and its terminii. -/
theorem roundTrip_exact (h : TreeHeap) :
    (∀ (k n : Nat) (z : TreeZone), h.HoldsZone k z n →
      (RoundTrips h z n ↔ z.isEmpty = false)) ∧
    ∀ (z childZone : FreeZone) (i container : Nat) (t : Mutator) (item : Item Nat) (asked : Bool),
      z.base.isSome → z.terminii[i]? = some t → t.mode = .container →
      (h.nodeAt t.parentNode).HasPlace t → ContainerZone h childZone container item →
      t.parentNode ≠ container → (∀ c ∈ childZone.terminii, c.parentNode ≠ t.parentNode) →
      ∃ new z' h', z.mergeTerminus i childZone asked h
        = some ((z', i + childZone.terminii.length, none), h')
        ∧ Spliced h h' z i t childZone container item.links new z' := by
  refine ⟨fun k n z hz => ⟨fun hround => ?_, roundTrips_of_not_empty hz⟩, ?_⟩
  · rw [Bool.eq_false_iff]
    intro hempty
    obtain ⟨d, ms, h₁, zones, h₂, d', h₃, hrun, _⟩ := hround
    rw [TreeZone.duplicate_empty hempty] at hrun
    cases hrun
  · intro z childZone i container t item asked hz ht hmode hplace hzone hne hapart
    exact mergeTerminus_container hz ht hmode hplace hzone hne hapart

/-- Node 0 with two children in a sequence; node 3, a container of a placeholder; and node 4
with a placeholder in a sequence. -/
def smallHeap : TreeHeap where
  childOf x := [some 0, some 1, some 2, none, none].getD x none
  nodeAt n :=
    { kind := if n = 3 then .subContainer else .plain
      typeIndex := [10, 11, 11, 12, 10].getD n 11
      value := .nothing
      items := [[.sequence [1, 2]], [], [], [.sequence [3]], [.sequence [4]]].getD n []
      identifier_value := by
        refine iff_of_false ?_ ?_
        · split <;> exact NodeKind.noConfusion
        · rintro ⟨name, role, heq⟩
          cases heq
      identifier_items := by
        intro hkind
        split at hkind <;> cases hkind }
  nextLink := 5
  nextNode := 5
  treesByOrdinal := .empty
  nextTreeOrdinal := 0
  freeTreeOrdinals := []
  deferredTreeOrdinals := []
  mainTreeOrdinal := 0

theorem smallHeap_leaf {n : Nat} (hn : n = 1 ∨ n = 2) (j : Nat) :
    smallHeap.linksBelow j n = [] := by
  cases j with
  | zero => rfl
  | succ j => rcases hn with rfl | rfl <;> rfl

/-- The zone at the base of node 0, an empty one or one that ends at the second child. -/
theorem smallHeap_holdsZone {terminii : List Nat} (hterminii : terminii = [0] ∨ terminii = [2]) :
    smallHeap.HoldsZone 2 ⟨0, terminii, 0⟩ 0 where
  base := rfl
  base_lt := Nat.succ_pos 4
  tree := by
    refine ⟨by decide, by decide, fun x hx => ?_⟩
    have hx : x ∈ [1, 2] := hx
    have hleaf (n : Nat) (hn : n = 1 ∨ n = 2) : smallHeap.IsTree 1 n := by
      rcases hn with rfl | rfl
      · exact ⟨by decide, by decide, fun y hy => absurd hy List.not_mem_nil⟩
      · exact ⟨by decide, by decide, fun y hy => absurd hy List.not_mem_nil⟩
    rcases List.mem_pair.mp hx with rfl | rfl
    · exact ⟨by decide, 1, rfl, hleaf 1 (Or.inl rfl)⟩
    · exact ⟨by decide, 2, rfl, hleaf 2 (Or.inr rfl)⟩
  distinct := by
    show [0, 1, 2].Nodup
    decide
  terminii := by
    rcases hterminii with rfl | rfl
    · exact Or.inl rfl
    · refine Or.inr ⟨?_, fun t ht c hc j x hx => ?_⟩
      · show [2].Sublist [1, 2]
        decide
      · obtain rfl : t = 2 := List.mem_singleton.mp ht
        obtain rfl : 2 = c := Option.some.inj hc
        rw [smallHeap_leaf (Or.inr rfl) j] at hx
        exact absurd hx List.not_mem_nil

/-- Node 3 as a zone of one placeholder, which its terminus is at. -/
theorem smallHeap_containerZone : ContainerZone smallHeap ⟨some 3, [⟨.container, 3, 0, 3⟩]⟩ 3
    (.sequence [3]) where
  base := rfl
  kind := rfl
  items := rfl
  mode := rfl
  links := by decide
  nodup := by decide
  null := by decide
  placed c hc := by
    obtain rfl := List.mem_singleton.mp hc
    exact ⟨.sequence [3], rfl, by decide, rfl⟩
  held := by decide

theorem roundTrip_exact_smallHeap : RoundTrips smallHeap ⟨0, [2], 0⟩ 0 ∧
    ∃ new z' h', FreeZone.mergeTerminus ⟨some 4, [⟨.container, 4, 0, 4⟩]⟩ 0
        ⟨some 3, [⟨.container, 3, 0, 3⟩]⟩ true smallHeap = some ((z', 1, none), h')
      ∧ Spliced smallHeap h' ⟨some 4, [⟨.container, 4, 0, 4⟩]⟩ 0 ⟨.container, 4, 0, 4⟩
        ⟨some 3, [⟨.container, 3, 0, 3⟩]⟩ 3 [3] new z' :=
  ⟨((roundTrip_exact smallHeap).1 2 0 ⟨0, [2], 0⟩ (smallHeap_holdsZone (Or.inr rfl))).mpr rfl,
    (roundTrip_exact smallHeap).2 ⟨some 4, [⟨.container, 4, 0, 4⟩]⟩
      ⟨some 3, [⟨.container, 3, 0, 3⟩]⟩ 0 3 ⟨.container, 4, 0, 4⟩ (.sequence [3]) true rfl rfl rfl
      ⟨.sequence [4], rfl, by decide, rfl⟩ smallHeap_containerZone (by decide) (by decide)⟩

/-- The empty zone at a base is a zone of the tree, and does not round trip. -/
theorem emptyZone_not_roundTrips : smallHeap.HoldsZone 2 ⟨0, [0], 0⟩ 0
    ∧ TreeZone.isEmpty ⟨0, [0], 0⟩ = true ∧ ¬ RoundTrips smallHeap ⟨0, [0], 0⟩ 0 := by
  refine ⟨smallHeap_holdsZone (Or.inl rfl), rfl, ?_⟩
  rintro ⟨d, ms, h₁, zones, h₂, d', h₃, hrun, _⟩
  cases hrun

end Inferno.DB
