/-
  Inferno.DB.MutableZone
  ──────────────────────
  `MutableZone::Swap`: two zones change places, terminus by terminus and then at the bases.

    • `MutableZone`      — a zone by its mutators,
    • `swapLoop`, `swap` — the exchange, with the fixups on both sides,
    • `swapTreeToTree`   — the database's operation on two tree zones,
    • `exchange`         — memory with the children of two links exchanged,
    • `Exchanged`        — the same for a list of pairs of links,
    • `run_swap`         — what a swap does to memory, to the zones and to the fixups.
-/
import Inferno.DB.ZoneRoundTrip

namespace Inferno.DB

open Inferno.Common Update

/-! ## §1. The operation. -/

/-- `MutableZone`. -/
structure MutableZone where
  base : Mutator
  terminii : List Mutator
  ordinal : Int

/-- Zones to fix up, one for each terminus or none at all; `none` is a null pointer. -/
abbrev Fixups := List (Option TreeZone)

namespace MutableZone

/-- The assertions on the terminii of a new zone. -/
def checkTerminii : List Mutator → Update Unit
  | [] => return ()
  | t :: ts => do
      assert (← t.getChildTreePtr).isSome
      checkTerminii ts

/-- The constructor. -/
def make (base : Mutator) (terminii : List Mutator) (ordinal : Int) : Update MutableZone := do
  assert (← base.getChildTreePtr).isSome
  checkTerminii terminii
  return ⟨base, terminii, ordinal⟩

/-- `IsEmpty`: the mutators are compared by the `TreePtr`s they are for. -/
def isEmpty (z : MutableZone) : Bool :=
  z.terminii.map Mutator.slot = [z.base.slot]

/-- `GetXTreeZone`. -/
def getXTreeZone (z : MutableZone) : Update TreeZone :=
  TreeZone.make z.base.slot (z.terminii.map Mutator.slot) z.ordinal

/-- The assertion on the next fixup: its base is the terminus. -/
def checkFixup : Fixups → Nat → Update Unit
  | some zone :: _, terminus => assert (zone.base = terminus)
  | _, _ => return ()

/-- `SetBaseXLink` of the next fixup. -/
def setFixup : Fixups → Nat → Fixups
  | [], _ => []
  | fixup :: _, terminus => [fixup.map fun zone => { zone with base := terminus }]

/-- The loop over the terminii: both lists of mutators and both lists of fixups, as they
are after it. -/
def swapLoop : List Mutator → List Mutator → Fixups → Fixups →
    Update (List Mutator × List Mutator × Fixups × Fixups)
  | [], [], fixupsL, fixupsR => return ([], [], fixupsL, fixupsR)
  | l :: ls, r :: rs, fixupsL, fixupsR => do
      checkFixup fixupsL (← l.getXLink)
      checkFixup fixupsR (← r.getXLink)
      l.swapParents r
      -- the mutators have been exchanged too
      let (l, r) := (r, l)
      assert (← l.getChildTreePtr).isSome
      assert (← r.getChildTreePtr).isSome
      let (ls, rs, restL, restR) ← swapLoop ls rs fixupsL.tail fixupsR.tail
      return (l :: ls, r :: rs, setFixup fixupsL l.slot ++ restL, setFixup fixupsR r.slot ++ restR)
  | _, _, _, _ => failure

/-- `Swap`. -/
def swap (l r : MutableZone) (fixupsL fixupsR : Fixups) :
    Update (MutableZone × MutableZone × Fixups × Fixups) := do
  assert (l.terminii.length = r.terminii.length)
  assert (l.isEmpty = false)
  assert (r.isEmpty = false)
  let (terminiiL, terminiiR, fixupsL, fixupsR) ← swapLoop l.terminii r.terminii fixupsL fixupsR
  let baseNodeR ← r.base.getChildTreePtr
  let originalBaseNodeL ← l.base.exchangeChild baseNodeR
  let _ ← r.base.exchangeChild originalBaseNodeL
  return ({ l with terminii := terminiiL }, { r with terminii := terminiiR }, fixupsL, fixupsR)

/-- `CreateMutableZone`. -/
def create (zone : TreeZone) : Update MutableZone := do
  let base ← createTreeMutator zone.base
  let terminii ← createTreeMutators zone.terminii
  make base terminii zone.ordinal

/-- `SwapTreeToTree`: the zones and the fixups as they are after it. -/
def swapTreeToTree (zone1 : TreeZone) (fixups1 : Fixups) (zone2 : TreeZone) (fixups2 : Fixups) :
    Update ((TreeZone × Fixups) × (TreeZone × Fixups)) := do
  assert (zone1.terminii.length = zone2.terminii.length)
  assert (zone1.ordinal ≠ zone2.ordinal)
  let lmzone1 ← create zone1
  let lmzone2 ← create zone2
  let (lmzone1, lmzone2, fixups1, fixups2) ← swap lmzone1 lmzone2 fixups1 fixups2
  let zone1 ← lmzone1.getXTreeZone
  let zone2 ← lmzone2.getXTreeZone
  return ((zone1, fixups1), (zone2, fixups2))

end MutableZone

/-! ## §2. Exchanged links. -/

namespace TreeHeap

/-- Memory with the children of two links exchanged. -/
def exchange (h : TreeHeap) (x y : Nat) : TreeHeap :=
  { h with childOf :=
      Function.update (Function.update h.childOf x (h.childOf y)) y (h.childOf x) }

/-- **The children of these pairs of links are exchanged**, and nothing else is changed. -/
structure Exchanged (h : TreeHeap) (pairs : List (Nat × Nat)) (h' : TreeHeap) : Prop where
  rest : h' = { h with childOf := h'.childOf }
  left : ∀ p ∈ pairs, h'.childOf p.1 = h.childOf p.2
  right : ∀ p ∈ pairs, h'.childOf p.2 = h.childOf p.1
  other : ∀ x, (∀ p ∈ pairs, x ≠ p.1 ∧ x ≠ p.2) → h'.childOf x = h.childOf x

variable {h h' h'' : TreeHeap} {pairs pairs' : List (Nat × Nat)}

theorem Exchanged.refl (h : TreeHeap) : h.Exchanged [] h :=
  ⟨rfl, by simp, by simp, fun _ _ => rfl⟩

theorem exchanged_exchange (h : TreeHeap) {x y : Nat} (hne : x ≠ y) :
    h.Exchanged [(x, y)] (h.exchange x y) := by
  refine ⟨rfl, ?_, ?_, ?_⟩
  · intro p hp
    rw [List.mem_singleton.mp hp]
    show Function.update _ y _ x = _
    rw [Function.update_of_ne hne, Function.update_self]
  · intro p hp
    rw [List.mem_singleton.mp hp]
    exact Function.update_self _ _ _
  · intro z hz
    obtain ⟨hx, hy⟩ := hz (x, y) (List.mem_singleton_self _)
    show Function.update _ y _ z = _
    rw [Function.update_of_ne hy, Function.update_of_ne hx]

/-- No link of one list of pairs is in the other. -/
def PairsApart (pairs pairs' : List (Nat × Nat)) : Prop :=
  ∀ p ∈ pairs, ∀ q ∈ pairs', p.1 ≠ q.1 ∧ p.1 ≠ q.2 ∧ p.2 ≠ q.1 ∧ p.2 ≠ q.2

/-- One exchange after another, on other links. -/
theorem Exchanged.append (h₁ : h.Exchanged pairs h') (h₂ : h'.Exchanged pairs' h'')
    (hapart : PairsApart pairs pairs') : h.Exchanged (pairs ++ pairs') h'' := by
  refine ⟨?_, ?_, ?_, ?_⟩
  · rw [h₂.rest, h₁.rest]
  · intro p hp
    rcases List.mem_append.mp hp with hp | hp
    · rw [h₂.other p.1 fun q hq => ⟨(hapart p hp q hq).1, (hapart p hp q hq).2.1⟩]
      exact h₁.left p hp
    · rw [h₂.left p hp]
      refine h₁.other p.2 fun q hq => ?_
      obtain ⟨_, h12, _, h22⟩ := hapart q hq p hp
      exact ⟨h12.symm, h22.symm⟩
  · intro p hp
    rcases List.mem_append.mp hp with hp | hp
    · rw [h₂.other p.2 fun q hq => (hapart p hp q hq).2.2]
      exact h₁.right p hp
    · rw [h₂.right p hp]
      refine h₁.other p.1 fun q hq => ?_
      obtain ⟨h11, _, h21, _⟩ := hapart q hq p hp
      exact ⟨h11.symm, h21.symm⟩
  · intro x hx
    rw [h₂.other x fun q hq => hx q (List.mem_append_right _ hq),
      h₁.other x fun p hp => hx p (List.mem_append_left _ hp)]

/-- **Exchanging again restores memory.** -/
theorem Exchanged.restore (h₁ : h.Exchanged pairs h') (h₂ : h'.Exchanged pairs' h'')
    (hpairs : ∀ p, (∃ q ∈ pairs, p = q ∨ p = (q.2, q.1)) ↔ ∃ q ∈ pairs', p = q ∨ p = (q.2, q.1)) :
    h'' = h := by
  have hchild : h''.childOf = h.childOf := by
    funext x
    by_cases hx : ∀ p ∈ pairs', x ≠ p.1 ∧ x ≠ p.2
    · rw [h₂.other x hx]
      refine h₁.other x fun p hp => ?_
      obtain ⟨q, hq, rfl | rfl⟩ := (hpairs p).mp ⟨p, hp, Or.inl rfl⟩
      · exact hx _ hq
      · exact (hx q hq).symm
    · have hex : ∃ p ∈ pairs', x = p.1 ∨ x = p.2 := by
        by_contra hnone
        refine hx fun p hp => ⟨fun heq => hnone ⟨p, hp, Or.inl heq⟩,
          fun heq => hnone ⟨p, hp, Or.inr heq⟩⟩
      obtain ⟨p, hp, hxp⟩ := hex
      -- the pair was exchanged before, in one order or the other
      obtain ⟨q, hq, hpq⟩ := (hpairs p).mpr ⟨p, hp, Or.inl rfl⟩
      have hback : h'.childOf p.2 = h.childOf p.1 ∧ h'.childOf p.1 = h.childOf p.2 := by
        rcases hpq with rfl | rfl
        · exact ⟨h₁.right _ hq, h₁.left _ hq⟩
        · exact ⟨h₁.left q hq, h₁.right q hq⟩
      rcases hxp with rfl | rfl
      · rw [h₂.left p hp, hback.1]
      · rw [h₂.right p hp, hback.2]
  rw [h₂.rest, hchild, h₁.rest]

end TreeHeap

/-! ## §3. What a swap does. -/

namespace MutableZone

open TreeHeap

variable {h h' : TreeHeap}

/-- A node that is no `SubContainer` is at the link. -/
def Proper (h : TreeHeap) (x : Nat) : Prop :=
  ∃ c, h.childOf x = some c ∧ (h.nodeAt c).kind ≠ .subContainer

theorem run_exchangeChild {m : Mutator} (hmode : m.mode ≠ .null) {x : Nat} {h₀ : TreeHeap}
    (hx : Proper h₀ x) (hnodes : h.nodeAt = h₀.nodeAt) :
    m.exchangeChild (h₀.childOf x) h
      = some (h.childOf m.slot,
        { h with childOf := Function.update h.childOf m.slot (h₀.childOf x) }) := by
  obtain ⟨c, hc, hkind⟩ := hx
  rw [hc]
  rw [← hnodes] at hkind
  refine (run_bind (run_isContainerInterface hkind)).trans ?_
  refine (run_bind (run_assert rfl h)).trans ?_
  exact (run_bind (Mutator.run_getChildTreePtr hmode h)).trans rfl

theorem run_swapParents {l r : Mutator} (hl : l.mode ≠ .null) (hr : r.mode ≠ .null)
    (hproperL : Proper h l.slot) (hproperR : Proper h r.slot) :
    l.swapParents r h = some ((), h.exchange l.slot r.slot) := by
  refine (run_bind (Mutator.run_getChildTreePtr hr h)).trans ?_
  refine (run_bind (Mutator.run_getChildTreePtr hl h)).trans ?_
  refine (run_bind (run_exchangeChild hl hproperR rfl)).trans ?_
  have hback := run_exchangeChild
    (h := { h with childOf := Function.update h.childOf l.slot (h.childOf r.slot) })
    hr hproperL rfl
  exact (run_bind hback).trans rfl

/-- The fixups' bases are the terminii they are for. -/
def FixupsAt : Fixups → List Nat → Prop
  | fixup :: rest, t :: ts => (∀ zone, fixup = some zone → zone.base = t) ∧ FixupsAt rest ts
  | _, _ => True

/-- The fixups with other bases. -/
def setFixups : Fixups → List Nat → Fixups
  | fixup :: rest, t :: ts =>
      fixup.map (fun zone => { zone with base := t }) :: setFixups rest ts
  | fixups, _ => fixups

theorem run_checkFixup {fixups : Fixups} {t : Nat} {ts : List Nat} (hat : FixupsAt fixups (t :: ts))
    (h : TreeHeap) : checkFixup fixups t h = some ((), h) := by
  match fixups with
  | [] => rfl
  | none :: _ => rfl
  | some zone :: rest => exact run_assert (hat.1 zone rfl) h

theorem setFixup_append (fixups : Fixups) (t : Nat) (ts : List Nat) :
    setFixup fixups t ++ setFixups fixups.tail ts = setFixups fixups (t :: ts) := by
  cases fixups with
  | nil => cases ts <;> rfl
  | cons fixup rest => rfl

theorem FixupsAt.tail {fixups : Fixups} {t : Nat} {ts : List Nat}
    (hat : FixupsAt fixups (t :: ts)) : FixupsAt fixups.tail ts := by
  cases fixups with
  | nil => cases ts <;> exact trivial
  | cons fixup rest => exact hat.2

/-- Links stay proper when others are exchanged. -/
theorem proper_of_exchanged {pairs : List (Nat × Nat)} (hex : h.Exchanged pairs h') {x : Nat}
    (hx : Proper h x) (hother : ∀ p ∈ pairs, x ≠ p.1 ∧ x ≠ p.2) : Proper h' x := by
  obtain ⟨c, hc, hkind⟩ := hx
  refine ⟨c, (hex.other x hother).trans hc, ?_⟩
  rw [hex.rest]
  exact hkind

/-- Links without repetition on two sides, the first of each apart from the others. -/
theorem slots_apart {x y : Nat} {xs ys : List Nat} (h : (x :: xs ++ y :: ys).Nodup) :
    x ≠ y ∧ (∀ z ∈ xs ++ ys, z ≠ x ∧ z ≠ y) ∧ (xs ++ ys).Nodup := by
  have hperm : (x :: xs ++ y :: ys).Perm (x :: y :: (xs ++ ys)) :=
    List.Perm.cons x List.perm_middle
  obtain ⟨hx, hrest⟩ := List.nodup_cons.mp (hperm.nodup_iff.mp h)
  obtain ⟨hy, hnodup⟩ := List.nodup_cons.mp hrest
  rw [List.mem_cons, not_or] at hx
  refine ⟨hx.1, ?_, hnodup⟩
  intro z hz
  refine ⟨?_, ?_⟩
  · rintro rfl
    exact hx.2 hz
  · rintro rfl
    exact hy hz

/-- **The loop**: the children are exchanged pair by pair, the mutators change sides and
the fixups get the links that their bases went to. -/
theorem run_swapLoop {ls rs : List Mutator} (hlen : ls.length = rs.length) :
    ∀ {h : TreeHeap} {fixupsL fixupsR : Fixups},
    (∀ m ∈ ls ++ rs, m.mode ≠ .null ∧ Proper h m.slot) →
    (ls.map Mutator.slot ++ rs.map Mutator.slot).Nodup →
    FixupsAt fixupsL (ls.map Mutator.slot) → FixupsAt fixupsR (rs.map Mutator.slot) →
    ∃ h', swapLoop ls rs fixupsL fixupsR h
        = some ((rs, ls, setFixups fixupsL (rs.map Mutator.slot),
          setFixups fixupsR (ls.map Mutator.slot)), h')
      ∧ h.Exchanged ((ls.map Mutator.slot).zip (rs.map Mutator.slot)) h' := by
  -- on the terminii; the links of the pairs that are left are apart from this pair's
  induction ls generalizing rs with
  | nil =>
      intro h fixupsL fixupsR _ _ _ _
      obtain rfl := List.eq_nil_of_length_eq_zero hlen.symm
      refine ⟨h, ?_, Exchanged.refl h⟩
      have hnone : ∀ fixups : Fixups, setFixups fixups [] = fixups := by
        intro fixups
        cases fixups <;> rfl
      rw [List.map_nil, hnone, hnone]
      rfl
  | cons l ls ih =>
      intro h fixupsL fixupsR hm hnodup hatL hatR
      cases rs with
      | nil => exact absurd hlen (by simp)
      | cons r rs =>
          obtain ⟨hl, hproperL⟩ := hm l (by simp)
          obtain ⟨hr, hproperR⟩ := hm r (by simp)
          have happart := slots_apart hnodup
          have hne : l.slot ≠ r.slot := happart.1
          have hex := exchanged_exchange h hne
          -- the other links still hold proper children
          have hrest : ∀ m ∈ ls ++ rs, m.mode ≠ .null
              ∧ Proper (h.exchange l.slot r.slot) m.slot := by
            intro m hmem
            have hboth := hm m (by simp at hmem ⊢; tauto)
            refine ⟨hboth.1, proper_of_exchanged hex hboth.2 fun p hp => ?_⟩
            rw [List.mem_singleton.mp hp]
            refine happart.2.1 m.slot ?_
            rw [← List.map_append]
            exact List.mem_map_of_mem hmem
          have hlen' : ls.length = rs.length := by simpa using hlen
          obtain ⟨h', hloop, hex'⟩ := ih hlen' hrest happart.2.2 hatL.tail hatR.tail
          refine ⟨h', ?_, hex.append hex' ?_⟩
          · -- the run: both fixups, the exchange, and the rest of the loop
            have hsome : ∀ {x y : Nat}, Proper h x → (h.exchange l.slot r.slot).childOf y
                = h.childOf x → ((h.exchange l.slot r.slot).childOf y).isSome := by
              intro x y hx heq
              obtain ⟨c, hc, _⟩ := hx
              rw [heq, hc]
              rfl
            rw [swapLoop]
            refine (run_bind (Mutator.run_getTreePtrInterface hl h)).trans ?_
            refine (run_bind (run_checkFixup hatL h)).trans ?_
            refine (run_bind (Mutator.run_getTreePtrInterface hr h)).trans ?_
            refine (run_bind (run_checkFixup hatR h)).trans ?_
            refine (run_bind (run_swapParents hl hr hproperL hproperR)).trans ?_
            refine (run_bind (Mutator.run_getChildTreePtr hr _)).trans ?_
            refine (run_bind (run_assert (hsome hproperL
              (hex.right _ (List.mem_singleton_self _))) _)).trans ?_
            refine (run_bind (Mutator.run_getChildTreePtr hl _)).trans ?_
            refine (run_bind (run_assert (hsome hproperR
              (hex.left _ (List.mem_singleton_self _))) _)).trans ?_
            refine (run_bind hloop).trans ?_
            show some ((r :: rs, l :: ls, setFixup fixupsL r.slot ++ _,
              setFixup fixupsR l.slot ++ _), h') = _
            rw [setFixup_append, setFixup_append]
            rfl
          · -- this pair's links are in no other pair
            intro p hp q hq
            rw [List.mem_singleton.mp hp]
            obtain ⟨hq₁, hq₂⟩ := List.of_mem_zip hq
            have h₁ := happart.2.1 q.1 (List.mem_append_left _ hq₁)
            have h₂ := happart.2.1 q.2 (List.mem_append_right _ hq₂)
            exact ⟨h₁.1.symm, h₂.1.symm, h₁.2.symm, h₂.2.symm⟩

/-- The links of a zone that a swap touches: its base and its terminii. -/
def boundary (z : MutableZone) : List Mutator := z.base :: z.terminii

/-- The pairs of links that a swap exchanges, in order. -/
def swappedPairs (base base' : Nat) (terminii terminii' : List Nat) : List (Nat × Nat) :=
  terminii.zip terminii' ++ [(base, base')]

/-- **A swap** exchanges the children of corresponding terminii and of the bases, and gives
each zone the other's terminii. -/
theorem run_swap {l r : MutableZone} {fixupsL fixupsR : Fixups}
    (hlen : l.terminii.length = r.terminii.length)
    (hm : ∀ m ∈ l.boundary ++ r.boundary, m.mode ≠ .null ∧ Proper h m.slot)
    (hnodup : (l.boundary.map Mutator.slot ++ r.boundary.map Mutator.slot).Nodup)
    (hatL : FixupsAt fixupsL (l.terminii.map Mutator.slot))
    (hatR : FixupsAt fixupsR (r.terminii.map Mutator.slot)) :
    ∃ h', swap l r fixupsL fixupsR h
        = some ((⟨l.base, r.terminii, l.ordinal⟩, ⟨r.base, l.terminii, r.ordinal⟩,
          setFixups fixupsL (r.terminii.map Mutator.slot),
          setFixups fixupsR (l.terminii.map Mutator.slot)), h')
      ∧ h.Exchanged (swappedPairs l.base.slot r.base.slot (l.terminii.map Mutator.slot)
          (r.terminii.map Mutator.slot)) h' := by
  have happart := slots_apart (x := l.base.slot) (y := r.base.slot) hnodup
  -- a boundary without repeats is not that of an empty zone
  have hnotEmpty : ∀ {z : MutableZone}, (z.boundary.map Mutator.slot).Nodup →
      z.isEmpty = false := by
    intro z hz
    refine decide_eq_false ?_
    intro heq
    refine (List.nodup_cons.mp hz).1 ?_
    show z.base.slot ∈ z.terminii.map Mutator.slot
    rw [heq]
    exact List.mem_singleton_self _
  have hbaseL := hm l.base (by simp [boundary])
  have hbaseR := hm r.base (by simp [boundary])
  have hzip : ∀ p ∈ (l.terminii.map Mutator.slot).zip (r.terminii.map Mutator.slot),
      (p.1 ≠ l.base.slot ∧ p.1 ≠ r.base.slot) ∧ p.2 ≠ l.base.slot ∧ p.2 ≠ r.base.slot := by
    intro p hp
    obtain ⟨hp₁, hp₂⟩ := List.of_mem_zip hp
    exact ⟨happart.2.1 p.1 (List.mem_append_left _ hp₁),
      happart.2.1 p.2 (List.mem_append_right _ hp₂)⟩
  have hterminii : ∀ m ∈ l.terminii ++ r.terminii, m.mode ≠ .null ∧ Proper h m.slot :=
    fun m hmem => hm m (by simp [boundary] at hmem ⊢; tauto)
  -- the terminii first, and then the bases
  obtain ⟨h₁, hloop, hex₁⟩ := run_swapLoop hlen hterminii happart.2.2 hatL hatR
  have hproperL : Proper h₁ l.base.slot := proper_of_exchanged hex₁ hbaseL.2 fun p hp =>
    ⟨(hzip p hp).1.1.symm, (hzip p hp).2.1.symm⟩
  have hproperR : Proper h₁ r.base.slot := proper_of_exchanged hex₁ hbaseR.2 fun p hp =>
    ⟨(hzip p hp).1.2.symm, (hzip p hp).2.2.symm⟩
  -- the exchange of the bases, forward and back
  refine ⟨h₁.exchange l.base.slot r.base.slot, ?_, ?_⟩
  · unfold swap
    refine (run_bind (run_assert hlen h)).trans ?_
    refine (run_bind (run_assert (hnotEmpty (List.nodup_append.mp hnodup).1) h)).trans ?_
    refine (run_bind (run_assert (hnotEmpty (List.nodup_append.mp hnodup).2.1) h)).trans ?_
    refine (run_bind hloop).trans ?_
    refine (run_bind (Mutator.run_getChildTreePtr hbaseR.1 h₁)).trans ?_
    refine (run_bind (run_exchangeChild hbaseL.1 hproperR rfl)).trans ?_
    have hback := run_exchangeChild
      (h := { h₁ with childOf :=
        Function.update h₁.childOf l.base.slot (h₁.childOf r.base.slot) }) hbaseR.1 hproperL rfl
    exact (run_bind hback).trans rfl
  · refine hex₁.append (exchanged_exchange h₁ happart.1) ?_
    intro p hp q hq
    rw [List.mem_singleton.mp hq]
    exact ⟨(hzip p hp).1.1, (hzip p hp).1.2, (hzip p hp).2.1, (hzip p hp).2.2⟩

/-! ## §4. The database's swap. -/

/-- The link is in the tables. -/
def InTables (h : TreeHeap) (x : Nat) : Prop := ∃ info, (x, info) ∈ h.domain

theorem contextType_walkTree {fuel x : Nat} {info : CoreInfo Nat Nat}
    (hinfo : info.contextType ≠ .unknown) :
    ∀ row ∈ h.walkTree fuel x info, row.2.contextType ≠ .unknown := by
  induction fuel generalizing x info with
  | zero =>
      intro row hrow
      cases hrow
  | succ fuel ih =>
      intro row hrow
      unfold TreeHeap.walkTree at hrow
      cases hc : h.childOf x with
      | none =>
          rw [hc] at hrow
          cases hrow
      | some node =>
          rw [hc] at hrow
          rcases List.mem_cons.mp hrow with rfl | hrow
          · exact hinfo
          · obtain ⟨p, _, hrow⟩ := List.mem_flatMap.mp hrow
            obtain ⟨q, _, hrow⟩ := List.mem_flatMap.mp hrow
            refine ih ?_ row hrow
            unfold visitInfo
            cases p.1 <;> exact fun heq => by cases heq

theorem contextType_domain : ∀ row ∈ h.domain, row.2.contextType ≠ .unknown := by
  intro row hrow
  obtain ⟨o, _, hrow⟩ := List.mem_flatMap.mp hrow
  cases htree : h.treesByOrdinal.lookup o with
  | none =>
      rw [htree] at hrow
      cases hrow
  | some tree =>
      rw [htree] at hrow
      by_cases hdeferred : o ∈ h.deferredTreeOrdinals
      · simp only [if_pos hdeferred] at hrow
        cases hrow
      · simp only [if_neg hdeferred] at hrow
        exact contextType_walkTree (fun heq => by cases heq) row hrow

/-- A link in the tables gets a mutator. -/
theorem run_createTreeMutator {x : Nat} (htables : InTables h x) (hproper : Proper h x) :
    ∃ m, createTreeMutator x h = some (m, h) ∧ m.slot = x ∧ m.mode ≠ .null := by
  obtain ⟨info, hinfo⟩ := htables
  obtain ⟨row, hrow⟩ : ∃ row, h.domain.find? (·.1 = x) = some row := by
    cases hfind : h.domain.find? (·.1 = x) with
    | some row => exact ⟨row, rfl⟩
    | none =>
        have hnot := List.find?_eq_none.mp hfind (x, info) hinfo
        simp at hnot
  have hcontext := contextType_domain row (List.mem_of_find?_eq_some hrow)
  have hget : getRow x h = some (row.2, h) := by
    refine (run_bind (show (get : Update TreeHeap) h = some (h, h) from rfl)).trans ?_
    rw [hrow]
    rfl
  have hsome : (h.childOf x).isSome := by
    obtain ⟨c, hc, _⟩ := hproper
    rw [hc]
    rfl
  -- every kind of context but the unknown one makes its mutator
  have hrun {prog : Update Mutator} {m : Mutator} (hm : prog h = some (m, h)) :
      (do assert (← getChild x).isSome
          prog : Update Mutator) h = some (m, h) := by
    refine (run_bind (show getChild x h = some (h.childOf x, h) from rfl)).trans ?_
    exact (run_bind (run_assert hsome h)).trans hm
  unfold createTreeMutator
  rw [run_bind hget]
  cases hc : row.2.contextType with
  | unknown => exact absurd hc hcontext
  | root => exact ⟨_, hrun rfl, rfl, fun heq => by cases heq⟩
  | singular => exact ⟨_, hrun rfl, rfl, fun heq => by cases heq⟩
  | inSequence => exact ⟨_, hrun rfl, rfl, fun heq => by cases heq⟩
  | inCollection => exact ⟨_, hrun rfl, rfl, fun heq => by cases heq⟩

theorem run_createTreeMutators {xs : List Nat}
    (hxs : ∀ x ∈ xs, InTables h x ∧ Proper h x) :
    ∃ ms, createTreeMutators xs h = some (ms, h) ∧ ms.map Mutator.slot = xs
      ∧ ∀ m ∈ ms, m.mode ≠ .null := by
  induction xs with
  | nil => exact ⟨[], rfl, rfl, by simp⟩
  | cons x xs ih =>
      rw [List.forall_mem_cons] at hxs
      obtain ⟨m, hm, hslot, hmode⟩ := run_createTreeMutator hxs.1.1 hxs.1.2
      obtain ⟨ms, hms, hslots, hmodes⟩ := ih hxs.2
      refine ⟨m :: ms, ?_, ?_, List.forall_mem_cons.mpr ⟨hmode, hmodes⟩⟩
      · rw [createTreeMutators]
        refine (run_bind hm).trans ?_
        exact (run_bind hms).trans rfl
      · rw [List.map_cons, hslot, hslots]

theorem run_checkTerminii {ms : List Mutator}
    (hms : ∀ m ∈ ms, m.mode ≠ .null ∧ Proper h m.slot) : checkTerminii ms h = some ((), h) := by
  induction ms with
  | nil => rfl
  | cons m ms ih =>
      rw [List.forall_mem_cons] at hms
      obtain ⟨hmode, c, hc, _⟩ := hms.1
      rw [checkTerminii]
      refine (run_bind (Mutator.run_getChildTreePtr hmode h)).trans ?_
      refine (run_bind (run_assert (by rw [hc]; rfl) h)).trans ?_
      exact ih hms.2

/-- The links of a tree zone's boundary. -/
def linksOf (zone : TreeZone) : List Nat := zone.base :: zone.terminii

/-- A mutable zone for a tree zone whose boundary is in the tables. -/
theorem run_create {zone : TreeZone} (hzone : ∀ x ∈ linksOf zone, InTables h x ∧ Proper h x) :
    ∃ z : MutableZone, create zone h = some (z, h) ∧ z.boundary.map Mutator.slot = linksOf zone
      ∧ z.ordinal = zone.ordinal ∧ ∀ m ∈ z.boundary, m.mode ≠ .null ∧ Proper h m.slot := by
  unfold linksOf at hzone
  rw [List.forall_mem_cons] at hzone
  obtain ⟨base, hbase, hslot, hmode⟩ := run_createTreeMutator hzone.1.1 hzone.1.2
  obtain ⟨ms, hms, hslots, hmodes⟩ := run_createTreeMutators hzone.2
  have hproper : ∀ m ∈ ms, m.mode ≠ .null ∧ Proper h m.slot := by
    intro m hm
    refine ⟨hmodes m hm, (hzone.2 m.slot ?_).2⟩
    rw [← hslots]
    exact List.mem_map_of_mem hm
  have hbaseProper : Proper h base.slot := by
    rw [hslot]
    exact hzone.1.2
  refine ⟨⟨base, ms, zone.ordinal⟩, ?_, ?_, rfl,
    List.forall_mem_cons.mpr ⟨⟨hmode, hbaseProper⟩, hproper⟩⟩
  · obtain ⟨c, hc, _⟩ := hbaseProper
    refine (run_bind hbase).trans ?_
    refine (run_bind hms).trans ?_
    refine (run_bind (Mutator.run_getChildTreePtr hmode h)).trans ?_
    refine (run_bind (run_assert (by rw [hc]; rfl) h)).trans ?_
    exact (run_bind (run_checkTerminii hproper)).trans rfl
  · show base.slot :: ms.map Mutator.slot = zone.base :: zone.terminii
    rw [hslot, hslots]

theorem run_getXTreeZone {z : MutableZone} {c : Nat} (hc : h.childOf z.base.slot = some c) :
    z.getXTreeZone h = some (⟨z.base.slot, z.terminii.map Mutator.slot, z.ordinal⟩, h) := by
  refine (run_bind (show getChild z.base.slot h = some (h.childOf z.base.slot, h) from
    rfl)).trans ?_
  exact (run_bind (run_assert (by rw [hc]; rfl) h)).trans rfl

/-- **`SwapTreeToTree`** exchanges the children of corresponding terminii and of the bases;
each zone is written back with its base and the other's terminii, and each fixup with the
link that its base went to. -/
theorem run_swapTreeToTree {zone1 zone2 : TreeZone} {fixups1 fixups2 : Fixups}
    (hlen : zone1.terminii.length = zone2.terminii.length)
    (hordinal : zone1.ordinal ≠ zone2.ordinal)
    (hlinks : ∀ x ∈ linksOf zone1 ++ linksOf zone2, InTables h x ∧ Proper h x)
    (hnodup : (linksOf zone1 ++ linksOf zone2).Nodup)
    (hat1 : FixupsAt fixups1 zone1.terminii) (hat2 : FixupsAt fixups2 zone2.terminii) :
    ∃ h', swapTreeToTree zone1 fixups1 zone2 fixups2 h
        = some (((⟨zone1.base, zone2.terminii, zone1.ordinal⟩, setFixups fixups1 zone2.terminii),
          (⟨zone2.base, zone1.terminii, zone2.ordinal⟩, setFixups fixups2 zone1.terminii)), h')
      ∧ h.Exchanged (swappedPairs zone1.base zone2.base zone1.terminii zone2.terminii) h' := by
  rw [List.forall_mem_append] at hlinks
  -- a mutator for the base and each terminus of both zones
  obtain ⟨z1, hz1, hslots1, hordinal1, hm1⟩ := run_create hlinks.1
  obtain ⟨z2, hz2, hslots2, hordinal2, hm2⟩ := run_create hlinks.2
  obtain ⟨hbase1, hterminii1⟩ := List.cons.inj hslots1
  obtain ⟨hbase2, hterminii2⟩ := List.cons.inj hslots2
  have hlen' : z1.terminii.length = z2.terminii.length := by
    rw [← List.length_map (f := Mutator.slot), hterminii1, hlen, ← hterminii2, List.length_map]
  rw [← hterminii1] at hat1
  rw [← hterminii2] at hat2
  obtain ⟨h', hswap, hex⟩ := run_swap hlen' (List.forall_mem_append.mpr ⟨hm1, hm2⟩)
    (by rw [hslots1, hslots2]; exact hnodup) hat1 hat2
  rw [hterminii1, hterminii2] at hswap
  rw [hbase1, hbase2, hterminii1, hterminii2] at hex
  -- the bases are exchanged as well, so each zone can be written back
  have hbases : (zone1.base, zone2.base)
      ∈ swappedPairs zone1.base zone2.base zone1.terminii zone2.terminii := by
    simp [swappedPairs]
  obtain ⟨c1, hc1, _⟩ := (hlinks.1 zone1.base List.mem_cons_self).2
  obtain ⟨c2, hc2, _⟩ := (hlinks.2 zone2.base List.mem_cons_self).2
  have hbase1' := (hex.left _ hbases).trans hc2
  have hbase2' := (hex.right _ hbases).trans hc1
  refine ⟨h', ?_, hex⟩
  -- the calls of the function in order
  refine (run_bind (run_assert hlen h)).trans ?_
  refine (run_bind (run_assert hordinal h)).trans ?_
  refine (run_bind hz1).trans ?_
  refine (run_bind hz2).trans ?_
  refine (run_bind hswap).trans ?_
  refine (run_bind (run_getXTreeZone (z := ⟨z1.base, z2.terminii, z1.ordinal⟩)
    (show h'.childOf z1.base.slot = some c2 by rw [hbase1]; exact hbase1'))).trans ?_
  refine (run_bind (run_getXTreeZone (z := ⟨z2.base, z1.terminii, z2.ordinal⟩)
    (show h'.childOf z2.base.slot = some c1 by rw [hbase2]; exact hbase2'))).trans ?_
  show some (((TreeZone.mk z1.base.slot (z2.terminii.map Mutator.slot) z1.ordinal, _),
    (TreeZone.mk z2.base.slot (z1.terminii.map Mutator.slot) z2.ordinal, _)), h') = _
  rw [hbase1, hbase2, hterminii1, hterminii2, hordinal1, hordinal2]

end MutableZone

end Inferno.DB
