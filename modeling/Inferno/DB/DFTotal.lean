/-
  Inferno.DB.DFTotal
  ──────────────────
  The depth-first comparison never asserts on two links of the database.

    • `Position.length_le_card` — no position is longer than the table,
    • `Apart`              — what the two climbs have seen does not meet,
    • `compare3Way_total`  — the comparison returns, with the sign of the positions,
    • `compare3Way_threeWay` — so it is a three-way comparison.
-/
import Inferno.DB.DFOrder
import Inferno.Lib.ThreeWay

namespace Inferno.DB

open Inferno.Common Inferno.Lib Inferno.Lib.PathOrder

variable {L N A : Type} [LinearOrder L] {db : XTreeDatabase L N A} {x y l r : L}
  {p q P Q : List Step}

/-! ## §1. Positions are short, and their links have parents. -/

namespace Position

/-- The links at or above a position. -/
theorem exists_above (h : Position db x p) :
    ∃ s ⊆ db.rows.keys, s.card = p.length
      ∧ ∀ y ∈ s, ∃ q, Position db y q ∧ q.length ≤ p.length := by
  induction h with
  | @root o x h =>
      have hx : x ∈ db.rows.keys := (Position.root h).mem_keys
      refine ⟨{x}, Finset.singleton_subset_iff.mpr hx, rfl, ?_⟩
      intro y hy
      rw [Finset.mem_singleton.mp hy]
      exact ⟨_, .root h, le_refl _⟩
  | @child y x p node i k item hy hp ih =>
      obtain ⟨s, hsub, hcard, hs⟩ := ih
      have hx : Position db x (p ++ [stepTo i item k]) := .child hy hp
      have hlen : (p ++ [stepTo i item k]).length = p.length + 1 := by
        rw [List.length_append, List.length_singleton]
      -- `x` is deeper than all of them
      have hnew : x ∉ s := by
        intro hmem
        obtain ⟨q, hq, hle⟩ := hs x hmem
        rw [hq.unique hx, hlen] at hle
        omega
      refine ⟨insert x s, Finset.insert_subset hx.mem_keys hsub, ?_, ?_⟩
      · rw [Finset.card_insert_of_notMem hnew, hcard, hlen]
      · intro z hz
        rcases Finset.mem_insert.mp hz with rfl | hz
        · exact ⟨_, hx, le_refl _⟩
        · obtain ⟨q, hq, hle⟩ := hs z hz
          exact ⟨q, hq, by omega⟩

theorem length_le_card (h : Position db x p) : p.length ≤ db.rows.keys.card := by
  obtain ⟨s, hsub, hcard, _⟩ := h.exists_above
  exact hcard ▸ Finset.card_le_card hsub

theorem tryGetParentXLink_isSome (h : Position db x p) :
    ∃ res, db.tryGetParentXLink (.link x) = some res := by
  cases h with
  | root h =>
      obtain ⟨row, hrow, hnone, _⟩ := row_root h
      refine ⟨none, ?_⟩
      simp only [XTreeDatabase.tryGetParentXLink, XTreeDatabase.getRow, hrow, hnone,
        Option.bind_eq_bind, Option.bind_some]
  | child hy hp => exact ⟨_, DepthFirstRelation.tryGetParentXLink_place hy.mem_keys hp⟩

/-- A link that has a parent query answered is in the table. -/
theorem exists_of_tryGetParentXLink {x : XLink L} {res : Option (XLink L)}
    (h : db.tryGetParentXLink x = some res) : ∃ a p, x = .link a ∧ Position db a p := by
  unfold XTreeDatabase.tryGetParentXLink at h
  obtain ⟨row, hrow, _⟩ := Option.bind_eq_some_iff.mp h
  cases x with
  | link a =>
      obtain ⟨p, hp⟩ := exists_of_mem (StdMap.mem_keys_of_lookup hrow)
      exact ⟨a, p, rfl, hp⟩
  | MMAX => exact absurd hrow (by simp [XTreeDatabase.getRow])
  | OffEnd => exact absurd hrow (by simp [XTreeDatabase.getRow])

end Position

namespace DepthFirstRelation

/-! ## §2. The two climbs. -/

/-- The left climb has been at `x`. -/
def LeftSeen (lKey : XLink L) (m : Mutuals L) (x : XLink L) : Prop :=
  x = lKey ∨ (m.entry x).1 ≠ none

/-- The right climb has been at `x`. -/
def RightSeen (rKey : XLink L) (m : Mutuals L) (x : XLink L) : Prop :=
  x = rKey ∨ (m.entry x).2 ≠ none

/-- **The climbs have not met.** -/
structure Apart (lKey rKey lCur rCur : XLink L) (m : Mutuals L) : Prop where
  left : LeftSeen lKey m lCur
  right : RightSeen rKey m rCur
  apart : ∀ x, LeftSeen lKey m x → ¬ RightSeen rKey m x
  first : ∀ p c, (m.entry p).1 = some c → LeftSeen lKey m c
  second : ∀ p c, (m.entry p).2 = some c → RightSeen rKey m c

variable {lKey rKey lCur rCur : XLink L} {m : Mutuals L} {parent : Option (XLink L)}

omit [LinearOrder L] in
theorem Apart.ne (h : Apart lKey rKey lCur rCur m) : lCur ≠ rCur := by
  intro heq
  exact h.apart lCur h.left (heq ▸ h.right)

/-- One half of the loop body, on the left: the climb goes on to the parent. -/
theorem climbLeft_apart (parent : Option (XLink L)) (h : Apart lKey rKey lCur rCur m) :
    match climbLeft rKey lCur rCur m parent with
    | .done _ => True
    | .siblings l' r' => l' ≠ r'
    | .on l' r' m' => Apart lKey rKey l' r' m' ∧ l' = parent.getD lCur ∧ r' = rCur := by
  unfold climbLeft
  -- at the root there is no climb
  cases parent with
  | none => exact ⟨h, rfl, rfl⟩
  | some p =>
      dsimp only
      -- it has come to the other link itself, or to a link that the other side has seen
      by_cases hpr : p = rKey
      · rw [if_pos hpr]
        trivial
      rw [if_neg hpr]
      cases hsecond : (m.entry p).2 with
      | some r' =>
          intro heq
          exact h.apart lCur h.left (heq ▸ h.second p r' hsecond)
      | none =>
          dsimp only
          -- `p` is new to the right, and what was seen stays seen
          have hseen : ∀ x, LeftSeen lKey m x → LeftSeen lKey (m.set p (some lCur, none)) x := by
            intro x hx
            unfold LeftSeen
            rw [entry_set]
            by_cases hxp : x = p
            · rw [if_pos hxp]
              exact .inr (by simp)
            · rw [if_neg hxp]
              exact hx
          have hright : ∀ x, RightSeen rKey (m.set p (some lCur, none)) x
              ↔ RightSeen rKey m x := by
            intro x
            unfold RightSeen
            rw [entry_set]
            by_cases hxp : x = p
            · rw [if_pos hxp, hxp, hsecond]
            · rw [if_neg hxp]
          -- the new link, and the entries as they were
          refine ⟨⟨.inr ?_, (hright _).mpr h.right, ?_, ?_, ?_⟩, rfl, rfl⟩
          · rw [entry_set, if_pos rfl]
            simp
          · intro x hx hxr
            rw [hright] at hxr
            unfold LeftSeen at hx
            rw [entry_set] at hx
            by_cases hxp : x = p
            · rw [hxp] at hxr
              exact hxr.elim hpr (fun hne => hne hsecond)
            · rw [if_neg hxp] at hx
              exact h.apart x hx hxr
          · intro p' c hc
            rw [entry_set] at hc
            by_cases hpp : p' = p
            · rw [if_pos hpp] at hc
              exact Option.some.inj hc ▸ hseen _ h.left
            · rw [if_neg hpp] at hc
              exact hseen c (h.first p' c hc)
          · intro p' c hc
            rw [entry_set] at hc
            rw [hright]
            by_cases hpp : p' = p
            · rw [if_pos hpp] at hc
              exact absurd hc (by simp)
            · rw [if_neg hpp] at hc
              exact h.second p' c hc

/-- The other half, on the right. -/
theorem climbRight_apart (parent : Option (XLink L)) (h : Apart lKey rKey lCur rCur m) :
    match climbRight lKey lCur rCur m parent with
    | .done _ => True
    | .siblings l' r' => l' ≠ r'
    | .on l' r' m' => Apart lKey rKey l' r' m' ∧ l' = lCur ∧ r' = parent.getD rCur := by
  unfold climbRight
  -- at the root there is no climb
  cases parent with
  | none => exact ⟨h, rfl, rfl⟩
  | some p =>
      dsimp only
      -- it has come to the other link itself, or to a link that the other side has seen
      by_cases hpl : p = lKey
      · rw [if_pos hpl]
        trivial
      rw [if_neg hpl]
      cases hfirst : (m.entry p).1 with
      | some l' =>
          intro heq
          exact h.apart rCur (heq ▸ h.first p l' hfirst) h.right
      | none =>
          dsimp only
          -- `p` is new to the left
          have hseen : ∀ x, RightSeen rKey m x
              → RightSeen rKey (m.set p (none, some rCur)) x := by
            intro x hx
            unfold RightSeen
            rw [entry_set]
            by_cases hxp : x = p
            · rw [if_pos hxp]
              exact .inr (by simp)
            · rw [if_neg hxp]
              exact hx
          have hleft : ∀ x, LeftSeen lKey (m.set p (none, some rCur)) x
              ↔ LeftSeen lKey m x := by
            intro x
            unfold LeftSeen
            rw [entry_set]
            by_cases hxp : x = p
            · rw [if_pos hxp, hxp, hfirst]
            · rw [if_neg hxp]
          -- the new link, and the entries as they were
          refine ⟨⟨(hleft _).mpr h.left, .inr ?_, ?_, ?_, ?_⟩, rfl, rfl⟩
          · rw [entry_set, if_pos rfl]
            simp
          · intro x hx hxr
            rw [hleft] at hx
            unfold RightSeen at hxr
            rw [entry_set] at hxr
            by_cases hxp : x = p
            · rw [hxp] at hx
              exact hx.elim hpl (fun hne => hne hfirst)
            · rw [if_neg hxp] at hxr
              exact h.apart x hx hxr
          · intro p' c hc
            rw [entry_set] at hc
            rw [hleft]
            by_cases hpp : p' = p
            · rw [if_pos hpp] at hc
              exact absurd hc (by simp)
            · rw [if_neg hpp] at hc
              exact h.first p' c hc
          · intro p' c hc
            rw [entry_set] at hc
            by_cases hpp : p' = p
            · rw [if_pos hpp] at hc
              exact Option.some.inj hc ▸ hseen _ h.right
            · rw [if_neg hpp] at hc
              exact hseen c (h.second p' c hc)

/-! ## §3. The comparison returns. -/

omit [LinearOrder L] in
/-- Two children of one link have rows that differ. -/
theorem compareSiblings_isSome (h : Met db P Q lCur rCur) (hne : lCur ≠ rCur) :
    ∃ res, compareSiblings db lCur rCur = some res := by
  obtain ⟨p, ⟨a, q, s₁, b, rfl, hq, rfl, hb, _⟩, ⟨a', q', s₂, b', ha, hq', rfl, hb', _⟩⟩ := h
  rw [XLink.link.injEq] at ha
  subst ha
  obtain rfl := hq.unique hq'
  obtain ⟨lRow, hlRow, hs₁⟩ := hb.row_below hq
  obtain ⟨rRow, hrRow, hs₂⟩ := hb'.row_below hq
  unfold compareSiblings
  simp only [hlRow, hrRow, Option.bind_eq_bind, Option.bind_some]
  split
  · exact ⟨_, rfl⟩
  next hitem =>
    split
    · exact ⟨_, rfl⟩
    next hcon =>
      -- one step, so one link
      have hsteps : s₁ = s₂ := by
        rw [← hs₁, ← hs₂]
        have h1 : lRow.itemOrdinal = rRow.itemOrdinal := by omega
        have h2 : lRow.containerOrdinal = rRow.containerOrdinal := by omega
        rw [h1, h2]
      subst hsteps
      exact absurd (congrArg XLink.link (hb.injective hb')) hne

/-- Two roots have different tree ordinals. -/
theorem compareRoots_isSome {a b : L} (ha : Position db a p) (hb : Position db b q)
    (hpa : db.tryGetParentXLink (.link a) = some none)
    (hpb : db.tryGetParentXLink (.link b) = some none) (hne : a ≠ b) :
    ∃ res, compareRoots db (.link a) (.link b) = some res := by
  rcases ha.tryGetParentXLink hpa with ⟨_, o, lRow, rfl, hlRow, ho⟩ | ⟨_, _, _, _, hsome, _⟩
  · rcases hb.tryGetParentXLink hpb with ⟨_, o', rRow, rfl, hrRow, ho'⟩ | ⟨_, _, _, _, hsome, _⟩
    · unfold compareRoots
      simp only [hlRow, hrRow, Option.bind_eq_bind, Option.bind_some]
      rw [ASSERT_pos (by
        rw [ho, ho']
        rintro rfl
        exact hne (ha.injective hb))]
      exact ⟨_, rfl⟩
    · exact absurd hsome (by simp)
  · exact absurd hsome (by simp)

/-- A link no deeper than `n`. -/
def Within (db : XTreeDatabase L N A) (x : XLink L) (n : Nat) : Prop :=
  ∃ a p, x = .link a ∧ Position db a p ∧ p.length ≤ n

omit [LinearOrder L] in
theorem not_within_zero (x : XLink L) : ¬ Within db x 0 := by
  intro h
  obtain ⟨a, p, _, ha, hlen⟩ := h
  exact ha.ne_nil (List.length_eq_zero_iff.mp (Nat.le_zero.mp hlen))

/-- The parent is one step less deep. -/
theorem Within.up {n : Nat} {p : XLink L} (hx : Within db lCur (n + 1))
    (hp : db.tryGetParentXLink lCur = some (some p)) : Within db p n := by
  obtain ⟨a, P, rfl, ha, hlen⟩ := hx
  rcases ha.tryGetParentXLink hp with ⟨hnone, _⟩ | ⟨y, q, step, row, hres, hy, rfl, _⟩
  · exact absurd hnone (by simp)
  · rw [List.length_append, List.length_singleton] at hlen
    rw [Option.some.inj hres]
    exact ⟨y, q, rfl, hy, by omega⟩

/-- A root has depth one. -/
theorem within_root (hp : db.tryGetParentXLink lCur = some none) (n : Nat) :
    Within db lCur (n + 1) := by
  obtain ⟨a, p, rfl, ha⟩ := Position.exists_of_tryGetParentXLink hp
  rcases ha.tryGetParentXLink hp with ⟨_, o, row, rfl, _⟩ | ⟨_, _, _, _, hsome, _⟩
  · exact ⟨a, _, rfl, ha, by simp⟩
  · exact absurd hsome (by simp)

/-- One side of a turn: it climbs, or waits at its root while the other climbs. -/
theorem within_climb {n : Nat} {other : Option (XLink L)} {rCur : XLink L}
    (hx : Within db lCur (n + 1)) (hp : db.tryGetParentXLink lCur = some parent)
    (hr : Within db rCur (n + 1)) (ho : db.tryGetParentXLink rCur = some other)
    (hmoves : ¬ (parent = none ∧ other = none)) : Within db (parent.getD lCur) n := by
  cases parent with
  | some p => exact hx.up hp
  | none =>
      cases other with
      | none => exact absurd ⟨rfl, rfl⟩ hmoves
      | some p =>
          cases n with
          | zero => exact absurd (hr.up ho) (not_within_zero p)
          | succ n => exact within_root hp n

/-- **The loop returns**: by induction on the depth that is left, with the two climbs
apart. -/
theorem compareLoop_isSome (hl : Position db l P) (hr : Position db r Q) (fuel : Nat) :
    ∀ {lCur rCur : XLink L} {m : Mutuals L}, Climbing db P Q lCur rCur m →
      Apart (.link l) (.link r) lCur rCur m → Within db lCur fuel → Within db rCur fuel →
      ∃ res, compareLoop db (.link l) (.link r) fuel lCur rCur m = some res := by
  -- on the depth that is left, since each round climbs on one side or both
  induction fuel with
  | zero =>
      intro lCur rCur m _ _ hdl _
      exact absurd hdl (not_within_zero lCur)
  | succ fuel ih =>
      intro lCur rCur m hinv hapart hdl hdr
      have ⟨a, p, hla, ha, _⟩ := hdl
      have ⟨b, q, hrb, hb, _⟩ := hdr
      subst hla hrb
      obtain ⟨lParent, hlp⟩ := ha.tryGetParentXLink_isSome
      obtain ⟨rParent, hrp⟩ := hb.tryGetParentXLink_isSome
      unfold compareLoop
      rw [hlp, hrp]
      dsimp only [Option.bind_eq_bind, Option.bind_some]
      -- both are at their roots, which are apart
      by_cases hroots : lParent = none ∧ rParent = none
      · rw [if_pos hroots]
        refine compareRoots_isSome ha hb (hroots.1 ▸ hlp) (hroots.2 ▸ hrp) ?_
        rintro rfl
        exact hapart.ne rfl
      rw [if_neg hroots]
      have hwl := within_climb hdl hlp hdr hrp hroots
      have hwr := within_climb hdr hrp hdl hlp (fun h => hroots ⟨h.2, h.1⟩)
      -- what the left half gives, for the order and for the separation
      have hleft := climbLeft_spec hr hinv hlp
      have hleft' := climbLeft_apart lParent hapart
      cases hcl : climbLeft (.link r) (.link a) (.link b) m lParent with
      | done d => exact ⟨d, rfl⟩
      | siblings l' r' =>
          rw [hcl] at hleft hleft'
          exact compareSiblings_isSome hleft hleft'
      | on l' r' m' =>
          rw [hcl] at hleft hleft'
          obtain ⟨hapart', rfl, rfl⟩ := hleft'
          dsimp only
          have hright := climbRight_spec hl hleft hrp
          have hright' := climbRight_apart rParent hapart'
          cases hcr : climbRight (.link l) (lParent.getD (.link a)) (.link b) m' rParent with
          | done d => exact ⟨d, rfl⟩
          | siblings l'' r'' =>
              rw [hcr] at hright hright'
              exact compareSiblings_isSome hright hright'
          | on l'' r'' m'' =>
              rw [hcr] at hright hright'
              obtain ⟨hapart'', rfl, rfl⟩ := hright'
              dsimp only
              rw [if_neg hapart''.ne]
              exact ih hright hapart'' hwl hwr

/-- **The comparison is total** on the links of the database, and has the sign of their
positions. -/
theorem compare3Way_total (hl : Position db l P) (hr : Position db r Q) :
    ∃ d, compare3Way db (.link l) (.link r) = some d ∧ (d < 0 ↔ P < Q) ∧ (0 < d ↔ Q < P) := by
  have hsome : ∃ res, compareHierarchical db (.link l) (.link r) = some res := by
    unfold compareHierarchical
    by_cases hlr : l = r
    · rw [if_pos (by rw [hlr])]
      exact ⟨_, rfl⟩
    -- different links: the climb starts with an empty map and ends within its fuel
    rw [if_neg (by simpa using hlr)]
    have hempty : ∀ p, Mutuals.entry (StdMap.empty : Mutuals L) p = (none, none) := by
      intro p
      rfl
    refine compareLoop_isSome hl hr _ ⟨⟨l, P, rfl, hl, List.prefix_refl P⟩,
      ⟨r, Q, rfl, hr, List.prefix_refl Q⟩, ?_, ?_⟩ ⟨.inl rfl, .inl rfl, ?_, ?_, ?_⟩
      ⟨l, P, rfl, hl, Nat.le_succ_of_le hl.length_le_card⟩
      ⟨r, Q, rfl, hr, Nat.le_succ_of_le hr.length_le_card⟩
    · intro p c hc
      exact absurd hc (by simp [hempty])
    · intro p c hc
      exact absurd hc (by simp [hempty])
    · intro x hx hxr
      rcases hx with rfl | hx
      · rcases hxr with heq | hxr
        · exact hlr (XLink.link.inj heq)
        · exact hxr (by rw [hempty])
      · exact hx (by rw [hempty])
    · intro p c hc
      exact absurd hc (by simp [hempty])
    · intro p c hc
      exact absurd hc (by simp [hempty])
  obtain ⟨⟨d, rel⟩, hres⟩ := hsome
  have hcompared := compareHierarchical_spec hl hr hres
  refine ⟨d, ?_, hcompared.neg_iff, hcompared.pos_iff⟩
  unfold compare3Way
  rw [hres]
  rfl

/-! ## §4. A three-way comparison. -/

theorem compare3Way_self (x : XLink L) : compare3Way db x x = some 0 := by
  unfold compare3Way compareHierarchical
  rw [if_pos rfl]
  rfl

/-- Different links that compare are both in the database. -/
theorem exists_of_compare3Way {x y : XLink L} {d : Int} (h : compare3Way db x y = some d)
    (hne : x ≠ y) :
    ∃ a p b q, x = .link a ∧ Position db a p ∧ y = .link b ∧ Position db b q := by
  unfold compare3Way compareHierarchical at h
  rw [if_neg hne] at h
  obtain ⟨res, hres, _⟩ := Option.map_eq_some_iff.mp h
  unfold compareLoop at hres
  obtain ⟨lParent, hlp, hres⟩ := Option.bind_eq_some_iff.mp hres
  obtain ⟨rParent, hrp, _⟩ := Option.bind_eq_some_iff.mp hres
  obtain ⟨a, p, ha, hpa⟩ := Position.exists_of_tryGetParentXLink hlp
  obtain ⟨b, q, hb, hqb⟩ := Position.exists_of_tryGetParentXLink hrp
  exact ⟨a, p, b, q, ha, hpa, hb, hqb⟩

/-- Below, in the database, is before in depth-first order. -/
theorem below_iff {x y : XLink L} : Below (compare3Way db) x y
    ↔ ∃ a p b q, x = .link a ∧ Position db a p ∧ y = .link b ∧ Position db b q ∧ p < q := by
  constructor
  · intro h
    obtain ⟨d, hd, hneg⟩ := h
    have hne : x ≠ y := by
      rintro rfl
      rw [compare3Way_self] at hd
      cases hd
      exact absurd hneg (by omega)
    obtain ⟨a, p, b, q, rfl, ha, rfl, hb⟩ := exists_of_compare3Way hd hne
    obtain ⟨d', hd', hlt, _⟩ := compare3Way_total ha hb
    rw [hd] at hd'
    cases hd'
    exact ⟨a, p, b, q, rfl, ha, rfl, hb, hlt.mp hneg⟩
  · rintro ⟨a, p, b, q, rfl, ha, rfl, hb, hpq⟩
    obtain ⟨d, hd, hlt, _⟩ := compare3Way_total ha hb
    exact ⟨d, hd, hlt.mpr hpq⟩

/-- **`DepthFirstRelation` is a three-way comparison of the links.** -/
theorem compare3Way_threeWay (db : XTreeDatabase L N A) : ThreeWay (compare3Way db) where
  zero_iff x y := by
    -- only a link ties with itself, for its position is its own
    constructor
    · intro h
      by_contra hne
      obtain ⟨a, p, b, q, rfl, ha, rfl, hb⟩ := exists_of_compare3Way h hne
      obtain ⟨d, hd, hlt, hgt⟩ := compare3Way_total ha hb
      rw [h] at hd
      cases hd
      have hpq : p = q := le_antisymm (not_lt.mp fun h => absurd (hgt.mpr h) (by omega))
        (not_lt.mp fun h => absurd (hlt.mpr h) (by omega))
      subst hpq
      exact hne (congrArg XLink.link (ha.injective hb))
    · rintro rfl
      exact compare3Way_self x
  swap x y := by
    constructor
    · rintro ⟨d, hd, hpos⟩
      have hne : x ≠ y := by
        rintro rfl
        rw [compare3Way_self] at hd
        cases hd
        exact absurd hpos (by omega)
      obtain ⟨a, p, b, q, rfl, ha, rfl, hb⟩ := exists_of_compare3Way hd hne
      obtain ⟨d', hd', _, hgt⟩ := compare3Way_total ha hb
      rw [hd] at hd'
      cases hd'
      exact below_iff.mpr ⟨b, q, a, p, rfl, hb, rfl, ha, hgt.mp hpos⟩
    · -- the order is that of the positions
      intro h
      obtain ⟨b, q, a, p, rfl, hb, rfl, ha, hqp⟩ := below_iff.mp h
      obtain ⟨d, hd, _, hgt⟩ := compare3Way_total ha hb
      exact ⟨d, hd, hgt.mpr hqp⟩
  trans x y z hxy hyz := by
    obtain ⟨a, p, b, q, rfl, ha, rfl, hb, hpq⟩ := below_iff.mp hxy
    obtain ⟨b', q', c, s, hbb, hb', rfl, hc, hqs⟩ := below_iff.mp hyz
    cases hbb
    obtain rfl := hb.unique hb'
    exact below_iff.mpr ⟨a, p, c, s, rfl, ha, rfl, hc, hpq.trans hqs⟩

end DepthFirstRelation

end Inferno.DB
