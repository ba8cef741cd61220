/-
  Inferno.UP.TreeZoneRelation
  ───────────────────────────
  How two tree zones overlap.

    • `TreeZoneRelation.compareHierarchical` — `TreeZoneRelation::CompareHierarchical`,
    • `Classified`     — what each answer says of the links of the two zones,
    • `relateTerminii_spec` — the loop over the terminii of the zone above,
    • `EmptyWithin`    — the pairs of zones that are told wrong: an empty zone at a link that
                         the other zone covers below its base,
    • `compareHierarchical_exact` — the answer is exact for all others.
-/
import Inferno.DB.FlatDatabase
import Inferno.DB.ZoneLinks
import Mathlib

namespace Inferno.UP

open Inferno.Common Inferno.DB TreeZone

variable {A : Type} {db : XTreeDatabase Nat Nat A} {l r z w : TreeZone} {d : Int}

/-! ## §1. The relation. -/

/-- `ZoneRelation::RelType`. -/
inductive ZoneRelType where
  | equal
  | overlapGeneral
  | overlapTerminii
  | distinctSubtree
  | distinctSiblings
deriving DecidableEq

/-- `STLCompare3Way`, of vectors of links. -/
def stlCompare3Way (l r : List Nat) : Int :=
  if l = r then 0 else if l < r then -1 else 1

namespace TreeZoneRelation

/-- The loop over the terminii of the zone whose base is above. -/
def relateTerminii (db : XTreeDatabase Nat Nat A) (dBase : Nat) : List Nat → Option ZoneRelType
  | [] => some .overlapGeneral -- no terminus on the path to the base below
  | terminus :: rest => do
      let p ← DepthFirstRelation.compareHierarchical db (.link terminus) (.link dBase)
      match p.2 with
      | .equal => some .distinctSubtree
      | .leftIsAncestor => some .distinctSubtree
      | .rightIsAncestor => some .overlapGeneral
      | _ => relateTerminii db dBase rest

/-- `CompareHierarchical`. -/
def compareHierarchical (db : XTreeDatabase Nat Nat A) (l r : TreeZone) :
    Option (Int × ZoneRelType) := do
  let p ← DepthFirstRelation.compareHierarchical db (.link l.base) (.link r.base)
  match p.2 with
  | .equal =>
      let termDiff := stlCompare3Way l.terminii r.terminii
      if termDiff = 0 then some (termDiff, .equal) else some (termDiff, .overlapTerminii)
  | .leftIsAncestor => do
      let rel ← relateTerminii db r.base l.terminii
      some (p.1, rel)
  | .rightIsAncestor => do
      let rel ← relateTerminii db l.base r.terminii
      some (p.1, rel)
  | _ => some (p.1, .distinctSiblings)

end TreeZoneRelation

open TreeZoneRelation

/-! ## §2. What the answers say. -/

/-- A tree zone of the database: an empty one, or a valid one. -/
def ZoneOf (db : XTreeDatabase Nat Nat A) (z : TreeZone) : Prop :=
  z.base ∈ db.rows.keys ∧ (z.isEmpty = true ∨ z.Valid db)

/-- The zones have no link in common. -/
def DisjointZones (db : XTreeDatabase Nat Nat A) (l r : TreeZone) : Prop :=
  ∀ x, ¬ (l.Covers db x ∧ r.Covers db x)

/-- **What each answer says of two zones.** -/
def Classified (db : XTreeDatabase Nat Nat A) (l r : TreeZone) : ZoneRelType → Prop
  | .equal => (∀ x, l.Covers db x ↔ r.Covers db x) ∧ l.base = r.base ∧ l.terminii = r.terminii
  | .overlapTerminii => l.base = r.base ∧ l.terminii ≠ r.terminii
  | .overlapGeneral => l.base ≠ r.base ∧ ¬ DisjointZones db l r
  | .distinctSubtree => DisjointZones db l r
      ∧ (db.Ancestor l.base r.base ∨ db.Ancestor r.base l.base)
  | .distinctSiblings => DisjointZones db l r
      ∧ ¬ db.WeakDescendant l.base r.base ∧ ¬ db.WeakDescendant r.base l.base

/-- An empty zone covers nothing. -/
theorem not_covers_of_empty (h : z.isEmpty = true) (x : Nat) : ¬ z.Covers db x := by
  rintro ⟨hweak, hout⟩
  refine hout z.base ?_ hweak
  rw [isEmpty_iff.mp h]
  exact List.mem_singleton.mpr rfl

/-- Zones on different branches have no link in common. -/
theorem disjoint_of_apart (hl : l.base ∈ db.rows.keys) (hr : r.base ∈ db.rows.keys)
    (hlr : ¬ db.WeakDescendant l.base r.base) (hrl : ¬ db.WeakDescendant r.base l.base) :
    DisjointZones db l r := by
  rintro x ⟨hx, hx'⟩
  rcases weak_comparable (weak_mem_keys hl hx.1) hx.1 hx'.1 hl hr with h | h
  · exact hlr h
  · exact hrl h

/-- Of two different zones at one base, the links differ or the terminii do; with equal
terminii the zones are equal. -/
theorem covers_congr (hbase : l.base = r.base) (hterm : l.terminii = r.terminii) (x : Nat) :
    l.Covers db x ↔ r.Covers db x := by
  unfold Covers
  rw [hbase, hterm]

/-- **The answers exclude each other.** -/
theorem Classified.unique (hl : ZoneOf db l) {c c' : ZoneRelType} (h : Classified db l r c)
    (h' : Classified db l r c') : c = c' := by
  have hself : ∀ {x : Nat}, x ∈ db.rows.keys → ¬ db.Ancestor x x := ancestor_irrefl
  -- comparable bases differ
  have hbases : db.Ancestor l.base r.base ∨ db.Ancestor r.base l.base → l.base ≠ r.base := by
    intro h heq
    rw [heq] at h
    rcases h with h | h <;> exact hself (heq ▸ hl.1) h
  have hweak : ¬ db.WeakDescendant l.base r.base → l.base ≠ r.base := by
    intro h heq
    exact h (heq ▸ Relation.ReflTransGen.refl)
  -- two answers at one base, above it, or apart from it
  cases c <;> cases c' <;> simp only [Classified] at h h' <;> try rfl
  all_goals exfalso
  · exact h'.1 h.2.1
  · exact h'.2 h.2.2
  · exact hbases h'.2 h.2.1
  · exact hweak h'.2.1 h.2.1
  · exact h.1 h'.2.1
  · exact h.1 h'.1
  · exact h.2 h'.1
  · exact h.2 h'.1
  · exact h.2 h'.2.2
  · exact h'.1 h.1
  · exact hbases h'.2 h.1
  · exact hweak h'.2.1 h.1
  · exact hbases h.2 h'.2.1
  · exact h'.2 h.1
  · exact hbases h.2 h'.1
  · exact h.2.elim (fun ha => h'.2.1 ha.to_reflTransGen) fun ha => h'.2.2 ha.to_reflTransGen
  · exact hweak h.2.1 h'.2.1
  · exact h'.2 h.1
  · exact hweak h.2.1 h'.1
  · exact h'.2.elim (fun ha => h.2.1 ha.to_reflTransGen) fun ha => h.2.2 ha.to_reflTransGen

/-! ## §3. The loop over the terminii. -/

/-- A terminus on another branch is passed over. -/
theorem relateTerminii_siblings {b t : Nat} {ts : List Nat} {rel : RelType}
    (hres : DepthFirstRelation.compareHierarchical db (.link t) (.link b) = some (d, rel))
    (hrel : rel ≠ .equal ∧ rel ≠ .leftIsAncestor ∧ rel ≠ .rightIsAncestor) :
    relateTerminii db b (t :: ts) = relateTerminii db b ts := by
  rw [relateTerminii, hres]
  obtain ⟨hequal, hleft, hright⟩ := hrel
  cases rel with
  | equal => exact absurd rfl hequal
  | leftIsAncestor => exact absurd rfl hleft
  | rightIsAncestor => exact absurd rfl hright
  | _ => rfl

/-- **The loop** finds a terminus at or above the base below, when there is one. -/
theorem relateTerminii_spec {b : Nat} (hb : b ∈ db.rows.keys) {ts : List Nat}
    (hts : ∀ t ∈ ts, t ∈ db.rows.keys)
    (hapart : ∀ t ∈ ts, ∀ u ∈ ts, ¬ db.Ancestor t u) :
    ∃ rel, relateTerminii db b ts = some rel
      ∧ ((∃ t ∈ ts, db.WeakDescendant t b) → rel = .distinctSubtree)
      ∧ ((∀ t ∈ ts, ¬ db.WeakDescendant t b) → rel = .overlapGeneral) := by
  induction ts with
  | nil =>
      refine ⟨.overlapGeneral, rfl, ?_, fun _ => rfl⟩
      rintro ⟨t, ht, _⟩
      exact absurd ht (by simp)
  | cons t ts ih =>
      obtain ⟨ht, hts'⟩ := List.forall_mem_cons.mp hts
      obtain ⟨d, rel, hres, hcompared⟩ := exists_linksCompared ht hb
      cases hcompared with
      | equal h =>
          refine ⟨.distinctSubtree, by rw [relateTerminii, hres]; rfl, fun _ => rfl, ?_⟩
          intro hnone
          exact absurd (h ▸ Relation.ReflTransGen.refl) (hnone t List.mem_cons_self)
      | above h =>
          refine ⟨.distinctSubtree, by rw [relateTerminii, hres]; rfl, fun _ => rfl, ?_⟩
          intro hnone
          exact absurd h.to_reflTransGen (hnone t List.mem_cons_self)
      | under h =>
          refine ⟨.overlapGeneral, by rw [relateTerminii, hres]; rfl, ?_, fun _ => rfl⟩
          rintro ⟨u, hu, hweak⟩
          -- `u` would be above `t`
          exact absurd (h.trans_right hweak) (hapart u hu t List.mem_cons_self)
      -- neither above nor below: the terminus says nothing
      | siblings hrel hx hy hd =>
          rw [relateTerminii_siblings hres hrel]
          obtain ⟨res, hres, hsub, hgen⟩ := ih hts' fun t ht u hu =>
            hapart t (List.mem_cons_of_mem _ ht) u (List.mem_cons_of_mem _ hu)
          refine ⟨res, hres, ?_, ?_⟩
          · rintro ⟨u, hu, hweak⟩
            rcases List.mem_cons.mp hu with rfl | hu
            · exact absurd hweak hx
            · exact hsub ⟨u, hu, hweak⟩
          · intro hnone
            exact hgen fun u hu => hnone u (List.mem_cons_of_mem _ hu)

/-- Nothing is told wrong but an empty zone at a link that the other zone covers. -/
def EmptyWithin (db : XTreeDatabase Nat Nat A) (z w : TreeZone) : Prop :=
  w.isEmpty = true ∧ w.base ≠ z.base ∧ z.Covers db w.base

/-- **A zone and a zone whose base is below its own**: the loop tells whether they have a
link in common, unless the zone below is empty. -/
theorem relateTerminii_zone (hz : ZoneOf db z) (hw : ZoneOf db w)
    (habove : db.Ancestor z.base w.base) :
    ∃ rel, relateTerminii db w.base z.terminii = some rel
      ∧ (z.Covers db w.base ∧ rel = .overlapGeneral
        ∨ ¬ z.Covers db w.base ∧ rel = .distinctSubtree)
      ∧ (DisjointZones db z w ↔ ¬ z.Covers db w.base ∨ w.isEmpty = true) := by
  -- an empty zone has its base for its terminus
  have hterminii : (∀ t ∈ z.terminii, t ∈ db.rows.keys)
      ∧ ∀ t ∈ z.terminii, ∀ u ∈ z.terminii, ¬ db.Ancestor t u := by
    rcases hz.2 with hempty | hvalid
    · rw [isEmpty_iff.mp hempty]
      simpa using ⟨hz.1, ancestor_irrefl hz.1⟩
    · refine ⟨fun t ht => (hvalid.below t ht).1, ?_⟩
      intro t ht u hu h
      have heq := hvalid.weak_eq ht hu h.to_reflTransGen
      exact ancestor_irrefl (hvalid.below t ht).1 (heq ▸ h)
  obtain ⟨rel, hrel, hsub, hgen⟩ := relateTerminii_spec hw.1 hterminii.1 hterminii.2
  refine ⟨rel, hrel, ?_, ?_⟩
  · by_cases hcovers : z.Covers db w.base
    · exact .inl ⟨hcovers, hgen hcovers.2⟩
    · refine .inr ⟨hcovers, hsub ?_⟩
      by_contra hnone
      refine hcovers ⟨habove.to_reflTransGen, ?_⟩
      intro t ht hweak
      exact hnone ⟨t, ht, hweak⟩
  · constructor
    · intro hdisjoint
      by_contra hboth
      rw [not_or, not_not] at hboth
      obtain ⟨hcovers, hne⟩ := hboth
      have hvalid : w.Valid db := hw.2.resolve_left hne
      exact hdisjoint w.base ⟨hcovers, hvalid.covers_base⟩
    · -- a link of both zones would be below the base and above no terminus
      rintro (hnot | hempty) x ⟨hx, hwx⟩
      · refine hnot ⟨habove.to_reflTransGen, ?_⟩
        intro t ht hweak
        exact hx.2 t ht (hweak.trans hwx.1)
      · exact not_covers_of_empty hempty x hwx

/-! ## §4. The relation is exact. -/

/-- **The answer for two zones**, both ways round: it is what holds of their links, and the
difference changes its sign. -/
def ToldExactly (db : XTreeDatabase Nat Nat A) (l r : TreeZone) : Prop :=
  ∃ d d' rel, TreeZoneRelation.compareHierarchical db l r = some (d, rel)
    ∧ TreeZoneRelation.compareHierarchical db r l = some (d', rel)
    ∧ (d < 0 ↔ 0 < d') ∧ (0 < d ↔ d' < 0)
    ∧ ∀ c, Classified db l r c ↔ c = rel

theorem Classified.symm {c : ZoneRelType} (h : Classified db l r c) : Classified db r l c := by
  have hdisjoint : DisjointZones db l r → DisjointZones db r l := fun h x hx => h x hx.symm
  have hdisjoint' : DisjointZones db r l → DisjointZones db l r := fun h x hx => h x hx.symm
  cases c with
  | equal => exact ⟨fun x => (h.1 x).symm, h.2.1.symm, h.2.2.symm⟩
  | overlapTerminii => exact ⟨h.1.symm, h.2.symm⟩
  | overlapGeneral => exact ⟨h.1.symm, fun hd => h.2 (hdisjoint' hd)⟩
  | distinctSubtree => exact ⟨hdisjoint h.1, h.2.symm⟩
  | distinctSiblings => exact ⟨hdisjoint h.1, h.2.2, h.2.1⟩

theorem ToldExactly.symm (h : ToldExactly db l r) : ToldExactly db r l := by
  obtain ⟨d, d', rel, hlr, hrl, hneg, hpos, hclass⟩ := h
  refine ⟨d', d, rel, hrl, hlr, hpos.symm, hneg.symm, ?_⟩
  intro c
  rw [← hclass]
  exact ⟨Classified.symm, Classified.symm⟩

/-- The difference of the terminii changes its sign. -/
theorem stlCompare3Way_swap (l r : List Nat) :
    (stlCompare3Way l r < 0 ↔ 0 < stlCompare3Way r l)
      ∧ (0 < stlCompare3Way l r ↔ stlCompare3Way r l < 0)
      ∧ (stlCompare3Way l r = 0 ↔ l = r) := by
  unfold stlCompare3Way
  rcases lt_trichotomy l r with h | h | h
  · simp [h, h.ne, h.ne', h.not_gt]
  · simp [h]
  · simp [h, h.ne, h.ne', h.not_gt]

/-- Zones at one base. -/
theorem toldExactly_of_base_eq (hl : ZoneOf db l) (hbase : l.base = r.base) :
    ToldExactly db l r := by
  have hself : ∀ x, DepthFirstRelation.compareHierarchical db (.link x) (.link x)
      = some (0, .equal) := by
    intro x
    unfold DepthFirstRelation.compareHierarchical
    exact if_pos rfl
  obtain ⟨hneg, hpos, hzero⟩ := stlCompare3Way_swap l.terminii r.terminii
  obtain ⟨_, _, hzero'⟩ := stlCompare3Way_swap r.terminii l.terminii
  by_cases hterm : l.terminii = r.terminii
  · refine ⟨_, _, .equal, ?_, ?_, hneg, hpos, ?_⟩
    · unfold TreeZoneRelation.compareHierarchical
      rw [hbase, hself]
      exact if_pos (hzero.mpr hterm)
    · unfold TreeZoneRelation.compareHierarchical
      rw [hbase, hself]
      exact if_pos (hzero'.mpr hterm.symm)
    · have hclass : Classified db l r .equal := ⟨covers_congr hbase hterm, hbase, hterm⟩
      exact fun c => ⟨fun h => h.unique hl hclass, fun h => h ▸ hclass⟩
  · refine ⟨_, _, .overlapTerminii, ?_, ?_, hneg, hpos, ?_⟩
    · unfold TreeZoneRelation.compareHierarchical
      rw [hbase, hself]
      exact if_neg fun h => hterm (hzero.mp h)
    · unfold TreeZoneRelation.compareHierarchical
      rw [hbase, hself]
      exact if_neg fun h => hterm (hzero'.mp h).symm
    · have hclass : Classified db l r .overlapTerminii := ⟨hbase, hterm⟩
      exact fun c => ⟨fun h => h.unique hl hclass, fun h => h ▸ hclass⟩

/-- Zones with one base above the other: both answers come from the loop. -/
theorem compareHierarchical_above (hl : ZoneOf db l) (hr : ZoneOf db r)
    (habove : db.Ancestor l.base r.base) {rel : ZoneRelType}
    (hrel : relateTerminii db r.base l.terminii = some rel) :
    TreeZoneRelation.compareHierarchical db l r = some (-1, rel)
      ∧ TreeZoneRelation.compareHierarchical db r l = some (1, rel) := by
  have hne : l.base ≠ r.base := fun h => ancestor_irrefl hl.1 (h ▸ habove)
  have hnot : ¬ db.Ancestor r.base l.base := fun h => ancestor_irrefl hl.1 (habove.trans h)
  unfold TreeZoneRelation.compareHierarchical
  refine ⟨?_, ?_⟩
  · obtain ⟨d, res, hres, hcompared⟩ := exists_linksCompared hl.1 hr.1
    rw [hres]
    -- the bases are compared first
    cases hcompared with
    | equal h => exact absurd h hne
    | above h =>
        dsimp only [Option.bind_eq_bind, Option.bind_some]
        rw [hrel]
        rfl
    | under h => exact absurd h hnot
    | siblings hrel hx hy hd => exact absurd habove.to_reflTransGen hx
  · obtain ⟨d, res, hres, hcompared⟩ := exists_linksCompared hr.1 hl.1
    rw [hres]
    cases hcompared with
    | equal h => exact absurd h.symm hne
    | above h => exact absurd h hnot
    | under h =>
        dsimp only [Option.bind_eq_bind, Option.bind_some]
        rw [hrel]
        rfl
    | siblings hrel hx hy hd => exact absurd habove.to_reflTransGen hy

/-- Of these, all are told exactly but an empty zone at a link that the zone above covers. -/
theorem toldExactly_of_above (hl : ZoneOf db l) (hr : ZoneOf db r)
    (habove : db.Ancestor l.base r.base) : ToldExactly db l r ↔ ¬ EmptyWithin db l r := by
  have hne : l.base ≠ r.base := fun h => ancestor_irrefl hl.1 (h ▸ habove)
  obtain ⟨rel, hrel, hwhich, hdisjoint⟩ := relateTerminii_zone hl hr habove
  obtain ⟨hlr, hrl⟩ := compareHierarchical_above hl hr habove hrel
  constructor
  · rintro ⟨d, d', rel', hlr', _, _, _, hclass⟩ ⟨hempty, _, hcovers⟩
    rw [hlr] at hlr'
    cases hlr'
    -- the loop says that the zones overlap
    obtain ⟨_, rfl⟩ := hwhich.resolve_right fun h => h.1 hcovers
    have hgeneral : Classified db l r .overlapGeneral := (hclass _).mpr rfl
    exact hgeneral.2 (hdisjoint.mpr (.inr hempty))
  · intro hnot
    have hclass : Classified db l r rel := by
      rcases hwhich with ⟨hcovers, rfl⟩ | ⟨hout, rfl⟩
      · refine ⟨hne, fun hd => ?_⟩
        rcases hdisjoint.mp hd with hout | hempty
        · exact hout hcovers
        · exact hnot ⟨hempty, hne.symm, hcovers⟩
      · exact ⟨hdisjoint.mpr (.inl hout), .inl habove⟩
    refine ⟨-1, 1, rel, hlr, hrl, by simp, by simp, ?_⟩
    exact fun c => ⟨fun h => h.unique hl hclass, fun h => h ▸ hclass⟩

/-- Zones on different branches. -/
theorem toldExactly_of_siblings (hl : ZoneOf db l) (hr : ZoneOf db r)
    (hlr : ¬ db.WeakDescendant l.base r.base) (hrl : ¬ db.WeakDescendant r.base l.base) :
    ToldExactly db l r := by
  -- the two ways round are one computation
  have hone : ∀ z w : TreeZone, z.base ∈ db.rows.keys → w.base ∈ db.rows.keys →
      ¬ db.WeakDescendant z.base w.base → ¬ db.WeakDescendant w.base z.base →
      ∃ d, TreeZoneRelation.compareHierarchical db z w = some (d, .distinctSiblings)
        ∧ (d < 0 ∧ DFBefore db z.base w.base ∨ 0 < d ∧ DFBefore db w.base z.base) := by
    intro z w hz hw hzw hwz
    obtain ⟨d, res, hres, hcompared⟩ := exists_linksCompared hz hw
    unfold TreeZoneRelation.compareHierarchical
    rw [hres]
    cases hcompared with
    | equal h => exact absurd (h ▸ Relation.ReflTransGen.refl) hzw
    | above h => exact absurd h.to_reflTransGen hzw
    | under h => exact absurd h.to_reflTransGen hwz
    | siblings hrel hx hy hd =>
        refine ⟨d, ?_, hd⟩
        obtain ⟨hequal, hleft, hright⟩ := hrel
        cases res with
        | equal => exact absurd rfl hequal
        | leftIsAncestor => exact absurd rfl hleft
        | rightIsAncestor => exact absurd rfl hright
        | _ => rfl
  obtain ⟨d, hres, hd⟩ := hone l r hl.1 hr.1 hlr hrl
  obtain ⟨d', hres', hd'⟩ := hone r l hr.1 hl.1 hrl hlr
  have hclass : Classified db l r .distinctSiblings :=
    ⟨disjoint_of_apart hl.1 hr.1 hlr hrl, hlr, hrl⟩
  refine ⟨d, d', .distinctSiblings, hres, hres', ?_, ?_, ?_⟩
  · rcases hd with ⟨hd, hb⟩ | ⟨hd, hb⟩ <;> rcases hd' with ⟨hd', hb'⟩ | ⟨hd', hb'⟩
    · exact absurd hb' hb.asymm
    · exact iff_of_true hd hd'
    · exact iff_of_false (by omega) (by omega)
    · exact absurd hb' hb.asymm
  · rcases hd with ⟨hd, hb⟩ | ⟨hd, hb⟩ <;> rcases hd' with ⟨hd', hb'⟩ | ⟨hd', hb'⟩
    · exact absurd hb' hb.asymm
    · exact iff_of_false (by omega) (by omega)
    · exact iff_of_true hd hd'
    · exact absurd hb' hb.asymm
  · exact fun c => ⟨fun h => h.unique hl hclass, fun h => h ▸ hclass⟩

/-- **The classification is exact**, and symmetric, unless one of the zones is empty and
stands at a link that the other covers below its base. -/
theorem compareHierarchical_exact (hl : ZoneOf db l) (hr : ZoneOf db r) :
    ToldExactly db l r ↔ ¬ EmptyWithin db l r ∧ ¬ EmptyWithin db r l := by
  have hbelow : ∀ {z w : TreeZone}, EmptyWithin db z w → db.Ancestor z.base w.base := by
    rintro z w ⟨_, hne, hcovers⟩
    exact (weak_iff.mp hcovers.1).resolve_left hne
  by_cases hbase : l.base = r.base
  · refine iff_of_true (toldExactly_of_base_eq hl hbase) ⟨?_, ?_⟩
    · exact fun h => h.2.1 hbase.symm
    · exact fun h => h.2.1 hbase
  by_cases hlr : db.WeakDescendant l.base r.base
  · have habove := (weak_iff.mp hlr).resolve_left (Ne.symm hbase)
    rw [toldExactly_of_above hl hr habove]
    refine ⟨fun h => ⟨h, fun h' => ?_⟩, fun h => h.1⟩
    exact ancestor_irrefl hl.1 (habove.trans (hbelow h'))
  by_cases hrl : db.WeakDescendant r.base l.base
  · have habove := (weak_iff.mp hrl).resolve_left hbase
    have htold : ToldExactly db l r ↔ ToldExactly db r l :=
      ⟨ToldExactly.symm, ToldExactly.symm⟩
    rw [htold, toldExactly_of_above hr hl habove]
    refine ⟨fun h => ⟨fun h' => ?_, h⟩, fun h => h.2⟩
    exact ancestor_irrefl hr.1 (habove.trans (hbelow h'))
  · refine iff_of_true (toldExactly_of_siblings hl hr hlr hrl) ⟨?_, ?_⟩
    · exact fun h => hlr (hbelow h).to_reflTransGen
    · exact fun h => hrl (hbelow h).to_reflTransGen

theorem twoBranches_links : [Item.sequence [1, 2]].flatMap Item.links = List.range' 1 2 := rfl

/-- A root with two leaves. -/
def twoBranches : Layout := ⟨[.sequence [1, 2]], 2, twoBranches_links⟩

/-- **The zone of the whole tree and the empty zone at a leaf** are told to overlap. -/
theorem emptyZone_toldToOverlap :
    TreeZoneRelation.compareHierarchical (flatDatabase twoBranches) ⟨0, [], 0⟩ ⟨1, [1], 0⟩
        = some (-1, .overlapGeneral)
      ∧ DisjointZones (flatDatabase twoBranches) ⟨0, [], 0⟩ ⟨1, [1], 0⟩
      ∧ ¬ ToldExactly (flatDatabase twoBranches) ⟨0, [], 0⟩ ⟨1, [1], 0⟩ := by
  have hrun : TreeZoneRelation.compareHierarchical (flatDatabase twoBranches) ⟨0, [], 0⟩
      ⟨1, [1], 0⟩ = some (-1, .overlapGeneral) := by decide
  have hdisjoint : DisjointZones (flatDatabase twoBranches) ⟨0, [], 0⟩ ⟨1, [1], 0⟩ :=
    fun x hx => not_covers_of_empty rfl x hx.2
  refine ⟨hrun, hdisjoint, ?_⟩
  rintro ⟨d, d', rel, hres, _, _, _, hclass⟩
  rw [hrun] at hres
  cases hres
  exact ((hclass .overlapGeneral).mpr rfl).2 hdisjoint

theorem compareHierarchical_exact_twoBranches :
    ToldExactly (flatDatabase twoBranches) ⟨0, [1], 0⟩ ⟨1, [], 0⟩ := by
  have hroot : 0 ∈ (flatDatabase twoBranches).rows.keys := by decide
  have hleaf : 1 ∈ (flatDatabase twoBranches).rows.keys := by decide
  have habove : (flatDatabase twoBranches).Ancestor 0 1 := by
    refine Relation.TransGen.single ⟨hroot, 0, 0, .sequence [1, 2], 0, ?_⟩
    exact ⟨rfl, by decide, by decide, by decide⟩
  have hl : ZoneOf (flatDatabase twoBranches) ⟨0, [1], 0⟩ :=
    ⟨hroot, .inr ⟨hroot, by simpa using ⟨hleaf, habove⟩, List.pairwise_singleton _ _⟩⟩
  have hr : ZoneOf (flatDatabase twoBranches) ⟨1, [], 0⟩ :=
    ⟨hleaf, .inr ⟨hleaf, by simp, List.Pairwise.nil⟩⟩
  refine (compareHierarchical_exact hl hr).mpr ⟨?_, ?_⟩
  · exact fun h => absurd h.1 (by decide)
  · exact fun h => absurd h.1 (by decide)

end Inferno.UP
