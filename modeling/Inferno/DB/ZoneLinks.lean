/-
  Inferno.DB.ZoneLinks
  ────────────────────
  The links of a tree zone.

    • `LinksCompared`  — what `DepthFirstRelation` says of two links, case by case,
    • `weak_comparable`, `before_of_apart` — descent and the depth-first order,
    • `Covers`, `Inside` — the links of a zone, and those that are not at its boundary,
    • `Valid`          — what `TreeZone::Validate` asserts of a zone that is not empty,
    • `equal_or_disjoint` — zones with no boundary inside each other.
-/
import Inferno.DB.Descent
import Inferno.DB.TreeZone

namespace Inferno.DB

open Inferno.Common Inferno.Lib.PathOrder

/-! ## §1. Comparisons of links. -/

section

variable {L N A : Type} [LinearOrder L] {db : XTreeDatabase L N A} {x y z a b : L}

/-- **What a comparison says of two links.** -/
inductive LinksCompared (db : XTreeDatabase L N A) (x y : L) : Int → RelType → Prop where
  | equal (h : x = y) : LinksCompared db x y 0 .equal
  | above (h : db.Ancestor x y) : LinksCompared db x y (-1) .leftIsAncestor
  | under (h : db.Ancestor y x) : LinksCompared db x y 1 .rightIsAncestor
  | siblings {d : Int} {rel : RelType}
      (hrel : rel ≠ .equal ∧ rel ≠ .leftIsAncestor ∧ rel ≠ .rightIsAncestor)
      (hx : ¬ db.WeakDescendant x y) (hy : ¬ db.WeakDescendant y x)
      (hd : d < 0 ∧ DFBefore db x y ∨ 0 < d ∧ DFBefore db y x) : LinksCompared db x y d rel

theorem Position.dfBefore_iff {P Q : List Step} (hx : Position db x P) (hy : Position db y Q) :
    DFBefore db x y ↔ P < Q := by
  obtain ⟨d, hd, hlt, _⟩ := DepthFirstRelation.compare3Way_total hx hy
  constructor
  · rintro ⟨e, he, hneg⟩
    rw [hd] at he
    cases he
    exact hlt.mp hneg
  · intro h
    exact ⟨d, hd, hlt.mpr h⟩

/-- **Two links of the database compare.** -/
theorem exists_linksCompared (hx : x ∈ db.rows.keys) (hy : y ∈ db.rows.keys) : ∃ d rel,
    DepthFirstRelation.compareHierarchical db (.link x) (.link y) = some (d, rel)
      ∧ LinksCompared db x y d rel := by
  obtain ⟨P, hP⟩ := Position.exists_of_mem hx
  obtain ⟨Q, hQ⟩ := Position.exists_of_mem hy
  obtain ⟨d, rel, hres, hneg, hpos, _⟩ := exists_compareHierarchical hx hy
  refine ⟨d, rel, hres, ?_⟩
  have hcompared := DepthFirstRelation.compareHierarchical_spec hP hQ hres
  cases hcompared with
  | equal h =>
      subst h
      exact .equal (hP.injective hQ)
  | above h hne => exact .above ((ancestor_iff hP hQ).mpr ⟨h, hne⟩)
  | under h hne => exact .under ((ancestor_iff hQ hP).mpr ⟨h, Ne.symm hne⟩)
  | siblings hp hq h hrel =>
      have hab := h.elim (fun h => h.2.ne) fun h => h.2.ne'
      refine .siblings hrel ?_ ?_ ?_
      · rw [weakDescendant_iff hP hQ, hp, hq]
        exact not_prefix_of_branch hab
      · rw [weakDescendant_iff hQ hP, hp, hq]
        exact not_prefix_of_branch hab.symm
      · rcases h with ⟨hd, _⟩ | ⟨hd, _⟩
        · exact .inl ⟨hd, hneg.mp hd⟩
        · exact .inr ⟨hd, hpos.mp hd⟩

/-! ## §2. Descent and the order. -/

theorem DFBefore.irrefl (x : L) : ¬ DFBefore db x x :=
  (DepthFirstRelation.compare3Way_threeWay db).irrefl _

theorem DFBefore.asymm (h : DFBefore db x y) : ¬ DFBefore db y x :=
  (DepthFirstRelation.compare3Way_threeWay db).asymm h

theorem DFBefore.trans (h : DFBefore db x y) (h' : DFBefore db y z) : DFBefore db x z :=
  (DepthFirstRelation.compare3Way_threeWay db).trans _ _ _ h h'

theorem DFBefore.total (hx : x ∈ db.rows.keys) (hy : y ∈ db.rows.keys) :
    DFBefore db x y ∨ x = y ∨ DFBefore db y x := by
  obtain ⟨d, rel, _, hneg, hpos, hzero, _⟩ := exists_compareHierarchical hx hy
  rcases lt_trichotomy d 0 with hd | hd | hd
  · exact .inl (hneg.mp hd)
  · exact .inr (.inl (hzero.mp hd))
  · exact .inr (.inr (hpos.mp hd))

omit [LinearOrder L] in
/-- What is below a link of the database is one. -/
theorem weak_mem_keys (hx : x ∈ db.rows.keys) (h : db.WeakDescendant x y) :
    y ∈ db.rows.keys := by
  unfold XTreeDatabase.WeakDescendant at h
  induction h with
  | refl => exact hx
  | tail _ hparent _ =>
      obtain ⟨hkeys, node, i, item, k, hplace⟩ := hparent
      obtain ⟨q, hq⟩ := Position.exists_of_mem hkeys
      exact (hq.child hplace).mem_keys

omit [LinearOrder L] in
/-- A link is not its own ancestor. -/
theorem ancestor_irrefl (hx : x ∈ db.rows.keys) : ¬ db.Ancestor x x := by
  obtain ⟨P, hP⟩ := Position.exists_of_mem hx
  intro h
  exact ((ancestor_iff hP hP).mp h).2 rfl

omit [LinearOrder L] in
theorem weak_iff : db.WeakDescendant x y ↔ y = x ∨ db.Ancestor x y :=
  Relation.reflTransGen_iff_eq_or_transGen

omit [LinearOrder L] in
theorem weak_antisymm (hx : x ∈ db.rows.keys) (h : db.WeakDescendant x y)
    (h' : db.WeakDescendant y x) : x = y := by
  rcases weak_iff.mp h with heq | habove
  · exact heq.symm
  · exact absurd (habove.trans_left h') (ancestor_irrefl hx)

omit [LinearOrder L] in
/-- The links above a link are a chain. -/
theorem weak_comparable (hx : x ∈ db.rows.keys) (ha : db.WeakDescendant a x)
    (hb : db.WeakDescendant b x) (hak : a ∈ db.rows.keys) (hbk : b ∈ db.rows.keys) :
    db.WeakDescendant a b ∨ db.WeakDescendant b a := by
  obtain ⟨P, hP⟩ := Position.exists_of_mem hx
  obtain ⟨Q, hQ⟩ := Position.exists_of_mem hak
  obtain ⟨R, hR⟩ := Position.exists_of_mem hbk
  rw [weakDescendant_iff hQ hR, weakDescendant_iff hR hQ]
  exact List.prefix_or_prefix_of_prefix ((weakDescendant_iff hQ hP).mp ha)
    ((weakDescendant_iff hR hP).mp hb)

/-- An ancestor comes before. -/
theorem before_of_ancestor (hx : x ∈ db.rows.keys) (h : db.Ancestor x y) : DFBefore db x y := by
  obtain ⟨P, hP⟩ := Position.exists_of_mem hx
  obtain ⟨Q, hQ⟩ := Position.exists_of_mem (weak_mem_keys hx h.to_reflTransGen)
  obtain ⟨hpre, hne⟩ := (ancestor_iff hP hQ).mp h
  exact (hP.dfBefore_iff hQ).mpr (lt_below hpre hne)

theorem not_before_of_weak (hx : x ∈ db.rows.keys) (h : db.WeakDescendant x y) :
    ¬ DFBefore db y x := by
  rcases weak_iff.mp h with rfl | habove
  · exact DFBefore.irrefl _
  · exact (before_of_ancestor hx habove).asymm

/-- What comes after a link and is not below it comes after all that is. -/
theorem before_of_apart (hx : x ∈ db.rows.keys) (hy : y ∈ db.rows.keys) (h : DFBefore db x y)
    (hxy : ¬ db.WeakDescendant x y) (ha : db.WeakDescendant x a) : DFBefore db a y := by
  obtain ⟨P, hP⟩ := Position.exists_of_mem hx
  obtain ⟨Q, hQ⟩ := Position.exists_of_mem hy
  obtain ⟨R, hR⟩ := Position.exists_of_mem (weak_mem_keys hx ha)
  obtain ⟨s, rfl⟩ := (weakDescendant_iff hP hR).mp ha
  rw [weakDescendant_iff hP hQ] at hxy
  exact (hR.dfBefore_iff hQ).mpr (append_lt ((hP.dfBefore_iff hQ).mp h) hxy)

end

/-! ## §3. Zones. -/

namespace TreeZone

variable {A : Type} {db : XTreeDatabase Nat Nat A} {z w : TreeZone} {x b : Nat}

/-- The base and the terminii. -/
def boundaries (z : TreeZone) : List Nat := z.base :: z.terminii

/-- A link of the zone. -/
def Covers (db : XTreeDatabase Nat Nat A) (z : TreeZone) (x : Nat) : Prop :=
  db.WeakDescendant z.base x ∧ ∀ t ∈ z.terminii, ¬ db.WeakDescendant t x

/-- A link of the zone that is not its base. -/
def Inside (db : XTreeDatabase Nat Nat A) (z : TreeZone) (x : Nat) : Prop :=
  db.Ancestor z.base x ∧ ∀ t ∈ z.terminii, ¬ db.WeakDescendant t x

/-- **A zone that is not empty**, as `TreeZone::Validate` has it. -/
structure Valid (db : XTreeDatabase Nat Nat A) (z : TreeZone) : Prop where
  base : z.base ∈ db.rows.keys
  below : ∀ t ∈ z.terminii, t ∈ db.rows.keys ∧ db.Ancestor z.base t
  apart : z.terminii.Pairwise fun t u => DFBefore db t u ∧ ¬ db.Ancestor t u

theorem isEmpty_iff : z.isEmpty = true ↔ z.terminii = [z.base] := by
  unfold isEmpty
  rw [decide_eq_true_eq]

theorem Inside.covers (h : z.Inside db x) : z.Covers db x :=
  ⟨h.1.to_reflTransGen, h.2⟩

theorem covers_iff (hbase : z.Covers db z.base) :
    z.Covers db x ↔ x = z.base ∨ z.Inside db x := by
  constructor
  · rintro ⟨hweak, hout⟩
    exact (weak_iff.mp hweak).imp id fun habove => ⟨habove, hout⟩
  · rintro (rfl | h)
    · exact hbase
    · exact h.covers

namespace Valid

variable (hz : z.Valid db)

include hz

/-- No terminus is below another, or the same one. -/
theorem weak_eq {t u : Nat} (ht : t ∈ z.terminii) (hu : u ∈ z.terminii)
    (h : db.WeakDescendant t u) : t = u := by
  rcases weak_iff.mp h with heq | habove
  · exact heq.symm
  · by_contra hne
    have hsymm : Std.Symm fun t u => ¬ db.Ancestor t u ∧ ¬ db.Ancestor u t :=
      ⟨fun t u h => h.symm⟩
    have happart : z.terminii.Pairwise fun t u => ¬ db.Ancestor t u ∧ ¬ db.Ancestor u t := by
      refine hz.apart.imp_of_mem ?_
      intro t u _ hu htu
      refine ⟨htu.2, fun habove => ?_⟩
      exact htu.1.asymm (before_of_ancestor (hz.below u hu).1 habove)
    exact (happart.forall ht hu hne).1 habove

theorem covers_base : z.Covers db z.base := by
  refine ⟨Relation.ReflTransGen.refl, ?_⟩
  intro t ht hweak
  exact ancestor_irrefl hz.base ((hz.below t ht).2.trans_left hweak)

theorem not_empty : z.isEmpty = false := by
  rw [Bool.eq_false_iff]
  intro hempty
  have hbase : z.base ∈ z.terminii := by
    rw [isEmpty_iff.mp hempty]
    exact List.mem_singleton.mpr rfl
  exact ancestor_irrefl hz.base (hz.below _ hbase).2

end Valid

/-- A zone has the base of another when it covers a link of the other, from above. -/
theorem base_eq_of_covers (hx : z.Covers db x)
    (hwx : w.Covers db x) (hzw : db.WeakDescendant z.base w.base)
    (hnot : ¬ z.Inside db w.base) : w.base = z.base := by
  rcases weak_iff.mp hzw with heq | habove
  · exact heq
  · refine absurd ⟨habove, ?_⟩ hnot
    intro t ht hweak
    exact hx.2 t ht (hweak.trans hwx.1)

/-- Of two zones with one base, the second covers what the first does when it has no
terminus inside. -/
theorem covers_of_covers (hw : w.Valid db) (hbase : w.base = z.base) (hx : z.Covers db x)
    (hnot : ∀ u ∈ w.terminii, ¬ z.Inside db u) : w.Covers db x := by
  refine ⟨?_, ?_⟩
  · rw [hbase]
    exact hx.1
  · intro u hu hweak
    refine hnot u hu ⟨?_, ?_⟩
    · rw [← hbase]
      exact (hw.below u hu).2
    · intro t ht htu
      exact hx.2 t ht (htu.trans hweak)

/-- **Zones with no boundary inside each other are equal or disjoint.** -/
theorem equal_or_disjoint (hz : z.Valid db) (hw : w.Valid db)
    (hzw : ∀ b ∈ w.boundaries, ¬ z.Inside db b) (hwz : ∀ b ∈ z.boundaries, ¬ w.Inside db b) :
    (∀ x, z.Covers db x ↔ w.Covers db x) ∨ ∀ x, ¬ (z.Covers db x ∧ w.Covers db x) := by
  by_cases hboth : ∃ x, z.Covers db x ∧ w.Covers db x
  · obtain ⟨x, hx, hwx⟩ := hboth
    have hbase : w.base = z.base := by
      rcases weak_comparable (weak_mem_keys hz.base hx.1) hx.1 hwx.1 hz.base hw.base with h | h
      · exact base_eq_of_covers hx hwx h (hzw _ List.mem_cons_self)
      · exact (base_eq_of_covers hwx hx h (hwz _ List.mem_cons_self)).symm
    refine .inl fun y => ⟨fun hy => ?_, fun hy => ?_⟩
    · exact covers_of_covers hw hbase hy fun u hu => hzw u (List.mem_cons_of_mem _ hu)
    · exact covers_of_covers hz hbase.symm hy fun u hu => hwz u (List.mem_cons_of_mem _ hu)
  · exact .inr fun x h => hboth ⟨x, h⟩

end TreeZone

end Inferno.DB
