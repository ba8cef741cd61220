/-
  Inferno.DB.Descent
  ──────────────────
  Ancestors and descendants among the links of the database.

    • `Parent`, `WeakDescendant`, `Ancestor` — by the nodes that hold the links,
    • `weakDescendant_iff`  — descent is extending a position,
    • `exists_compareHierarchical` — what the comparison of two links returns,
    • `getLastDescendantXLink_isSome` — the search for the last descendant returns,
    • `weakDescendant_iff_between`    — the descendants of a link are the links from it
                                        to its last descendant, depth first.
-/
import Inferno.DB.DFTotal

namespace Inferno.DB

open Inferno.Common Inferno.Lib.PathOrder

variable {L N A : Type} {db : XTreeDatabase L N A} {x y z : L} {P Q : List Step}

/-! ## §1. Descent. -/

namespace XTreeDatabase

/-- `y` is a link with a row, and `x` a non-null link of its node. -/
def Parent (db : XTreeDatabase L N A) (y x : L) : Prop :=
  y ∈ db.rows.keys ∧ ∃ node i item k, db.Place y node i item k x

/-- `y` is `x` or a descendant of `x`. -/
def WeakDescendant (db : XTreeDatabase L N A) (x y : L) : Prop :=
  Relation.ReflTransGen db.Parent x y

/-- `x` is an ancestor of `y`. -/
def Ancestor (db : XTreeDatabase L N A) (x y : L) : Prop :=
  Relation.TransGen db.Parent x y

end XTreeDatabase

open XTreeDatabase

/-- A parent is one step above. -/
theorem Position.of_parent (hx : Position db x P) (h : db.Parent y x) :
    ∃ q a, Position db y q ∧ P = q ++ [a] := by
  obtain ⟨hy, node, i, item, k, hplace⟩ := h
  obtain ⟨q, hq⟩ := Position.exists_of_mem hy
  exact ⟨q, _, hq, hx.unique (hq.child hplace)⟩

/-- A link one step below a link has its place in its node. -/
theorem Position.place_of_snoc {a : Step} (hy : Position db y Q)
    (hx : Position db x (Q ++ [a])) :
    ∃ node i item k, db.Place y node i item k x ∧ a = stepTo i item k := by
  generalize hP : Q ++ [a] = P at hx
  cases hx with
  | root h =>
      have hlen := congrArg List.length hP
      have hpos := List.length_pos_of_ne_nil hy.ne_nil
      simp only [List.length_append, List.length_singleton] at hlen
      omega
  | child hy' hplace =>
      obtain ⟨hq, ha⟩ := List.append_inj' hP rfl
      rw [hy.injective (hq ▸ hy')]
      exact ⟨_, _, _, _, hplace, List.singleton_inj.mp ha⟩

theorem Position.parent_of_snoc {a : Step} (hy : Position db y Q)
    (hx : Position db x (Q ++ [a])) : db.Parent y x := by
  obtain ⟨node, i, item, k, hplace, _⟩ := hy.place_of_snoc hx
  exact ⟨hy.mem_keys, node, i, item, k, hplace⟩

/-- Every path at or above a position, but the empty one, is a position. -/
theorem Position.exists_above_of_prefix (hx : Position db x P) (hpre : Q <+: P) (hne : Q ≠ []) :
    ∃ y, Position db y Q := by
  induction hx with
  | @root o x h =>
      have hQ : Q = [toLex (o, -1)] := by
        rcases List.prefix_concat_iff.mp (show Q <+: [] ++ [toLex (o, -1)] from hpre) with heq | h
        · exact heq
        · exact absurd (List.prefix_nil.mp h) hne
      exact ⟨x, hQ ▸ .root h⟩
  | @child y x p node i k item hy hplace ih =>
      rcases List.prefix_concat_iff.mp hpre with heq | hpre
      · exact ⟨x, heq ▸ hy.child hplace⟩
      · exact ih hpre

/-- **Descent is extending a position.** -/
theorem weakDescendant_iff (hx : Position db x P) (hy : Position db y Q) :
    db.WeakDescendant x y ↔ P <+: Q := by
  constructor
  · intro h
    unfold WeakDescendant at h
    induction h generalizing Q with
    | refl => exact hx.unique hy ▸ List.prefix_refl P
    | tail _ hparent ih =>
        obtain ⟨q, a, hq, rfl⟩ := hy.of_parent hparent
        exact (ih hq).trans (List.prefix_append q [a])
  · intro hpre
    obtain ⟨p, rfl⟩ := hpre
    -- by induction on the path below, from its last step
    induction p using List.reverseRecOn generalizing y with
    | nil =>
        rw [List.append_nil] at hy
        rw [hx.injective hy]
        exact Relation.ReflTransGen.refl
    | append_singleton p a ih =>
        rw [← List.append_assoc] at hy
        obtain ⟨z, hz⟩ := hy.exists_above_of_prefix (List.prefix_append (P ++ p) [a]) (by
          simp [hx.ne_nil])
        exact (ih hz).tail (hz.parent_of_snoc hy)

theorem ancestor_iff (hx : Position db x P) (hy : Position db y Q) :
    db.Ancestor x y ↔ P <+: Q ∧ P ≠ Q := by
  constructor
  · intro h
    obtain ⟨z, hxz, hzy⟩ := Relation.TransGen.tail'_iff.mp h
    obtain ⟨q, a, hq, rfl⟩ := hy.of_parent hzy
    have hpre := (weakDescendant_iff hx hq).mp hxz
    refine ⟨hpre.trans (List.prefix_append q [a]), ?_⟩
    rintro rfl
    have hlen := hpre.length_le
    rw [List.length_append, List.length_singleton] at hlen
    omega
  · intro h
    obtain ⟨hpre, hne⟩ := h
    rcases Relation.reflTransGen_iff_eq_or_transGen.mp ((weakDescendant_iff hx hy).mpr hpre) with
      heq | htrans
    · exact absurd (hx.unique (heq ▸ hy)) hne
    · exact htrans

/-! ## §2. Comparisons of links. -/

/-- A link is before another: `DepthFirstRelation`'s less operator. -/
def DFBefore [LinearOrder L] (db : XTreeDatabase L N A) (x y : L) : Prop :=
  Inferno.Lib.Below (DepthFirstRelation.compare3Way db) (.link x) (.link y)

/-- **Two links of the database compare**, and the kind tells equality and ancestry. -/
theorem exists_compareHierarchical [LinearOrder L] (hx : x ∈ db.rows.keys)
    (hy : y ∈ db.rows.keys) : ∃ d rel,
      DepthFirstRelation.compareHierarchical db (.link x) (.link y) = some (d, rel)
        ∧ (d < 0 ↔ DFBefore db x y) ∧ (0 < d ↔ DFBefore db y x) ∧ (d = 0 ↔ x = y)
        ∧ (rel = .equal ↔ x = y) ∧ (rel = .leftIsAncestor ↔ db.Ancestor x y) := by
  obtain ⟨P, hP⟩ := Position.exists_of_mem hx
  obtain ⟨Q, hQ⟩ := Position.exists_of_mem hy
  obtain ⟨d, hd, _⟩ := DepthFirstRelation.compare3Way_total hP hQ
  obtain ⟨⟨d', rel⟩, hres, heq⟩ := Option.map_eq_some_iff.mp hd
  obtain rfl : d' = d := heq
  have hthree := DepthFirstRelation.compare3Way_threeWay db
  have hcompared := DepthFirstRelation.compareHierarchical_spec hP hQ hres
  refine ⟨d', rel, hres, ?_, ?_, ?_, ?_, ?_⟩
  · -- the sign of the comparison is the order, both ways round
    constructor
    · intro hneg
      exact ⟨d', hd, hneg⟩
    · rintro ⟨e, he, hneg⟩
      rw [hd] at he
      exact Option.some.inj he ▸ hneg
  · constructor
    · intro hpos
      exact (hthree.swap _ _).mp ⟨d', hd, hpos⟩
    · intro h
      obtain ⟨e, he, hpos⟩ := (hthree.swap _ _).mpr h
      rw [hd] at he
      exact Option.some.inj he ▸ hpos
  · have hzero := hthree.zero_iff (.link x) (.link y)
    rw [hd, Option.some.injEq, XLink.link.injEq] at hzero
    exact hzero
  · -- the kinds are those of the positions
    rw [hcompared.equal_iff]
    constructor
    · rintro rfl
      exact hP.injective hQ
    · rintro rfl
      exact hP.unique hQ
  · rw [hcompared.leftIsAncestor_iff, ancestor_iff hP hQ]

/-! ## §3. The last descendant. -/

/-- **The search for the last descendant returns**: each step of it is one link deeper. -/
theorem getLastDescendantXLink_isSome [LinearOrder L] (fuel : Nat) : ∀ {x : L} {P : List Step},
    Position db x P → db.rows.keys.card < P.length + fuel →
      ∃ last, db.toXTrees.getLastDescendantXLink fuel x = some last := by
  induction fuel with
  | zero =>
      intro x P hx hfuel
      have hlen := hx.length_le_card
      omega
  | succ fuel ih =>
      intro x P hx hfuel
      obtain ⟨node, hchild⟩ := Option.isSome_iff_exists.mp (db.row_nonnull x hx.mem_keys)
      unfold XTrees.getLastDescendantXLink
      rw [hchild]
      dsimp only [Option.bind_eq_bind, Option.bind_some]
      cases hlast : db.toXTrees.lastChild node with
      | none => exact ⟨x, rfl⟩
      | some l =>
          obtain ⟨i, item, k, hplace, _⟩ := lastChild_some hx.mem_keys hchild hlast
          refine ih (hx.child hplace) ?_
          rw [List.length_append, List.length_singleton]
          omega

/-! ## §4. The interval of a subtree. -/

/-- **The descendants of a link** are the links between it and its last descendant, in
the order of their positions. -/
theorem weakDescendant_iff_between {last : L} {R : List Step}
    (hx : Position db x P) (hy : Position db y Q) (hlast : Position db last R)
    (hdown : P <+: R) (hmax : ∀ z Z, Position db z Z → P <+: Z → Z ≤ R) :
    db.WeakDescendant x y ↔ P ≤ Q ∧ Q ≤ R := by
  rw [weakDescendant_iff hx hy]
  constructor
  · intro hpre
    exact ⟨le_below hpre, hmax y Q hy hpre⟩
  · intro h
    obtain ⟨hle, hge⟩ := h
    obtain ⟨s, rfl⟩ := hdown
    exact prefix_of_between hle hge

/-- Between an ancestor and its descendant there are only descendants. -/
theorem weakDescendant_of_between [LinearOrder L] (hx : x ∈ db.rows.keys)
    (hy : y ∈ db.rows.keys) (hz : z ∈ db.rows.keys) (hxy : db.WeakDescendant x y)
    (hxz : ¬ DFBefore db z x) (hzy : ¬ DFBefore db y z) : db.WeakDescendant x z := by
  obtain ⟨P, hP⟩ := Position.exists_of_mem hx
  obtain ⟨Q, hQ⟩ := Position.exists_of_mem hy
  obtain ⟨R, hR⟩ := Position.exists_of_mem hz
  have hbefore : ∀ {a b : L} {p q : List Step}, Position db a p → Position db b q →
      ¬ DFBefore db a b → q ≤ p := by
    intro a b p q ha hb hab
    obtain ⟨d, hd, hlt, _⟩ := DepthFirstRelation.compare3Way_total ha hb
    exact not_lt.mp fun hpq => hab ⟨d, hd, hlt.mpr hpq⟩
  obtain ⟨s, rfl⟩ := (weakDescendant_iff hP hQ).mp hxy
  exact (weakDescendant_iff hP hR).mpr
    (prefix_of_between (hbefore hR hP hxz) (hbefore hQ hR hzy))

end Inferno.DB
