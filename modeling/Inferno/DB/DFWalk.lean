/-
  Inferno.DB.DFWalk
  ─────────────────
  The depth-first relation against the walk of the trees.

    • `InTree`, `walkTree` — the tree of a link, and the wind-in walk of a tree,
    • `WalkBefore`         — the order of the walks, and of the trees,
    • `TrueRelType`        — what each kind of relationship says of two links,
    • `Branch`             — the kind of two positions, which is the true one,
    • `depthFirstRelation_walk` — the relation is the order of the walks.
-/
import Inferno.DB.DBWalk
import Inferno.DB.Descent
import Mathlib.Order.Defs.Unbundled

namespace Inferno.DB

open Inferno.Common Inferno.Lib Inferno.Lib.PathOrder XTreeDatabase

variable {L N A : Type} {db : XTreeDatabase L N A} {x y l r : L} {P Q R : List Step} {o : Int}

/-! ## §1. The trees and their walks. -/

/-- `x` is in the tree with ordinal `o`. -/
def XTreeDatabase.InTree (db : XTreeDatabase L N A) (o : Int) (x : L) : Prop :=
  ∃ root, db.treesByOrdinal.lookup o = some root ∧ db.WeakDescendant root x

/-- The wind-in walk of the whole tree with ordinal `o`. -/
def XTreeDatabase.walkTree [DecidableEq L] (db : XTreeDatabase L N A) (o : Int) :
    Option (List (WalkInfo L N)) := do
  let root ← db.treesByOrdinal.lookup o
  db.toXTrees.walkTreeZone ⟨[], o, .windIn⟩ (db.rows.keys.card + 1) root rootCoreInfo

/-- **`l` comes before `r`**: it is in an earlier tree, or is visited before `r` in the
walk of one tree. -/
def WalkBefore [DecidableEq L] (db : XTreeDatabase L N A) (l r : L) : Prop :=
  (∃ o o', o < o' ∧ db.InTree o l ∧ db.InTree o' r)
    ∨ ∃ o infos, db.walkTree o = some infos ∧ [some l, some r].Sublist (infos.map (·.xlink))

/-- **What the kinds of relationship say of two links.** -/
def TrueRelType (db : XTreeDatabase L N A) (l r : L) : RelType → Prop
  | .equal => l = r
  | .leftIsAncestor => db.Ancestor l r
  | .rightIsAncestor => db.Ancestor r l
  | .rootSiblings => ∃ o o', o ≠ o' ∧ db.InTree o l ∧ db.InTree o' r
  | .itemSiblings => ∃ y ∈ db.rows.keys, ∃ node i item k a i' item' k' b,
      db.Place y node i item k a ∧ db.Place y node i' item' k' b ∧ i ≠ i'
        ∧ db.WeakDescendant a l ∧ db.WeakDescendant b r
  | .containerSiblings => ∃ y ∈ db.rows.keys, ∃ node i item k a k' b,
      db.Place y node i item k a ∧ db.Place y node i item k' b ∧ k ≠ k'
        ∧ db.WeakDescendant a l ∧ db.WeakDescendant b r

/-- A link is in the tree its position begins with. -/
theorem inTree_iff (hx : Position db x P) :
    db.InTree o x ↔ [toLex (o, -1)] <+: P := by
  constructor
  · intro h
    obtain ⟨root, hroot, hdown⟩ := h
    exact (weakDescendant_iff (.root hroot) hx).mp hdown
  · intro h
    obtain ⟨root, hroot⟩ := hx.exists_above_of_prefix h (by simp)
    have hpos := hroot
    generalize hq : [toLex (o, -1)] = q at hpos
    cases hpos with
    | root h' =>
        have ho := congrArg ofLex (List.singleton_inj.mp hq)
        rw [ofLex_toLex, ofLex_toLex, Prod.mk.injEq] at ho
        exact ⟨root, ho.1 ▸ h', (weakDescendant_iff hroot hx).mpr h⟩
    | child hy hplace =>
        have hlen := congrArg List.length hq
        rw [List.length_append, List.length_singleton] at hlen
        exact absurd (List.length_eq_zero_iff.mp (by simpa using hlen)) hy.ne_nil

/-- A position begins with a tree. -/
theorem Position.exists_tree (hx : Position db x P) : ∃ o, [toLex (o, -1)] <+: P := by
  induction hx with
  | @root o x h => exact ⟨o, List.prefix_refl _⟩
  | child _ _ ih =>
      obtain ⟨o, h⟩ := ih
      exact ⟨o, h.trans (List.prefix_append _ _)⟩

theorem tree_unique {o o' : Int} (h : [toLex (o, -1)] <+: P) (h' : [toLex (o', -1)] <+: P) :
    o = o' := by
  obtain ⟨s, rfl⟩ := h
  have hhead := (List.cons_prefix_cons.mp h').1
  have ho := congrArg ofLex hhead
  rw [ofLex_toLex, ofLex_toLex, Prod.mk.injEq] at ho
  exact ho.1.symm

/-- A link is in one tree. -/
theorem existsUnique_inTree (hx : x ∈ db.rows.keys) : ∃! o, db.InTree o x := by
  obtain ⟨P, hP⟩ := Position.exists_of_mem hx
  obtain ⟨o, ho⟩ := hP.exists_tree
  refine ⟨o, (inTree_iff hP).mpr ho, ?_⟩
  intro o' ho'
  exact tree_unique ((inTree_iff hP).mp ho') ho

/-! ## §2. The walk is in the order of the positions. -/

/-- The first of two positions comes before. -/
def PositionBefore (db : XTreeDatabase L N A) (x y : L) : Prop :=
  ∃ P Q, Position db x P ∧ Position db y Q ∧ P < Q

theorem mem_linksBelow [LinearOrder L] (hx : Position db x P) (hy : Position db y Q) :
    y ∈ db.toXTrees.linksBelow (db.rows.keys.card + 1) x ↔ P <+: Q := by
  unfold XTrees.linksBelow
  rw [List.mem_map]
  constructor
  · rintro ⟨⟨p, y'⟩, hmem, rfl⟩
    have hbelow := ((mem_preorder _).mp hmem).1
    rw [hy.unique ((pathBelow_iff hx).mp hbelow)]
    exact List.prefix_append P p
  · rintro ⟨p, rfl⟩
    refine ⟨(p, y), (mem_preorder _).mpr ⟨(pathBelow_iff hx).mpr hy, ?_⟩, rfl⟩
    have hlen := hy.length_le_card
    rw [List.length_append] at hlen
    omega

theorem linksBelow_sorted (hx : Position db x P) (depth : Nat) :
    (db.toXTrees.linksBelow depth x).Pairwise (PositionBefore db) := by
  unfold XTrees.linksBelow
  rw [List.pairwise_map]
  refine (preorder_sorted db.stepsBelow_sorted depth x).imp_of_mem ?_
  rintro ⟨p, y⟩ ⟨q, z⟩ hy hz hpq
  have hy := (pathBelow_iff hx).mp ((mem_preorder _).mp hy).1
  have hz := (pathBelow_iff hx).mp ((mem_preorder _).mp hz).1
  exact ⟨_, _, hy, hz, append_lt_append P hpq⟩

/-- **The walk of a tree**: its links, each once, in the order of their positions. -/
theorem walkTree_spec [LinearOrder L] {root : L} (h : db.treesByOrdinal.lookup o = some root) :
    ∃ infos, ∃ links : List L, db.walkTree o = some infos ∧ infos.map (·.xlink) = links.map some
      ∧ links.Pairwise (PositionBefore db)
      ∧ ∀ x, x ∈ links ↔ x ∈ db.rows.keys ∧ db.InTree o x := by
  have hroot : Position db root [toLex (o, -1)] := .root h
  have hterm : (⟨[], o, .windIn⟩ : WalkKit L).terminii = [] := rfl
  obtain ⟨infos, hwalk, hlinks⟩ := walkTreeZone_subtree hterm rfl hroot rootCoreInfo
  refine ⟨infos, _, ?_, hlinks, linksBelow_sorted hroot _, ?_⟩
  · unfold XTreeDatabase.walkTree
    rw [h]
    exact hwalk
  · intro x
    constructor
    · intro hx
      -- a link that the walk meets has a position
      obtain ⟨⟨p, x'⟩, hmem, rfl⟩ := List.mem_map.mp hx
      have hpos := (pathBelow_iff hroot).mp ((mem_preorder _).mp hmem).1
      exact ⟨hpos.mem_keys, (inTree_iff hpos).mpr (List.prefix_append _ p)⟩
    · intro hx
      obtain ⟨hkeys, htree⟩ := hx
      obtain ⟨Q, hQ⟩ := Position.exists_of_mem hkeys
      exact (mem_linksBelow hroot hQ).mpr ((inTree_iff hQ).mp htree)

/-- Of two links of one walk, the one at the smaller position comes before. -/
theorem sublist_of_before {links : List L} (h : links.Pairwise (PositionBefore db))
    (hl : Position db l P) (hr : Position db r Q) (hlm : l ∈ links) (hrm : r ∈ links) :
    [l, r].Sublist links ↔ P < Q := by
  have hbefore : ∀ {a b : L}, [a, b].Sublist links → PositionBefore db a b := by
    intro a b hab
    exact List.pairwise_iff_forall_sublist.mp h hab
  constructor
  · intro hlr
    obtain ⟨P', Q', hl', hr', hlt⟩ := hbefore hlr
    rw [hl.unique hl', hr.unique hr']
    exact hlt
  · intro hlt
    -- by induction on the walk: the first of the two that it meets is `l`
    induction links with
    | nil => exact absurd hlm (by simp)
    | cons a links ih =>
        obtain ⟨hhead, htail⟩ := List.pairwise_cons.mp h
        rcases List.mem_cons.mp hrm with rfl | hrtail
        · exfalso
          rcases List.mem_cons.mp hlm with rfl | hltail
          · exact absurd (hl.unique hr) hlt.ne
          · obtain ⟨Q', P', hr', hl', hgt⟩ := hhead l hltail
            rw [← hl.unique hl', ← hr.unique hr'] at hgt
            exact absurd hgt hlt.asymm
        · rcases List.mem_cons.mp hlm with rfl | hltail
          · exact List.Sublist.cons_cons l (List.singleton_sublist.mpr hrtail)
          · exact (ih htail hltail hrtail fun hab =>
              List.pairwise_iff_forall_sublist.mp htail hab).cons a

/-- **The order of the walks is the order of the positions.** -/
theorem walkBefore_iff [LinearOrder L] (hl : Position db l P) (hr : Position db r Q) :
    WalkBefore db l r ↔ P < Q := by
  constructor
  · intro h
    rcases h with ⟨o, o', hlt, hol, hor⟩ | ⟨o, infos, hwalk, hsub⟩
    · -- two trees: the ordinals decide
      obtain ⟨s, rfl⟩ := (inTree_iff hl).mp hol
      obtain ⟨t, rfl⟩ := (inTree_iff hr).mp hor
      exact branch_lt [] s t (Prod.Lex.toLex_lt_toLex.mpr (.inl hlt))
    · have hroot : ∃ root, db.treesByOrdinal.lookup o = some root := by
        obtain ⟨root, hroot, _⟩ := Option.bind_eq_some_iff.mp hwalk
        exact ⟨root, hroot⟩
      obtain ⟨root, hroot⟩ := hroot
      -- one tree: the walk lists its links in the order of the positions
      obtain ⟨infos', links, hwalk', hlinks, hsorted, hmem⟩ := walkTree_spec hroot
      obtain rfl := Option.some.inj (hwalk.symm.trans hwalk')
      rw [hlinks] at hsub
      have hpair : [l, r].Sublist links := by
        obtain ⟨pair, hpair, heq⟩ := List.sublist_map_iff.mp hsub
        rwa [List.map_injective_iff.mpr (Option.some_injective L)
          (show [l, r].map some = pair.map some from heq)]
      exact (sublist_of_before hsorted hl hr (hpair.subset (by simp))
        (hpair.subset (by simp))).mp hpair
  · intro hlt
    obtain ⟨o, ho⟩ := hl.exists_tree
    obtain ⟨o', ho'⟩ := hr.exists_tree
    -- and back: in one tree the walk has both
    by_cases hoo : o = o'
    · subst hoo
      obtain ⟨root, hroot, _⟩ := (inTree_iff hl).mpr ho
      obtain ⟨infos, links, hwalk, hlinks, hsorted, hmem⟩ := walkTree_spec hroot
      refine .inr ⟨o, infos, hwalk, ?_⟩
      rw [hlinks]
      exact ((sublist_of_before hsorted hl hr
        ((hmem l).mpr ⟨hl.mem_keys, (inTree_iff hl).mpr ho⟩)
        ((hmem r).mpr ⟨hr.mem_keys, (inTree_iff hr).mpr ho'⟩)).mpr hlt).map some
    · -- in two trees the positions start with the ordinals
      refine .inl ⟨o, o', ?_, (inTree_iff hl).mpr ho, (inTree_iff hr).mpr ho'⟩
      obtain ⟨s, rfl⟩ := ho
      obtain ⟨t, rfl⟩ := ho'
      by_contra hge
      have hgt : o' < o := lt_of_le_of_ne (not_lt.mp hge) (Ne.symm hoo)
      exact absurd (branch_lt [] t s (Prod.Lex.toLex_lt_toLex.mpr (.inl hgt))) hlt.asymm

/-! ## §3. The kinds of relationship. -/

/-- The kind of two positions. -/
inductive Branch (P Q : List Step) : RelType → Prop where
  | equal (h : P = Q) : Branch P Q .equal
  | above (h : P <+: Q) (hne : P ≠ Q) : Branch P Q .leftIsAncestor
  | under (h : Q <+: P) (hne : P ≠ Q) : Branch P Q .rightIsAncestor
  | siblings {a b : Step} {c s t : List Step} (hp : P = c ++ a :: s) (hq : Q = c ++ b :: t)
      (hab : a ≠ b) : Branch P Q (siblingType c a b)

theorem Stands.branch {d : Int} {rel : RelType} (h : Stands P Q (d, rel)) : Branch P Q rel := by
  cases h with
  | equal h => exact .equal h
  | above h hne => exact .above h hne
  | under h hne => exact .under h hne
  | siblings hp hq h => exact .siblings hp hq (h.elim (fun h => h.2.ne) (fun h => h.2.ne'))

/-- Two positions are of one kind. -/
theorem Branch.unique {rel rel' : RelType} (h : Branch P Q rel) (h' : Branch P Q rel') :
    rel = rel' := by
  -- each a prefix of the other: the same position
  have hcross : P <+: Q → Q <+: P → P = Q := fun hpq hqp =>
    hpq.eq_of_length (le_antisymm hpq.length_le hqp.length_le)
  cases h with
  | equal h =>
      cases h' with
      | equal _ => rfl
      | above _ hne => exact absurd h hne
      | under _ hne => exact absurd h hne
      -- two positions that branch off are neither equal nor one above the other
      | siblings hp hq hab =>
          rw [hp, hq] at h
          exact absurd ⟨[], by rw [h, List.append_nil]⟩ (not_prefix_of_branch hab)
  | above h hne =>
      cases h' with
      | equal heq => exact absurd heq hne
      | above _ _ => rfl
      | under h' _ => exact absurd (hcross h h') hne
      | siblings hp hq hab =>
          rw [hp, hq] at h
          exact absurd h (not_prefix_of_branch hab)
  | under h hne =>
      cases h' with
      | equal heq => exact absurd heq hne
      | above h' _ => exact absurd (hcross h' h) hne
      | under _ _ => rfl
      | siblings hp hq hab =>
          rw [hp, hq] at h
          exact absurd h (not_prefix_of_branch hab.symm)
  | siblings hp hq hab =>
      cases h' with
      | equal heq =>
          rw [hp, hq] at heq
          exact absurd ⟨[], by rw [heq, List.append_nil]⟩ (not_prefix_of_branch hab)
      | above h' _ =>
          rw [hp, hq] at h'
          exact absurd h' (not_prefix_of_branch hab)
      | under h' _ =>
          rw [hp, hq] at h'
          exact absurd h' (not_prefix_of_branch hab.symm)
      -- the branching point is unique
      | siblings hp' hq' hab' =>
          obtain ⟨rfl, rfl, rfl⟩ := branch_unique hab hab' (hp.symm.trans hp') (hq.symm.trans hq')
          rfl

/-- Siblings below one link. -/
theorem branch_of_places {node : N} {i i' k k' : Nat} {item item' : Item L} {a b : L}
    (hl : Position db l P) (hr : Position db r Q) (hy : y ∈ db.rows.keys)
    (ha : db.Place y node i item k a) (hb : db.Place y node i' item' k' b)
    (hal : db.WeakDescendant a l) (hbr : db.WeakDescendant b r)
    (hab : stepTo i item k ≠ stepTo i' item' k') :
    ∃ c ≠ [], Branch P Q (siblingType c (stepTo i item k) (stepTo i' item' k')) := by
  obtain ⟨c, hc⟩ := Position.exists_of_mem hy
  obtain ⟨s, rfl⟩ := (weakDescendant_iff (hc.child ha) hl).mp hal
  obtain ⟨t, rfl⟩ := (weakDescendant_iff (hc.child hb) hr).mp hbr
  exact ⟨c, hc.ne_nil, .siblings (s := s) (t := t) (by simp) (by simp) hab⟩

/-- **A relationship that is true** is the kind of the positions. -/
theorem branch_of_trueRelType {rel : RelType} (hl : Position db l P) (hr : Position db r Q)
    (h : TrueRelType db l r rel) : Branch P Q rel := by
  cases rel with
  | equal =>
      obtain rfl : l = r := h
      exact .equal (hl.unique hr)
  | leftIsAncestor =>
      obtain ⟨hpre, hne⟩ := (ancestor_iff hl hr).mp h
      exact .above hpre hne
  | rightIsAncestor =>
      obtain ⟨hpre, hne⟩ := (ancestor_iff hr hl).mp h
      exact .under hpre (Ne.symm hne)
  | rootSiblings =>
      -- the first steps are those of the trees
      obtain ⟨o, o', hoo, hol, hor⟩ := h
      obtain ⟨s, rfl⟩ := (inTree_iff hl).mp hol
      obtain ⟨t, rfl⟩ := (inTree_iff hr).mp hor
      have hab : (toLex (o, -1) : Step) ≠ toLex (o', -1) := by
        intro heq
        exact hoo (congrArg Prod.fst (congrArg ofLex heq))
      exact .siblings (c := []) (s := s) (t := t) rfl rfl hab
  | itemSiblings =>
      obtain ⟨y, hy, node, i, item, k, a, i', item', k', b, ha, hb, hii, hal, hbr⟩ := h
      -- two items of one node: the steps to them differ by the item
      have hi : (i : Int) ≠ i' := by omega
      obtain ⟨c, hc, hbranch⟩ := branch_of_places hl hr hy ha hb hal hbr (fun heq =>
        hi (congrArg Prod.fst (congrArg ofLex heq)))
      unfold stepTo at hbranch
      rw [siblingType_item hc hi] at hbranch
      exact hbranch
  | containerSiblings =>
      obtain ⟨y, hy, node, i, item, k, a, k', b, ha, hb, hkk, hal, hbr⟩ := h
      -- one container: the steps differ by the element
      obtain ⟨c, hc, hbranch⟩ := branch_of_places hl hr hy ha hb hal hbr (by
        intro heq
        obtain rfl := Position.eq_of_stepTo ha hb heq
        exact hkk (place_unique hy hy ha hb).2.2.2.2)
      unfold stepTo at hbranch
      rw [siblingType_container hc rfl] at hbranch
      exact hbranch

/-- **The kind of the positions is true.** -/
theorem Branch.trueRelType {rel : RelType} (h : Branch P Q rel) (hl : Position db l P)
    (hr : Position db r Q) : TrueRelType db l r rel := by
  cases h with
  | equal h =>
      subst h
      exact hl.injective hr
  | above h hne => exact (ancestor_iff hl hr).mpr ⟨h, hne⟩
  | under h hne => exact (ancestor_iff hr hl).mpr ⟨h, Ne.symm hne⟩
  | @siblings a b c s t hp hq hab =>
      by_cases hc : c = []
      · -- the first steps are those of the trees
        subst hc
        obtain ⟨o, ho⟩ := hl.exists_tree
        obtain ⟨o', ho'⟩ := hr.exists_tree
        have hoo : o ≠ o' := by
          rintro rfl
          rw [hp] at ho
          rw [hq] at ho'
          exact hab ((List.cons_prefix_cons.mp ho).1.symm.trans (List.cons_prefix_cons.mp ho').1)
        exact ⟨o, o', hoo, (inTree_iff hl).mpr ho, (inTree_iff hr).mpr ho'⟩
      · -- both go down from one link, and by different steps
        have hP : P = c ++ [a] ++ s := by rw [hp, List.append_assoc, List.singleton_append]
        have hQ : Q = c ++ [b] ++ t := by rw [hq, List.append_assoc, List.singleton_append]
        have hpreP : c ++ [a] <+: P := hP ▸ List.prefix_append _ s
        have hpreQ : c ++ [b] <+: Q := hQ ▸ List.prefix_append _ t
        obtain ⟨y, hy⟩ := hl.exists_above_of_prefix ((List.prefix_append c [a]).trans hpreP) hc
        obtain ⟨za, hza⟩ := hl.exists_above_of_prefix hpreP (by simp)
        obtain ⟨zb, hzb⟩ := hr.exists_above_of_prefix hpreQ (by simp)
        obtain ⟨node, i, item, k, hplace, rfl⟩ := hy.place_of_snoc hza
        obtain ⟨node', i', item', k', hplace', rfl⟩ := hy.place_of_snoc hzb
        obtain rfl := Option.some.inj (hplace.child.symm.trans hplace'.child)
        have hdown := (weakDescendant_iff hza hl).mpr hpreP
        have hdown' := (weakDescendant_iff hzb hr).mpr hpreQ
        -- the steps are within one item, or in two items of the node
        by_cases hi : i = i'
        · subst hi
          obtain rfl := Option.some.inj
            ((item_getElem hplace).symm.trans (item_getElem hplace'))
          rw [stepTo, stepTo, siblingType_container hc rfl]
          refine ⟨y, hy.mem_keys, node, i, item, k, za, k', zb, hplace, hplace', ?_, hdown, hdown'⟩
          rintro rfl
          exact hab rfl
        · rw [stepTo, stepTo, siblingType_item hc (by omega)]
          exact ⟨y, hy.mem_keys, node, i, item, k, za, i', item', k', zb, hplace, hplace', hi,
            hdown, hdown'⟩

/-! ## §4. The relation is the order of the walks. -/

namespace DepthFirstRelation

variable [LinearOrder L]

/-- The comparison returns how the positions stand. -/
theorem exists_stands (hl : Position db l P) (hr : Position db r Q) :
    ∃ d rel, compareHierarchical db (.link l) (.link r) = some (d, rel)
      ∧ Stands P Q (d, rel) := by
  obtain ⟨d, hd, _⟩ := compare3Way_total hl hr
  obtain ⟨⟨d', rel⟩, hres, _⟩ := Option.map_eq_some_iff.mp hd
  exact ⟨d', rel, hres, compareHierarchical_stands hl hr hres⟩

/-- **The depth-first relation is the order of the walks.**  The wind-in walk of each tree
visits its links once each, and every link is in one tree.  Two links always compare, with
no assertion failing: less when the first is visited before the second or is in an earlier
tree, equal when they are the same link; the kind of relationship reported is the one that
holds.  The relation is a strict total order of the links. -/
theorem depthFirstRelation_walk (db : XTreeDatabase L N A) :
    (∀ o root, db.treesByOrdinal.lookup o = some root → ∃ infos, db.walkTree o = some infos
        ∧ (infos.map (·.xlink)).Nodup
        ∧ ∀ x, x ∈ infos.map (·.xlink) ↔ ∃ a ∈ db.rows.keys, x = some a ∧ db.InTree o a)
      ∧ (∀ x ∈ db.rows.keys, ∃! o, db.InTree o x)
      ∧ (∀ l ∈ db.rows.keys, ∀ r ∈ db.rows.keys, ∃ d rel,
          compareHierarchical db (.link l) (.link r) = some (d, rel)
            ∧ compare3Way db (.link l) (.link r) = some d
            ∧ (d < 0 ↔ WalkBefore db l r) ∧ (d = 0 ↔ l = r) ∧ (0 < d ↔ WalkBefore db r l)
            ∧ ∀ rel', TrueRelType db l r rel' ↔ rel' = rel)
      ∧ IsStrictTotalOrder {x // x ∈ db.rows.keys} fun l r =>
          ∃ d, compare3Way db (.link l.1) (.link r.1) = some d ∧ d < 0 := by
  -- two positions compare as the walk comes to them
  have hcompare : ∀ l ∈ db.rows.keys, ∀ r ∈ db.rows.keys, ∃ d rel,
      compareHierarchical db (.link l) (.link r) = some (d, rel)
        ∧ compare3Way db (.link l) (.link r) = some d
        ∧ (d < 0 ↔ WalkBefore db l r) ∧ (d = 0 ↔ l = r) ∧ (0 < d ↔ WalkBefore db r l)
        ∧ ∀ rel', TrueRelType db l r rel' ↔ rel' = rel := by
    intro l hl r hr
    obtain ⟨P, hP⟩ := Position.exists_of_mem hl
    obtain ⟨Q, hQ⟩ := Position.exists_of_mem hr
    obtain ⟨d, rel, hres, hstands⟩ := exists_stands hP hQ
    have hneg := hstands.compared.neg_iff
    have hpos := hstands.compared.pos_iff
    refine ⟨d, rel, hres, ?_, ?_, ?_, ?_, ?_⟩
    · unfold compare3Way
      rw [hres]
      rfl
    · rw [hneg, walkBefore_iff hP hQ]
    · -- no difference: the same position, and so the same link
      constructor
      · intro hd
        have hPQ : P = Q := le_antisymm (not_lt.mp fun h => absurd (hpos.mpr h) (by omega))
          (not_lt.mp fun h => absurd (hneg.mpr h) (by omega))
        subst hPQ
        exact hP.injective hQ
      · rintro rfl
        obtain rfl := hP.unique hQ
        have h₁ : ¬ d < 0 := fun h => lt_irrefl P (hneg.mp h)
        have h₂ : ¬ 0 < d := fun h => lt_irrefl P (hpos.mp h)
        omega
    · rw [hpos, walkBefore_iff hQ hP]
    · intro rel'
      constructor
      · intro h
        exact (branch_of_trueRelType hP hQ h).unique hstands.branch
      · rintro rfl
        exact hstands.branch.trueRelType hP hQ
  -- the walk of one tree; the trees; the comparison; and the order
  refine ⟨?_, fun x hx => existsUnique_inTree hx, hcompare, ?_⟩
  · intro o root hroot
    obtain ⟨infos, links, hwalk, hlinks, hsorted, hmem⟩ := walkTree_spec hroot
    refine ⟨infos, hwalk, ?_, ?_⟩
    · rw [hlinks]
      refine List.Nodup.map (Option.some_injective L) (hsorted.imp ?_)
      rintro a b ⟨P, Q, ha, hb, hlt⟩ rfl
      exact absurd (ha.unique hb) hlt.ne
    · intro x
      rw [hlinks, List.mem_map]
      constructor
      · rintro ⟨a, ha, rfl⟩
        obtain ⟨hkeys, htree⟩ := (hmem a).mp ha
        exact ⟨a, hkeys, rfl, htree⟩
      · rintro ⟨a, hkeys, rfl, htree⟩
        exact ⟨a, (hmem a).mpr ⟨hkeys, htree⟩, rfl⟩
  · -- a strict total order, since the comparison is three-way
    have hthree := compare3Way_threeWay db
    refine { trichotomous := ?_, irrefl := ?_, trans := ?_ }
    · intro l r hlr hrl
      obtain ⟨d, rel, _, hd, _, hzero, _⟩ := hcompare l.1 l.2 r.1 r.2
      have hnonneg : ¬ d < 0 := fun h => hlr ⟨d, hd, h⟩
      have hnonpos : ¬ 0 < d := fun h => hrl ((hthree.swap _ _).mp ⟨d, hd, h⟩)
      exact Subtype.ext (hzero.mp (by omega))
    · intro l
      exact hthree.irrefl (.link l.1)
    · intro l m r hlm hmr
      exact hthree.trans _ _ _ hlm hmr

end DepthFirstRelation

end Inferno.DB
