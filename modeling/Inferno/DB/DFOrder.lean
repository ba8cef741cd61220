/-
  Inferno.DB.DFOrder
  ──────────────────
  Where the links of the database stand in depth-first order.

    • `Position`        — the path from a root: the tree, then one step for each link,
    • `Compared`        — what a comparison says of two positions,
    • `compareHierarchical_spec` — a comparison that returns says the right thing,
    • `getLastDescendantXLink`   — the last link of a subtree, and the interval of the
                                   positions below a link.
-/
import Inferno.DB.DFRelation
import Inferno.Lib.PathOrder
import Mathlib.Data.Prod.Lex

namespace Inferno.DB

open Inferno.Common Inferno.Lib.PathOrder

variable {L N A : Type} {db : XTreeDatabase L N A} {x y l r : L} {node : N} {i k : Nat}
  {item : Item L}

/-! ## §1. Positions. -/

/-- The item of the parent node, and the place in it when it is a container. -/
abbrev Step := Int ×ₗ Int

/-- The container ordinal of the link at place `k` of an item. -/
def Item.ordinal {L : Type} (item : Item L) (k : Nat) : Int :=
  match item with
  | .singular _ => -1
  | .sequence _ => k
  | .collection _ => k

/-- The step to the link at place `k` of item `i`. -/
def stepTo {L : Type} (i : Nat) (item : Item L) (k : Nat) : Step :=
  toLex ((i : Int), item.ordinal k)

/-- **The position of a link**: its tree, and the steps from the root. -/
inductive Position (db : XTreeDatabase L N A) : L → List Step → Prop where
  | root {o : Int} {x : L} (h : db.treesByOrdinal.lookup o = some x) :
      Position db x [toLex (o, -1)]
  | child {y x : L} {p : List Step} {node : N} {i k : Nat} {item : Item L}
      (hy : Position db y p) (h : db.Place y node i item k x) :
      Position db x (p ++ [stepTo i item k])

namespace Position

variable {p q : List Step}

theorem mem_keys (h : Position db x p) : x ∈ db.rows.keys := by
  induction h with
  | root h =>
      refine StdMap.mem_keys_of_lookup (v := ?_) ?_
      rotate_left
      · rw [db.row_root _ _ h]
        rfl
  | child hy h ih =>
      obtain ⟨row, hrow, _⟩ := XTreeDatabase.exists_row ih h
      exact StdMap.mem_keys_of_lookup hrow

theorem ne_nil (h : Position db x p) : p ≠ [] := by
  cases h <;> simp

/-- Every link with a row has one. -/
theorem exists_of_mem (h : x ∈ db.rows.keys) : ∃ p, Position db x p := by
  obtain ⟨depth, hdepth⟩ := db.acyclic
  -- by induction on the depth, which falls from a link to its parent
  induction hd : depth x using Nat.strong_induction_on generalizing x with
  | _ d ih =>
      rcases db.row_only x h with ⟨o, ho⟩ | ⟨y, hy, node, i, item, k, hp⟩
      · exact ⟨_, .root ho⟩
      · obtain ⟨p, hpos⟩ := ih (depth y) (hd ▸ hdepth y hy node i item k x hp) hy rfl
        exact ⟨_, .child hpos hp⟩

/-- The row of a root. -/
theorem row_root {o : Int} (h : db.treesByOrdinal.lookup o = some x) :
    ∃ row, db.rows.lookup x = some row ∧ row.parentNode = none ∧ row.treeOrdinal = o :=
  ⟨_, db.row_root o x h, rfl, rfl⟩

/-- The row of a link with a parent. -/
theorem row_child (hy : y ∈ db.rows.keys) (h : db.Place y node i item k x) :
    ∃ row, db.rows.lookup x = some row ∧ row.parentNode = some node
      ∧ toLex (row.itemOrdinal, row.containerOrdinal) = stepTo i item k := by
  obtain ⟨row, hrow, hcore, _⟩ := XTreeDatabase.exists_row hy h
  have hparts : row.parentNode = some node
      ∧ toLex (row.itemOrdinal, row.containerOrdinal) = stepTo i item k := by
    show row.toCoreInfo.parentNode = some node
      ∧ toLex (row.toCoreInfo.itemOrdinal, row.toCoreInfo.containerOrdinal) = stepTo i item k
    rw [hcore]
    cases item <;> exact ⟨rfl, rfl⟩
  exact ⟨row, hrow, hparts⟩

/-- A root is nobody's child. -/
theorem not_root_child {o : Int} (h : db.treesByOrdinal.lookup o = some x)
    (hy : y ∈ db.rows.keys) (hp : db.Place y node i item k x) : False := by
  obtain ⟨row, hrow, hnone, _⟩ := row_root h
  obtain ⟨row', hrow', hsome, _⟩ := row_child hy hp
  rw [hrow] at hrow'
  cases hrow'
  rw [hnone] at hsome
  exact absurd hsome (by simp)

/-- **A link has one position.** -/
theorem unique (h : Position db x p) (h' : Position db x q) : p = q := by
  induction h generalizing q with
  | root h =>
      cases h' with
      | root h' =>
          obtain ⟨row, hrow, _, ho⟩ := row_root h
          obtain ⟨row', hrow', _, ho'⟩ := row_root h'
          rw [hrow] at hrow'
          cases hrow'
          rw [← ho, ho']
      | child hy' hp' => exact absurd (not_root_child h hy'.mem_keys hp') id
  | child hy hp ih =>
      cases h' with
      | root h' => exact absurd (not_root_child h' hy.mem_keys hp) id
      | child hy' hp' =>
          obtain ⟨rfl, rfl, rfl, rfl, rfl⟩ :=
            XTreeDatabase.place_unique hy.mem_keys hy'.mem_keys hp hp'
          rw [ih hy']

/-- The step tells the link at the node. -/
theorem eq_of_stepTo {i' k' : Nat} {item' : Item L} {x' : L} (hp : db.Place y node i item k x)
    (hp' : db.Place y node i' item' k' x') (h : stepTo i item k = stepTo i' item' k') :
    x = x' := by
  have hpair := congrArg ofLex h
  rw [stepTo, stepTo, ofLex_toLex, ofLex_toLex, Prod.mk.injEq] at hpair
  have hi : i = i' := Int.ofNat_inj.mp hpair.1
  subst hi
  have hitem : item = item' := Option.some.inj
    ((XTreeDatabase.item_getElem hp).symm.trans (XTreeDatabase.item_getElem hp'))
  subst hitem
  have hl := XTreeDatabase.link_getElem hp
  have hl' := XTreeDatabase.link_getElem hp'
  have hk : k = k' := by
    cases item with
    | singular l =>
        -- a singular item has the one place
        have hzero : ∀ j z, [l][j]? = some z → j = 0 := by
          intro j z hj
          have hlt := (List.getElem?_eq_some_iff.mp hj).1
          simpa using hlt
        rw [hzero k x hl, hzero k' x' hl']
    | sequence ls => exact Int.ofNat_inj.mp hpair.2
    | collection ls => exact Int.ofNat_inj.mp hpair.2
  rw [← hk, hl] at hl'
  exact Option.some.inj hl'

/-- **A position has one link.** -/
theorem injective {x' : L} (h : Position db x p) (h' : Position db x' p) : x = x' := by
  induction h generalizing x' with
  | @root o x h =>
      generalize hp : [toLex (o, -1)] = p' at h'
      cases h' with
      | root h' =>
          have ho := congrArg ofLex (List.cons.inj hp).1
          rw [ofLex_toLex, ofLex_toLex, Prod.mk.injEq] at ho
          rw [ho.1, h'] at h
          exact (Option.some.inj h).symm
      | child hy' hp' =>
          have hlen := congrArg List.length hp
          rw [List.length_append, List.length_singleton] at hlen
          exact absurd (List.length_eq_zero_iff.mp (by simpa using hlen.symm)) hy'.ne_nil
  | @child y x p node i k item hy hp ih =>
      generalize hq : p ++ [stepTo i item k] = q at h'
      cases h' with
      | root h' =>
          have hlen := congrArg List.length hq
          rw [List.length_append, List.length_singleton] at hlen
          exact absurd (List.length_eq_zero_iff.mp (by simpa using hlen)) hy.ne_nil
      | child hy' hp' =>
          obtain ⟨rfl, hstep⟩ := List.append_inj' hq rfl
          obtain rfl := ih hy'
          have hnode := Option.some.inj (hp.child.symm.trans hp'.child)
          subst hnode
          exact eq_of_stepTo hp hp' (List.cons.inj hstep).1

/-- The row below a link says the last step. -/
theorem row_below {z : L} {s : Step} (hz : Position db z (q ++ [s])) (hq : Position db y q) :
    ∃ row, db.getRow (.link z) = some row
      ∧ toLex (row.itemOrdinal, row.containerOrdinal) = s := by
  generalize hzs : q ++ [s] = zs at hz
  cases hz with
  | root hz =>
      have hlen := congrArg List.length hzs
      rw [List.length_append, List.length_singleton] at hlen
      exact absurd (List.length_eq_zero_iff.mp (by simpa using hlen)) hq.ne_nil
  | child hy hp =>
      obtain ⟨row, hrow, _, hstep⟩ := Position.row_child hy.mem_keys hp
      exact ⟨row, hrow, hstep.trans (List.cons.inj (List.append_inj' hzs rfl).2).1.symm⟩

/-- **The parent of a link**, as the database finds it. -/
theorem tryGetParentXLink [LinearOrder L] {p : List Step} {res : Option (XLink L)}
    (h : Position db x p) (hres : db.tryGetParentXLink (.link x) = some res) :
    (res = none ∧ ∃ o row, p = [toLex (o, -1)] ∧ db.getRow (.link x) = some row
        ∧ row.treeOrdinal = o)
      ∨ ∃ y q step row, res = some (.link y) ∧ Position db y q ∧ p = q ++ [step]
        ∧ db.getRow (.link x) = some row
        ∧ toLex (row.itemOrdinal, row.containerOrdinal) = step := by
  cases h with
  | @root o _ h =>
      obtain ⟨row, hrow, hnone, ho⟩ := row_root h
      have hgot : db.tryGetParentXLink (.link x) = some none := by
        simp only [XTreeDatabase.tryGetParentXLink, XTreeDatabase.getRow, hrow, hnone,
          Option.bind_eq_bind, Option.bind_some]
      rw [hgot] at hres
      exact .inl ⟨(Option.some.inj hres).symm, o, row, rfl, hrow, ho⟩
  | @child y _ q _ _ _ _ hy hp =>
      obtain ⟨row, hrow, _, hstep⟩ := row_child hy.mem_keys hp
      rw [DepthFirstRelation.tryGetParentXLink_place hy.mem_keys hp] at hres
      exact .inr ⟨y, q, _, row, (Option.some.inj hres).symm, hy, rfl, hrow, hstep⟩

end Position

/-! ## §2. Comparisons. -/

/-- **What a comparison says of two positions.** -/
inductive Compared (p q : List Step) : Int × RelType → Prop where
  | equal (h : p = q) : Compared p q (0, .equal)
  | above (h : p <+: q) (hne : p ≠ q) : Compared p q (-1, .leftIsAncestor)
  | under (h : q <+: p) (hne : p ≠ q) : Compared p q (1, .rightIsAncestor)
  | siblings {a b : Step} {c s t : List Step} {d : Int} {rel : RelType}
      (hp : p = c ++ a :: s) (hq : q = c ++ b :: t) (h : d < 0 ∧ a < b ∨ 0 < d ∧ b < a)
      (hrel : rel ≠ .equal ∧ rel ≠ .leftIsAncestor ∧ rel ≠ .rightIsAncestor) :
      Compared p q (d, rel)

namespace Compared

variable {p q : List Step} {d : Int} {rel : RelType}

theorem neg_iff (h : Compared p q (d, rel)) : d < 0 ↔ p < q := by
  cases h with
  | equal h => simp [h]
  | above h hne => exact iff_of_true (by decide) (lt_below h hne)
  | under h hne => exact iff_of_false (by decide) (lt_below h (Ne.symm hne)).le.not_gt
  | siblings hp hq h hrel =>
      rw [hp, hq]
      rcases h with ⟨hd, hab⟩ | ⟨hd, hba⟩
      · exact iff_of_true hd (branch_lt _ _ _ hab)
      · exact iff_of_false hd.le.not_gt (branch_lt _ _ _ hba).le.not_gt

theorem pos_iff (h : Compared p q (d, rel)) : 0 < d ↔ q < p := by
  cases h with
  | equal h => simp [h]
  | above h hne => exact iff_of_false (by decide) (lt_below h hne).le.not_gt
  | under h hne => exact iff_of_true (by decide) (lt_below h (Ne.symm hne))
  | siblings hp hq h hrel =>
      rw [hp, hq]
      rcases h with ⟨hd, hab⟩ | ⟨hd, hba⟩
      · exact iff_of_false hd.le.not_gt (branch_lt _ _ _ hab).le.not_gt
      · exact iff_of_true hd (branch_lt _ _ _ hba)

theorem nonpos_iff (h : Compared p q (d, rel)) : d ≤ 0 ↔ p ≤ q := by
  rw [← not_lt, h.pos_iff, not_lt]

theorem equal_iff (h : Compared p q (d, rel)) : rel = .equal ↔ p = q := by
  cases h with
  | equal h => simp [h]
  | above h hne => simp [hne]
  | under h hne => simp [hne]
  | siblings hp hq h hrel =>
      have hab : _ ≠ _ := h.elim (fun h => h.2.ne) (fun h => h.2.ne')
      simp only [hrel.1, false_iff]
      rintro rfl
      exact hab (List.cons.inj (List.append_cancel_left (hp.symm.trans hq))).1

theorem leftIsAncestor_iff (h : Compared p q (d, rel)) :
    rel = .leftIsAncestor ↔ p <+: q ∧ p ≠ q := by
  cases h with
  | equal h => simp [h]
  | above h hne => simp [h, hne]
  | under h hne =>
      simp only [reduceCtorEq, false_iff, not_and_or]
      exact .inl fun hpq => hne (List.IsPrefix.eq_of_length hpq
        (le_antisymm hpq.length_le h.length_le))
  | siblings hp hq h hrel =>
      have hab : _ ≠ _ := h.elim (fun h => h.2.ne) (fun h => h.2.ne')
      simp only [hrel.2.1, false_iff, not_and_or]
      rw [hp, hq]
      exact .inl (not_prefix_of_branch hab)

end Compared

/-- The kind of two branches, by the steps `a` and `b` below the path `c`. -/
def siblingType (c : List Step) (a b : Step) : RelType :=
  if c = [] then .rootSiblings
  else if (ofLex a).1 ≠ (ofLex b).1 then .itemSiblings
  else .containerSiblings

/-- **How two positions stand**, with the kind of two siblings. -/
inductive Stands (p q : List Step) : Int × RelType → Prop where
  | equal (h : p = q) : Stands p q (0, .equal)
  | above (h : p <+: q) (hne : p ≠ q) : Stands p q (-1, .leftIsAncestor)
  | under (h : q <+: p) (hne : p ≠ q) : Stands p q (1, .rightIsAncestor)
  | siblings {a b : Step} {c s t : List Step} {d : Int}
      (hp : p = c ++ a :: s) (hq : q = c ++ b :: t) (h : d < 0 ∧ a < b ∨ 0 < d ∧ b < a) :
      Stands p q (d, siblingType c a b)

theorem siblingType_item {c : List Step} {i i' k k' : Int} (hc : c ≠ []) (hi : i ≠ i') :
    siblingType c (toLex (i, k)) (toLex (i', k')) = .itemSiblings := by
  unfold siblingType
  rw [if_neg hc]
  exact if_pos hi

theorem siblingType_container {c : List Step} {i i' k k' : Int} (hc : c ≠ []) (hi : i = i') :
    siblingType c (toLex (i, k)) (toLex (i', k')) = .containerSiblings := by
  unfold siblingType
  rw [if_neg hc]
  exact if_neg fun hne => hne hi

theorem siblingType_ne (c : List Step) (a b : Step) : siblingType c a b ≠ .equal
    ∧ siblingType c a b ≠ .leftIsAncestor ∧ siblingType c a b ≠ .rightIsAncestor := by
  unfold siblingType
  split
  · simp
  · split <;> simp

theorem Stands.compared {p q : List Step} {res : Int × RelType} (h : Stands p q res) :
    Compared p q res := by
  cases h with
  | equal h => exact .equal h
  | above h hne => exact .above h hne
  | under h hne => exact .under h hne
  | siblings hp hq h => exact .siblings hp hq h (siblingType_ne _ _ _)

namespace DepthFirstRelation

variable [LinearOrder L] {P Q : List Step}

/-- A link at or above the position `P`. -/
def OnPath (db : XTreeDatabase L N A) (x : XLink L) (P : List Step) : Prop :=
  ∃ a p, x = .link a ∧ Position db a p ∧ p <+: P

/-- `c` is the child of `p` on the way to `P`. -/
def ChildOnPath (db : XTreeDatabase L N A) (p c : XLink L) (P : List Step) : Prop :=
  ∃ a q step b, p = .link a ∧ Position db a q ∧ c = .link b ∧ Position db b (q ++ [step])
    ∧ q ++ [step] <+: P

/-- **The loop invariant**: the current links are on the ways to the two keys, and so
are the candidate mutuals. -/
structure Climbing (db : XTreeDatabase L N A) (P Q : List Step) (lCur rCur : XLink L)
    (m : Mutuals L) : Prop where
  left : OnPath db lCur P
  right : OnPath db rCur Q
  first : ∀ p c, (m.entry p).1 = some c → ChildOnPath db p c P
  second : ∀ p c, (m.entry p).2 = some c → ChildOnPath db p c Q

/-- Two children of one link, each on its way. -/
def Met (db : XTreeDatabase L N A) (P Q : List Step) (l r : XLink L) : Prop :=
  ∃ p, ChildOnPath db p l P ∧ ChildOnPath db p r Q

theorem entry_set (m : Mutuals L) (p p' : XLink L) (v : Option (XLink L) × Option (XLink L)) :
    Mutuals.entry (m.set p v) p' = if p' = p then v else m.entry p' := by
  unfold Mutuals.entry
  rw [StdMap.lookup_set]
  split <;> rfl

/-- The parent of a link on the way to `P`, and the link below it. -/
theorem childOnPath_of_parent {cur p : XLink L} (h : OnPath db cur P)
    (hp : db.tryGetParentXLink cur = some (some p)) : ChildOnPath db p cur P := by
  obtain ⟨a, q, rfl, hpos, hpre⟩ := h
  rcases hpos.tryGetParentXLink hp with ⟨hnone, _⟩ | ⟨y, q', step, _, hres, hy, hq, _⟩
  · exact absurd hnone (by simp)
  · rw [Option.some.inj hres]
    exact ⟨y, q', step, a, rfl, hy, rfl, hq ▸ hpos, hq ▸ hpre⟩

omit [LinearOrder L] in
theorem ChildOnPath.parent_onPath {p c : XLink L} (h : ChildOnPath db p c P) :
    OnPath db p P := by
  obtain ⟨a, q, step, b, rfl, hq, _, _, hpre⟩ := h
  exact ⟨a, q, rfl, hq, (List.prefix_append q [step]).trans hpre⟩

omit [LinearOrder L] in
/-- A parent on the way is a proper ancestor. -/
theorem ChildOnPath.above {p c : XLink L} {k : L} (h : ChildOnPath db p c P) (hpk : p = .link k)
    (hk : Position db k Q) : Q <+: P ∧ P ≠ Q := by
  obtain ⟨a, q, step, b, ha, hq, _, _, hpre⟩ := h
  rw [ha, XLink.link.injEq] at hpk
  subst hpk
  rw [hk.unique hq]
  have hlen := hpre.length_le
  rw [List.length_append, List.length_singleton] at hlen
  refine ⟨(List.prefix_append q [step]).trans hpre, ?_⟩
  rintro rfl
  omega

/-- One half of the loop body, on the left. -/
theorem climbLeft_spec {lCur rCur : XLink L} {m : Mutuals L} {parent : Option (XLink L)}
    (hr : Position db r Q) (h : Climbing db P Q lCur rCur m)
    (hp : db.tryGetParentXLink lCur = some parent) :
    match climbLeft (.link r) lCur rCur m parent with
    | .done res => Stands P Q res
    | .siblings l' r' => Met db P Q l' r'
    | .on l' r' m' => Climbing db P Q l' r' m' := by
  unfold climbLeft
  cases parent with
  -- no parent: the climb goes on as it is
  | none => exact h
  | some p =>
      have hchild := childOnPath_of_parent h.left hp
      dsimp only
      by_cases hpr : p = .link r
      · -- the other link itself is above
        rw [if_pos hpr]
        obtain ⟨hpre, hne⟩ := hchild.above hpr hr
        exact .under hpre hne
      · rw [if_neg hpr]
        cases hsecond : (m.entry p).2 with
        -- the other side has been here: the children met it by are siblings below it
        | some r' => exact ⟨p, hchild, h.second p r' hsecond⟩
        | none =>
            -- a new entry of the map, on this side
            refine ⟨hchild.parent_onPath, h.right, ?_, ?_⟩
            · intro p' c hc
              rw [entry_set] at hc
              by_cases hpp : p' = p
              · rw [if_pos hpp] at hc
                rw [hpp, ← Option.some.inj hc]
                exact hchild
              · rw [if_neg hpp] at hc
                exact h.first p' c hc
            · intro p' c hc
              rw [entry_set] at hc
              by_cases hpp : p' = p
              · rw [if_pos hpp] at hc
                exact absurd hc (by simp)
              · rw [if_neg hpp] at hc
                exact h.second p' c hc

/-- The other half, on the right. -/
theorem climbRight_spec {lCur rCur : XLink L} {m : Mutuals L} {parent : Option (XLink L)}
    (hl : Position db l P) (h : Climbing db P Q lCur rCur m)
    (hp : db.tryGetParentXLink rCur = some parent) :
    match climbRight (.link l) lCur rCur m parent with
    | .done res => Stands P Q res
    | .siblings l' r' => Met db P Q l' r'
    | .on l' r' m' => Climbing db P Q l' r' m' := by
  unfold climbRight
  cases parent with
  | none => exact h
  | some p =>
      have hchild := childOnPath_of_parent h.right hp
      dsimp only
      by_cases hpl : p = .link l
      · rw [if_pos hpl]
        obtain ⟨hpre, hne⟩ := hchild.above hpl hl
        exact .above hpre (Ne.symm hne)
      · -- not there: the map decides, as on the left
        rw [if_neg hpl]
        cases hfirst : (m.entry p).1 with
        | some l' => exact ⟨p, h.first p l' hfirst, hchild⟩
        | none =>
            refine ⟨h.left, hchild.parent_onPath, ?_, ?_⟩
            · intro p' c hc
              rw [entry_set] at hc
              by_cases hpp : p' = p
              · rw [if_pos hpp] at hc
                exact absurd hc (by simp)
              · rw [if_neg hpp] at hc
                exact h.first p' c hc
            · intro p' c hc
              rw [entry_set] at hc
              by_cases hpp : p' = p
              · rw [if_pos hpp] at hc
                rw [hpp, ← Option.some.inj hc]
                exact hchild
              · rw [if_neg hpp] at hc
                exact h.second p' c hc

omit [LinearOrder L] in
/-- Children of one link compare by their places in its node. -/
theorem compareSiblings_spec {lCur rCur : XLink L} {res : Int × RelType}
    (h : Met db P Q lCur rCur) (hres : compareSiblings db lCur rCur = some res) :
    Stands P Q res := by
  obtain ⟨p, ⟨a, q, s₁, b, rfl, hq, rfl, hb, hpre⟩, ⟨a', q', s₂, b', ha, hq', rfl, hb', hpre'⟩⟩ := h
  rw [XLink.link.injEq] at ha
  subst ha
  obtain rfl := hq.unique hq'
  obtain ⟨lRow, hlRow, hs₁⟩ := hb.row_below hq
  obtain ⟨rRow, hrRow, hs₂⟩ := hb'.row_below hq
  obtain ⟨s, hP⟩ := hpre
  obtain ⟨t, hQ⟩ := hpre'
  have hP' : P = q ++ s₁ :: s := by rw [← hP, List.append_assoc, List.singleton_append]
  have hQ' : Q = q ++ s₂ :: t := by rw [← hQ, List.append_assoc, List.singleton_append]
  unfold compareSiblings at hres
  simp only [hlRow, hrRow, Option.bind_eq_bind, Option.bind_some] at hres
  subst hs₁ hs₂
  split at hres
  · -- itemisation is primary
    next hitem =>
    cases hres
    rw [← siblingType_item hq.ne_nil (sub_ne_zero.mp hitem)]
    refine .siblings hP' hQ' ?_
    rw [Prod.Lex.toLex_lt_toLex, Prod.Lex.toLex_lt_toLex]
    dsimp only
    omega
  · next hitem =>
    split at hres
    · -- secondary is position inside the container
      cases hres
      rw [← siblingType_container hq.ne_nil (sub_eq_zero.mp (not_not.mp hitem))]
      refine .siblings hP' hQ' ?_
      rw [Prod.Lex.toLex_lt_toLex, Prod.Lex.toLex_lt_toLex]
      dsimp only
      omega
    · exact absurd hres (by simp)

/-- Roots compare by their trees. -/
theorem compareRoots_spec {lCur rCur : XLink L} {res : Int × RelType}
    (hl : OnPath db lCur P) (hr : OnPath db rCur Q)
    (hpl : db.tryGetParentXLink lCur = some none) (hpr : db.tryGetParentXLink rCur = some none)
    (hres : compareRoots db lCur rCur = some res) : Stands P Q res := by
  obtain ⟨a, p, rfl, hpos, hpre⟩ := hl
  obtain ⟨b, q, rfl, hpos', hpre'⟩ := hr
  rcases hpos.tryGetParentXLink hpl with ⟨_, o, lRow, rfl, hlRow, ho⟩ | ⟨_, _, _, _, hsome, _⟩
  · rcases hpos'.tryGetParentXLink hpr with ⟨_, o', rRow, rfl, hrRow, ho'⟩ | ⟨_, _, _, _, hsome, _⟩
    · obtain ⟨s, hP⟩ := hpre
      obtain ⟨t, hQ⟩ := hpre'
      unfold compareRoots at hres
      simp only [hlRow, hrRow, Option.bind_eq_bind, Option.bind_some] at hres
      obtain ⟨hne, hres⟩ := ASSERT_bind_eq_some.mp hres
      cases hres
      have htype : siblingType [] (toLex (o, -1)) (toLex (o', -1)) = .rootSiblings := rfl
      rw [← htype]
      refine .siblings hP.symm hQ.symm ?_
      rw [Prod.Lex.toLex_lt_toLex, Prod.Lex.toLex_lt_toLex]
      dsimp only
      omega
    · exact absurd hsome (by simp)
  · exact absurd hsome (by simp)

theorem compareLoop_spec (hl : Position db l P) (hr : Position db r Q) (fuel : Nat) :
    ∀ {lCur rCur : XLink L} {m : Mutuals L} {res : Int × RelType},
      Climbing db P Q lCur rCur m →
      compareLoop db (.link l) (.link r) fuel lCur rCur m = some res → Stands P Q res := by
  -- on the fuel; `Climbing` says where the two climbs are
  induction fuel with
  | zero =>
      intro lCur rCur m res _ hres
      exact absurd hres (by simp [compareLoop])
  | succ fuel ih =>
      intro lCur rCur m res hinv hres
      unfold compareLoop at hres
      obtain ⟨lParent, hlp, hres⟩ := Option.bind_eq_some_iff.mp hres
      obtain ⟨rParent, hrp, hres⟩ := Option.bind_eq_some_iff.mp hres
      -- both have come to their roots
      by_cases hroots : lParent = none ∧ rParent = none
      · rw [if_pos hroots] at hres
        exact compareRoots_spec hinv.left hinv.right (hroots.1 ▸ hlp) (hroots.2 ▸ hrp) hres
      rw [if_neg hroots] at hres
      -- the left half of the body, then the right one
      have hleft := climbLeft_spec hr hinv hlp
      cases hcl : climbLeft (.link r) lCur rCur m lParent with
      | done d =>
          rw [hcl] at hres hleft
          exact Option.some.inj hres ▸ hleft
      | siblings l' r' =>
          rw [hcl] at hres hleft
          exact compareSiblings_spec hleft hres
      | on l' r' m' =>
          rw [hcl] at hres hleft
          dsimp only at hres hleft
          -- the left half does not move the right link
          have hr' : r' = rCur := by
            unfold climbLeft at hcl
            cases lParent with
            | none => cases hcl; rfl
            | some p =>
                dsimp only at hcl
                split at hcl
                · cases hcl
                · split at hcl <;> cases hcl
                  rfl
          have hright := climbRight_spec hl hleft (hr' ▸ hrp)
          cases hcr : climbRight (.link l) l' r' m' rParent with
          | done d =>
              rw [hcr] at hres hright
              exact Option.some.inj hres ▸ hright
          | siblings l'' r'' =>
              rw [hcr] at hres hright
              exact compareSiblings_spec hright hres
          | on l'' r'' m'' =>
              rw [hcr] at hres hright
              dsimp only at hres hright
              split at hres
              · exact absurd hres (by simp)
              · exact ih hright hres

/-- **A comparison that returns says how the two links stand**, and of which kind they
are. -/
theorem compareHierarchical_stands (hl : Position db l P) (hr : Position db r Q)
    {res : Int × RelType} (hres : compareHierarchical db (.link l) (.link r) = some res) :
    Stands P Q res := by
  unfold compareHierarchical at hres
  by_cases hlr : l = r
  · rw [if_pos (by rw [hlr])] at hres
    subst hlr
    rw [← Option.some.inj hres]
    exact .equal (hl.unique hr)
  · rw [if_neg (by simpa using hlr)] at hres
    refine compareLoop_spec hl hr _ ⟨⟨l, P, rfl, hl, List.prefix_refl P⟩,
      ⟨r, Q, rfl, hr, List.prefix_refl Q⟩, ?_, ?_⟩ hres
    · intro p c hc
      exact absurd hc (by simp [Mutuals.entry])
    · intro p c hc
      exact absurd hc (by simp [Mutuals.entry])

theorem compareHierarchical_spec (hl : Position db l P) (hr : Position db r Q)
    {res : Int × RelType} (hres : compareHierarchical db (.link l) (.link r) = some res) :
    Compared P Q res :=
  (compareHierarchical_stands hl hr hres).compared

end DepthFirstRelation

/-! ## §3. The last descendant. -/

namespace XTrees

/-- The last link an item holds; a null singular holds none. -/
def itemBack (t : XTrees L N A) : Item L → Option L
  | .singular l => if (t.childOf l).isSome then some l else none
  | .sequence ls => ls.getLast?
  | .collection ls => ls.getLast?

/-- The search backward over the items. -/
def lastChild (t : XTrees L N A) (node : N) : Option L :=
  (t.itemise node).reverse.findSome? t.itemBack

/-- `GetLastDescendantXLink`. -/
def getLastDescendantXLink (t : XTrees L N A) : Nat → L → Option L
  | 0, _ => none
  | fuel + 1, base => do
      let x ← t.childOf base
      match t.lastChild x with
      | some l => getLastDescendantXLink t fuel l
      | none => some base

end XTrees

namespace Position

variable {P Q X : List Step}

/-- Below a link there is a child of it on the way. -/
theorem child_toward (hbase : Position db y P) (h : Position db x X) (hpre : P <+: X)
    (hne : P ≠ X) : ∃ node i item k z, db.Place y node i item k z
      ∧ P ++ [stepTo i item k] <+: X := by
  induction h with
  | root h =>
      refine absurd (List.IsPrefix.eq_of_length hpre (le_antisymm hpre.length_le ?_)) hne
      exact Nat.succ_le_of_lt (List.length_pos_of_ne_nil hbase.ne_nil)
  | @child y' x p node i k item hy hp ih =>
      rcases List.prefix_concat_iff.mp hpre with heq | hpre'
      · exact absurd heq hne
      · by_cases hP : P = p
        · subst hP
          obtain rfl := hbase.injective hy
          exact ⟨node, i, item, k, x, hp, List.prefix_refl _⟩
        · obtain ⟨node', i', item', k', z, hz, hstep⟩ := ih hpre' hP
          exact ⟨node', i', item', k', z, hz, hstep.trans (List.prefix_append _ _)⟩

end Position

section

/-- An item with no back holds no child. -/
theorem itemBack_none (hmem : item ∈ db.itemise node) (hback : db.toXTrees.itemBack item = none)
    (hlink : (x, k) ∈ item.links.zipIdx) (hsome : (db.childOf x).isSome) : False := by
  have hx : x ∈ item.links := List.mem_of_getElem? (List.mem_zipIdx_iff_getElem?.mp hlink)
  cases item with
  | singular l =>
      obtain rfl : x = l := by simpa [Item.links] using hx
      simp only [XTrees.itemBack] at hback
      rw [if_pos hsome] at hback
      exact absurd hback (by simp)
  | sequence ls =>
      rw [Item.links, List.getLast?_eq_none_iff.mp hback] at hx
      exact absurd hx (by simp)
  | collection ls =>
      rw [Item.links, List.getLast?_eq_none_iff.mp hback] at hx
      exact absurd hx (by simp)

/-- The back of a container is its last place. -/
theorem back_of_container {ls : List L} {l : L} (hlinks : item.links = ls)
    (hord : ∀ k, item.ordinal k = k) (hback : ls.getLast? = some l) :
    ∃ k, (l, k) ∈ item.links.zipIdx ∧ ∀ k' z, (z, k') ∈ item.links.zipIdx →
      item.ordinal k' ≤ item.ordinal k := by
  refine ⟨ls.length - 1, ?_, ?_⟩
  · rw [hlinks, List.mem_zipIdx_iff_getElem?, ← hback, List.getLast?_eq_getElem?]
  · intro k' z hz
    rw [hlinks] at hz
    have hlt := (List.getElem?_eq_some_iff.mp (List.mem_zipIdx_iff_getElem?.mp hz)).1
    rw [hord, hord]
    dsimp only at hlt
    omega

theorem lastChild_none (h : db.toXTrees.lastChild node = none) :
    ¬ db.Place y node i item k x := by
  intro hplace
  have hmem := List.mem_of_getElem? (XTreeDatabase.item_getElem hplace)
  have hback := List.findSome?_eq_none_iff.mp h item (List.mem_reverse.mpr hmem)
  exact itemBack_none hmem hback hplace.link_mem hplace.nonnull

variable (hy : y ∈ db.rows.keys) (hchild : db.childOf y = some node)

include hy hchild

/-- The back of an item is a child, and none in the item comes after it. -/
theorem itemBack_some {l : L} (hmem : item ∈ db.itemise node)
    (hback : db.toXTrees.itemBack item = some l) : (db.childOf l).isSome ∧
    ∃ k, (l, k) ∈ item.links.zipIdx ∧ ∀ k' z, (z, k') ∈ item.links.zipIdx →
      item.ordinal k' ≤ item.ordinal k := by
  cases item with
  | singular l' =>
      simp only [XTrees.itemBack] at hback
      by_cases hl : (db.childOf l').isSome
      · rw [if_pos hl] at hback
        cases hback
        exact ⟨hl, 0, by simp [Item.links], fun k' z _ => le_refl _⟩
      · rw [if_neg hl] at hback
        exact absurd hback (by simp)
  | sequence ls =>
      refine ⟨?_, back_of_container rfl (fun k => rfl) hback⟩
      exact db.container_nonnull y hy node hchild _ hmem l (List.mem_of_getLast? hback) (by simp)
  | collection ls =>
      refine ⟨?_, back_of_container rfl (fun k => rfl) hback⟩
      exact db.container_nonnull y hy node hchild _ hmem l (List.mem_of_getLast? hback) (by simp)

/-- The last child is a child, and none of the node comes after it. -/
theorem lastChild_some {l : L} (h : db.toXTrees.lastChild node = some l) :
    ∃ i item k, db.Place y node i item k l ∧ ∀ i' item' k' z,
      db.Place y node i' item' k' z → stepTo i' item' k' ≤ stepTo i item k := by
  -- the items are searched from the last one
  obtain ⟨later, item, earlier, hsplit, hback, hlater⟩ := List.findSome?_eq_some_iff.mp h
  have hitems : db.itemise node = earlier.reverse ++ item :: later.reverse := by
    rw [← List.reverse_reverse (db.itemise node), hsplit]
    simp
  have hmem : item ∈ db.itemise node := by
    rw [hitems]
    exact List.mem_append_right _ List.mem_cons_self
  obtain ⟨hsome, k, hk, hmax⟩ := itemBack_some hy hchild hmem hback
  refine ⟨earlier.length, item, k, ⟨hchild, ?_, hk, hsome⟩, ?_⟩
  · rw [List.mem_zipIdx_iff_getElem?, hitems]
    simp
  · intro i' item' k' z hz
    have hget := XTreeDatabase.item_getElem hz
    have hmem' := List.mem_of_getElem? hget
    unfold stepTo
    rw [Prod.Lex.toLex_le_toLex]
    rcases lt_trichotomy i' earlier.length with hlt | heq | hgt
    · exact .inl (Int.ofNat_lt.mpr hlt)
    · have hsame : item' = item := by
        rw [hitems, heq] at hget
        simpa using hget.symm
      subst heq hsame
      exact .inr ⟨rfl, hmax k' z hz.link_mem⟩
    · -- the items after it hold no link
      have hin : item' ∈ later := by
        rw [hitems, List.getElem?_append_right (by simpa using hgt.le), List.length_reverse,
          List.getElem?_cons, if_neg (by omega)] at hget
        exact List.mem_reverse.mp (List.mem_of_getElem? hget)
      exact absurd (itemBack_none hmem' (hlater item' hin) hz.link_mem hz.nonnull) id

end

/-- **The last descendant** stands at the end of the interval of a link's subtree. -/
theorem getLastDescendantXLink_spec (fuel : Nat) : ∀ {base last : L} {P : List Step},
    Position db base P → db.toXTrees.getLastDescendantXLink fuel base = some last →
    ∃ Q, Position db last Q ∧ P <+: Q ∧ ∀ x X, Position db x X → P <+: X → X ≤ Q := by
  -- on the fuel, down the last children
  induction fuel with
  | zero =>
      intro base last P _ h
      exact absurd h (by simp [XTrees.getLastDescendantXLink])
  | succ fuel ih =>
      intro base last P hbase h
      unfold XTrees.getLastDescendantXLink at h
      obtain ⟨node, hnode, h⟩ := Option.bind_eq_some_iff.mp h
      cases hlast : db.toXTrees.lastChild node with
      | none =>
          rw [hlast] at h
          dsimp only at h
          rw [← Option.some.inj h]
          refine ⟨P, hbase, List.prefix_refl P, ?_⟩
          intro x X hx hpre
          -- nothing stands below a node without children
          by_cases hne : P = X
          · exact hne.ge
          · obtain ⟨node', i, item, k, z, hz, _⟩ := hbase.child_toward hx hpre hne
            have hnode' := Option.some.inj (hnode.symm.trans hz.child)
            subst hnode'
            exact absurd hz (lastChild_none hlast)
      | some c =>
          rw [hlast] at h
          dsimp only at h
          obtain ⟨i, item, k, hplace, hmax⟩ := lastChild_some hbase.mem_keys hnode hlast
          obtain ⟨Q, hQ, hpre, hall⟩ := ih (hbase.child hplace) h
          have hPQ : P <+: Q := (List.prefix_append P _).trans hpre
          refine ⟨Q, hQ, hPQ, ?_⟩
          intro x X hx hpreX
          -- what stands below the last child, or below a child before it
          by_cases hne : P = X
          · rw [← hne]
            exact le_below hPQ
          · obtain ⟨node', i', item', k', z, hz, hstep⟩ := hbase.child_toward hx hpreX hne
            have hnode' := Option.some.inj (hnode.symm.trans hz.child)
            subst hnode'
            have hle := hmax i' item' k' z hz
            rcases hle.lt_or_eq with hlt | heq
            · -- an earlier branch
              obtain ⟨s, rfl⟩ := hstep
              obtain ⟨t, rfl⟩ := hpre
              rw [List.append_assoc, List.append_assoc]
              exact (branch_lt P s t hlt).le
            · exact hall x X hx (heq ▸ hstep)

end Inferno.DB
