/-
  Inferno.DB.DBWalk
  ─────────────────
  The walk of a tree zone: every link of the zone in turn, an action for each.

    • `WalkInfo`, `WalkKit`  — what an action is told, and what the visitors share,
    • `walkTreeZone`         — the visitors; `none` is an assertion, and the fuel is
                               more than the depth of the zone,
    • `stepsBelow`           — the non-null children of a link, with the step to each,
    • `walkTreeZone_subtree` — winding in over a whole subtree visits the links below its
                               base in depth-first order.
-/
import Inferno.DB.DFTotal
import Inferno.Lib.Preorder

namespace Inferno.DB

open Inferno.Common Inferno.Lib

/-! ## §1. The visitors. -/

/-- `DBWalk::WalkInfo`; the link of a null pointer is `XLink()`. -/
structure WalkInfo (L N : Type) where
  core : CoreInfo L N
  xlink : Option L
  node : Option N
  treeOrdinal : Int
  atTerminus : Bool
  atBase : Bool

/-- `DBWalk::Wind`. -/
inductive Wind where
  | windIn
  | windOut
deriving DecidableEq

/-- `DBWalk::WalkKit`, but for the action and the index that the walk moves. -/
structure WalkKit (L : Type) where
  terminii : List L
  treeOrdinal : Int
  wind : Wind

/-- What a walk changes: the index of the next terminus, and what the action was
called with. -/
structure WalkState (L N : Type) where
  nextTerminusIndex : Nat
  calls : List (WalkInfo L N)

/-- `kit.action(walk_info)`. -/
def WalkState.action {L N : Type} (s : WalkState L N) (info : WalkInfo L N) : WalkState L N :=
  { s with calls := s.calls ++ [info] }

/-- The state after more calls. -/
def WalkState.record {L N : Type} (s : WalkState L N) (infos : List (WalkInfo L N)) :
    WalkState L N :=
  { s with calls := s.calls ++ infos }

namespace XTrees

variable {L N A : Type} (t : XTrees L N A) (kit : WalkKit L)

/-- What the visitors of items say of the link at place `k` of item `i` of `node`. -/
def walkInfo (node : N) (i : Nat) (item : Item L) (k : Nat) (x : L) : WalkInfo L N where
  core := visitInfo node i item k
  xlink := if (t.childOf x).isSome then some x else none
  node := t.childOf x
  treeOrdinal := kit.treeOrdinal
  atTerminus := false
  atBase := false

section

variable (visitNode : WalkInfo L N → WalkState L N → Option (WalkState L N))

/-- `VisitSingular`. -/
def visitSingular (node : N) (i : Nat) (l : L) (s : WalkState L N) : Option (WalkState L N) :=
  visitNode (t.walkInfo kit node i (.singular l) 0 l) s

/-- `VisitSequence`. -/
def visitSequence (node : N) (i : Nat) (ls : List L) (s : WalkState L N) :
    Option (WalkState L N) :=
  ls.zipIdx.foldlM (fun s (x, k) => visitNode (t.walkInfo kit node i (.sequence ls) k x) s) s

/-- `VisitCollection`. -/
def visitCollection (node : N) (i : Nat) (ls : List L) (s : WalkState L N) :
    Option (WalkState L N) :=
  ls.zipIdx.foldlM (fun s (x, k) => visitNode (t.walkInfo kit node i (.collection ls) k x) s) s

/-- One turn of the loop of `VisitItemise`. -/
def visitItem (node : N) (s : WalkState L N) : Item L × Nat → Option (WalkState L N)
  | (.sequence ls, i) => t.visitSequence kit visitNode node i ls s
  | (.collection ls, i) => t.visitCollection kit visitNode node i ls s
  | (.singular l, i) => t.visitSingular kit visitNode node i l s

/-- `VisitItemise`. -/
def visitItemise (node : N) (s : WalkState L N) : Option (WalkState L N) :=
  (t.itemise node).zipIdx.foldlM (t.visitItem kit visitNode node) s

end

section

variable [DecidableEq L]

/-- `VisitNode`. -/
def visitNode : Nat → WalkInfo L N → WalkState L N → Option (WalkState L N)
  | 0, _, _ => none
  | fuel + 1, info, s => do
      let info := { info with
        atTerminus := info.node.isSome && s.nextTerminusIndex < kit.terminii.length
          && info.xlink = kit.terminii[s.nextTerminusIndex]? }
      let s := if info.atTerminus then { s with nextTerminusIndex := s.nextTerminusIndex + 1 }
        else s
      match info.node with
      | none => some s
      | some node => do
          let s := if kit.wind = .windIn then s.action info else s
          -- recurse into the child nodes, but stop at terminii
          let s ← if info.atTerminus then some s
            else t.visitItemise kit (visitNode fuel) node s
          some (if kit.wind = .windOut then s.action info else s)

/-- `VisitBase`. -/
def visitBase (fuel : Nat) (base : L) (baseInfo : CoreInfo L N) (s : WalkState L N) :
    Option (WalkState L N) :=
  t.visitNode kit fuel ⟨baseInfo, some base, t.childOf base, kit.treeOrdinal, false, true⟩ s

/-- `WalkTreeZone`: what the action was called with. -/
def walkTreeZone (fuel : Nat) (base : L) (baseInfo : CoreInfo L N) :
    Option (List (WalkInfo L N)) := do
  let s ← t.visitBase kit fuel base baseInfo ⟨0, []⟩
  ASSERT (s.nextTerminusIndex = kit.terminii.length)
  some s.calls

end

/-! ## §2. The children of a link. -/

/-- The children in one item. -/
def stepsInItem (i : Nat) (item : Item L) : List (Step × L) :=
  item.links.zipIdx.filterMap fun (x, k) =>
    if (t.childOf x).isSome then some (stepTo i item k, x) else none

/-- **The children of a link**, with the step to each. -/
def stepsBelow (y : L) : List (Step × L) :=
  ((t.childOf y).map fun node =>
    (t.itemise node).zipIdx.flatMap fun (item, i) => t.stepsInItem i item).getD []

theorem mem_stepsInItem {i : Nat} {item : Item L} {a : Step} {x : L} :
    (a, x) ∈ t.stepsInItem i item
      ↔ ∃ k, (x, k) ∈ item.links.zipIdx ∧ (t.childOf x).isSome ∧ a = stepTo i item k := by
  unfold stepsInItem
  rw [List.mem_filterMap]
  constructor
  · rintro ⟨⟨z, k⟩, hz, heq⟩
    dsimp only at heq
    split at heq
    next hsome =>
      cases heq
      exact ⟨k, hz, hsome, rfl⟩
    next => exact absurd heq (by simp)
  · rintro ⟨k, hx, hsome, rfl⟩
    exact ⟨(x, k), hx, if_pos hsome⟩

/-- The children of a link are the links placed in its node. -/
theorem mem_stepsBelow {y : L} {a : Step} {x : L} :
    (a, x) ∈ t.stepsBelow y
      ↔ ∃ node i item k, t.Place y node i item k x ∧ a = stepTo i item k := by
  unfold stepsBelow
  cases hchild : t.childOf y with
  | none =>
      constructor
      · intro h
        exact absurd h (by simp)
      · rintro ⟨node, i, item, k, hplace, _⟩
        exact absurd (hchild.symm.trans hplace.child) (by simp)
  | some node =>
      rw [Option.map_some, Option.getD_some, List.mem_flatMap]
      constructor
      · rintro ⟨⟨item, i⟩, hitem, hmem⟩
        obtain ⟨k, hx, hsome, ha⟩ := t.mem_stepsInItem.mp hmem
        exact ⟨node, i, item, k, ⟨hchild, hitem, hx, hsome⟩, ha⟩
      · rintro ⟨node', i, item, k, hplace, ha⟩
        obtain rfl := Option.some.inj (hchild.symm.trans hplace.child)
        exact ⟨(item, i), hplace.item_mem,
          t.mem_stepsInItem.mpr ⟨k, hplace.link_mem, hplace.nonnull, ha⟩⟩

/-- The places of a list are in order. -/
theorem places_sorted {E : Type} (ls : List E) : ls.zipIdx.Pairwise fun p q => p.2 < q.2 := by
  have hrange : (ls.zipIdx.map (·.2)).Pairwise (· < ·) := by
    rw [List.zipIdx_map_snd]
    exact List.pairwise_lt_range'
  exact List.pairwise_map.mp hrange

/-- The children in one item are in the order of their steps. -/
theorem stepsInItem_sorted (i : Nat) (item : Item L) :
    (t.stepsInItem i item).Pairwise fun c d => c.1 < d.1 := by
  unfold stepsInItem
  rw [List.pairwise_filterMap]
  -- the steps of a container are by place, and a singular item has one
  have hstep : item.links.zipIdx.Pairwise fun p q => stepTo i item p.2 < stepTo i item q.2 := by
    cases item with
    | singular l => simp [Item.links]
    | sequence ls =>
        refine (places_sorted ls).imp ?_
        intro p q hpq
        exact Prod.Lex.toLex_lt_toLex.mpr (.inr ⟨rfl, Int.ofNat_lt.mpr hpq⟩)
    | collection ls =>
        refine (places_sorted ls).imp ?_
        intro p q hpq
        exact Prod.Lex.toLex_lt_toLex.mpr (.inr ⟨rfl, Int.ofNat_lt.mpr hpq⟩)
  refine hstep.imp ?_
  rintro ⟨x, k⟩ ⟨x', k'⟩ hpq c hc d hd
  obtain ⟨_, hc⟩ := Option.ite_none_right_eq_some.mp hc
  obtain ⟨_, hd⟩ := Option.ite_none_right_eq_some.mp hd
  cases hc
  cases hd
  exact hpq

/-- **The children of a link are in the order of their steps.** -/
theorem stepsBelow_sorted (y : L) : (t.stepsBelow y).Pairwise fun c d => c.1 < d.1 := by
  unfold stepsBelow
  cases t.childOf y with
  | none => exact List.Pairwise.nil
  | some node =>
      rw [Option.map_some, Option.getD_some, List.pairwise_flatMap]
      constructor
      · intro p _
        exact t.stepsInItem_sorted p.2 p.1
      · refine (places_sorted (t.itemise node)).imp ?_
        intro p q hpq c hc d hd
        obtain ⟨a, x⟩ := c
        obtain ⟨b, x'⟩ := d
        obtain ⟨k, _, _, rfl⟩ := t.mem_stepsInItem.mp hc
        obtain ⟨k', _, _, rfl⟩ := t.mem_stepsInItem.mp hd
        exact Prod.Lex.toLex_lt_toLex.mpr (.inl (Int.ofNat_lt.mpr hpq))

end XTrees

/-! ## §3. Positions below a link. -/

section

variable {L N A : Type} {db : XTreeDatabase L N A} {x y : L} {P p : List Step}

/-- **The links below a link** are those whose positions extend its position. -/
theorem pathBelow_iff (hx : Position db x P) :
    PathBelow db.stepsBelow x p y ↔ Position db y (P ++ p) := by
  constructor
  · intro h
    induction h generalizing P with
    | here x =>
        rw [List.append_nil]
        exact hx
    | step hc _ ih =>
        obtain ⟨node, i, item, k, hplace, rfl⟩ := db.mem_stepsBelow.mp hc
        have hz := ih (hx.child hplace)
        rw [List.append_assoc, List.singleton_append] at hz
        exact hz
  · intro h
    -- by induction on the path, from its last step
    induction p using List.reverseRecOn generalizing y with
    | nil =>
        rw [List.append_nil] at h
        rw [hx.injective h]
        exact .here y
    | append_singleton p a ih =>
        generalize hq : P ++ (p ++ [a]) = q at h
        cases h with
        | root h =>
            have hlen := congrArg List.length hq
            have hpos := List.length_pos_of_ne_nil hx.ne_nil
            simp only [List.length_append, List.length_singleton] at hlen
            omega
        | child hy hplace =>
            rw [← List.append_assoc] at hq
            obtain ⟨hinit, hlast⟩ := List.append_inj' hq rfl
            rw [List.singleton_inj.mp hlast]
            exact (ih (hinit ▸ hy)).snoc (db.mem_stepsBelow.mpr ⟨_, _, _, _, hplace, rfl⟩)

end

/-! ## §4. Winding in over a subtree. -/

namespace XTrees

variable {L N A : Type} {t : XTrees L N A} {kit : WalkKit L}

/-- Every kind of item visits its links in turn. -/
theorem visitItem_eq (visit : WalkInfo L N → WalkState L N → Option (WalkState L N)) (node : N)
    (s : WalkState L N) (item : Item L) (i : Nat) :
    t.visitItem kit visit node s (item, i)
      = item.links.zipIdx.foldlM (fun s (x, k) => visit (t.walkInfo kit node i item k x) s) s := by
  cases item with
  | singular l =>
      show visit (t.walkInfo kit node i (.singular l) 0 l) s = _
      simp [Item.links]
  | sequence ls => rfl
  | collection ls => rfl

/-- A loop whose turns only record calls. -/
theorem foldlM_record {E : Type} {f : WalkState L N → E → Option (WalkState L N)}
    {links : E → List L} (l : List E)
    (hturn : ∀ e ∈ l, ∀ s, ∃ infos, f s e = some (s.record infos)
      ∧ infos.map (·.xlink) = (links e).map some) (s : WalkState L N) :
    ∃ infos, l.foldlM f s = some (s.record infos)
      ∧ infos.map (·.xlink) = (l.flatMap links).map some := by
  induction l generalizing s with
  | nil => exact ⟨[], by simp [WalkState.record], rfl⟩
  | cons e l ih =>
      obtain ⟨infos, he, hlinks⟩ := hturn e List.mem_cons_self s
      obtain ⟨rest, hl, hrest⟩ := ih (fun e he => hturn e (List.mem_cons_of_mem _ he))
        (s.record infos)
      refine ⟨infos ++ rest, ?_, ?_⟩
      · rw [List.foldlM_cons, he]
        show l.foldlM f (s.record infos) = _
        rw [hl]
        simp [WalkState.record]
      · rw [List.map_append, List.flatMap_cons, List.map_append, hlinks, hrest]

/-- The links at or below a link, down to a depth. -/
def linksBelow (t : XTrees L N A) (depth : Nat) (x : L) : List L :=
  (preorder t.stepsBelow depth x).map (·.2)

theorem linksBelow_succ (depth : Nat) (x : L) :
    t.linksBelow (depth + 1) x
      = x :: (t.stepsBelow x).flatMap fun c => t.linksBelow depth c.2 := by
  unfold linksBelow
  rw [preorder, List.map_cons, List.map_flatMap]
  simp only [List.map_map, Function.comp_def]

/-- The links below the children in one item. -/
theorem flatMap_stepsInItem (depth i : Nat) (item : Item L) :
    ((t.stepsInItem i item).flatMap fun c => t.linksBelow depth c.2)
      = item.links.zipIdx.flatMap fun p =>
          if (t.childOf p.1).isSome then t.linksBelow depth p.1 else [] := by
  unfold stepsInItem
  induction item.links.zipIdx with
  | nil => rfl
  | cons p ps ih =>
      obtain ⟨x, k⟩ := p
      rw [List.flatMap_cons, ← ih]
      by_cases hx : (t.childOf x).isSome
      · simp only [List.filterMap_cons, if_pos hx, List.flatMap_cons]
      · simp only [List.filterMap_cons, if_neg hx, List.nil_append]

section

variable [DecidableEq L] (hterm : kit.terminii = []) (hwind : kit.wind = .windIn)

include hterm

/-- A null pointer is passed over. -/
theorem visitNode_null {info : WalkInfo L N} (hnode : info.node = none) (fuel : Nat)
    (s : WalkState L N) : t.visitNode kit (fuel + 1) info s = some s := by
  simp [visitNode, hnode, hterm]

include hwind

/-- A node without terminii above it. -/
theorem visitNode_some {info : WalkInfo L N} {node : N} (hnode : info.node = some node)
    (fuel : Nat) (s : WalkState L N) :
    t.visitNode kit (fuel + 1) info s
      = t.visitItemise kit (t.visitNode kit fuel) node
          (s.record [{ info with atTerminus := false }]) := by
  simp [visitNode, hnode, hterm, hwind, WalkState.action, WalkState.record]

end

end XTrees

section

variable {L N A : Type} [LinearOrder L] {db : XTreeDatabase L N A} {kit : WalkKit L}

/-- **Winding in from a link** visits the links below it in the order of the walk: by
induction on the fuel, which the depth of the database bounds. -/
theorem visitNode_linksBelow (hterm : kit.terminii = []) (hwind : kit.wind = .windIn)
    (fuel : Nat) : ∀ {x : L} {P : List Step} {info : WalkInfo L N}, Position db x P →
      db.rows.keys.card + 1 < P.length + fuel → info.xlink = some x →
      info.node = db.childOf x → ∀ s, ∃ infos,
        db.toXTrees.visitNode kit fuel info s = some (s.record infos)
          ∧ infos.map (·.xlink) = (db.toXTrees.linksBelow fuel x).map some := by
  -- on the fuel; the depth of a position is bounded by the number of links
  induction fuel with
  | zero =>
      intro x P info hx hfuel
      have hlen := hx.length_le_card
      omega
  | succ fuel ih =>
      intro x P info hx hfuel hlink hnode s
      have hlen := hx.length_le_card
      obtain ⟨fuel, rfl⟩ : ∃ n, fuel = n + 1 := ⟨fuel - 1, by omega⟩
      obtain ⟨node, hchild⟩ := Option.isSome_iff_exists.mp (db.row_nonnull x hx.mem_keys)
      rw [XTrees.visitNode_some hterm hwind (hnode.trans hchild)]
      -- a link of an item: passed over when null, else the walk below it
      have hlinks : ∀ p ∈ (db.itemise node).zipIdx, ∀ q ∈ p.1.links.zipIdx, ∀ s, ∃ infos,
          db.toXTrees.visitNode kit (fuel + 1)
              (db.toXTrees.walkInfo kit node p.2 p.1 q.2 q.1) s = some (s.record infos)
            ∧ infos.map (·.xlink)
              = (if (db.childOf q.1).isSome then db.toXTrees.linksBelow (fuel + 1) q.1
                  else []).map some := by
        intro p hp q hq s
        by_cases hsome : (db.childOf q.1).isSome
        · rw [if_pos hsome]
          have hplace : db.Place x node p.2 p.1 q.2 q.1 := ⟨hchild, hp, hq, hsome⟩
          refine ih (hx.child hplace) ?_ (if_pos hsome) rfl s
          rw [List.length_append, List.length_singleton]
          omega
        · rw [if_neg hsome]
          refine ⟨[], ?_, rfl⟩
          rw [XTrees.visitNode_null hterm (Option.not_isSome_iff_eq_none.mp hsome)]
          simp [WalkState.record]
      -- an item, and then all of them
      have hitems : ∀ p ∈ (db.itemise node).zipIdx, ∀ s, ∃ infos,
          db.toXTrees.visitItem kit (db.toXTrees.visitNode kit (fuel + 1)) node s p
              = some (s.record infos)
            ∧ infos.map (·.xlink)
              = ((db.toXTrees.stepsInItem p.2 p.1).flatMap fun c =>
                  db.toXTrees.linksBelow (fuel + 1) c.2).map some := by
        intro p hp s
        rw [XTrees.visitItem_eq, XTrees.flatMap_stepsInItem]
        exact XTrees.foldlM_record _ (hlinks p hp) s
      -- the node itself, and then all its items
      obtain ⟨infos, hrun, hmap⟩ := XTrees.foldlM_record _ hitems
        (s.record [{ info with atTerminus := false }])
      refine ⟨{ info with atTerminus := false } :: infos, ?_, ?_⟩
      · unfold XTrees.visitItemise
        rw [hrun]
        simp [WalkState.record]
      · rw [List.map_cons, hmap, XTrees.linksBelow_succ, List.map_cons, hlink]
        unfold XTrees.stepsBelow
        rw [hchild, Option.map_some, Option.getD_some, List.flatMap_assoc]

/-- **Winding in over a whole subtree** visits the links below its base in depth-first
order, whatever the walk is told of the base. -/
theorem walkTreeZone_subtree (hterm : kit.terminii = []) (hwind : kit.wind = .windIn) {x : L}
    {P : List Step} (hx : Position db x P) (baseInfo : CoreInfo L N) :
    ∃ infos, db.toXTrees.walkTreeZone kit (db.rows.keys.card + 1) x baseInfo = some infos
      ∧ infos.map (·.xlink)
        = (db.toXTrees.linksBelow (db.rows.keys.card + 1) x).map some := by
  have hlen := List.length_pos_of_ne_nil hx.ne_nil
  let base : WalkInfo L N := ⟨baseInfo, some x, db.childOf x, kit.treeOrdinal, false, true⟩
  have hlink : base.xlink = some x := rfl
  have hnode : base.node = db.childOf x := rfl
  obtain ⟨infos, hrun, hmap⟩ :=
    visitNode_linksBelow hterm hwind (db.rows.keys.card + 1) hx (by omega) hlink hnode ⟨0, []⟩
  refine ⟨infos, ?_, hmap⟩
  unfold XTrees.walkTreeZone XTrees.visitBase
  rw [hrun]
  simp [WalkState.record, hterm, ASSERT]

end

end Inferno.DB
