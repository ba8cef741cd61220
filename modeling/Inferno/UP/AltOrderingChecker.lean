/-
  Inferno.UP.AltOrderingChecker
  ─────────────────────────────
  The ordering pass leaves a layout that the alternative ordering checker passes.

    • `worker`, `check` — `AltOrderingChecker`,
    • `treatAsFree`  — the layout with a free patch for each patch that is not default,
    • `LayoutInOrder` — what is in order in a layout, by the intents it stores,
    • `check_of_layoutInOrder` — the checker passes such a layout, where no zone is empty,
    • `orderingPass_inOrder` — the pass returns, takes intents away, and leaves such a
                       layout.
-/
import Inferno.DB.FlatDatabase
import Inferno.UP.Intents
import Inferno.UP.OrderingExact
import Mathlib

namespace Inferno.UP

open Inferno.Common Inferno.DB Inferno.Lib Patch

variable {P A : Type} {db : XTreeDatabase Nat Nat A} {base : Nat} {f g : Intents}
  {p q r c : Patch P}

/-! ## §1. The checker. -/

namespace AltOrderingChecker

mutual

/-- `AppendNextDescendantTreePatches`: what it appends. -/
def nextTreePatches : Patch P → List (Patch P)
  | .tree ptr zone intent originators children => [.tree ptr zone intent originators children]
  | .free _ _ _ children => nextTreePatchesAll children

def nextTreePatchesAll : List (Patch P) → List (Patch P)
  | [] => []
  | child :: rest => nextTreePatches child ++ nextTreePatchesAll rest

end

/-- `SoloElementOf`. -/
def soloElementOf {E : Type} : List E → Option E
  | [e] => some e
  | _ => none

/-- The comparison with the link before. -/
def checkPrev (db : XTreeDatabase Nat Nat A) (prev : Option Nat) (x : Nat) : Option Unit :=
  match prev with
  | none => some ()
  | some prev => do
      let p ← DepthFirstRelation.compareHierarchical db (.link prev) (.link x)
      ASSERT (p.1 < 0)
      ASSERT (p.2 ≠ .leftIsAncestor)

/-- The co-loop over the terminii and the children. -/
def checkTerminii (db : XTreeDatabase Nat Nat A) (work : Patch P → Nat → Option Unit)
    (base : Nat) : Option Nat → List Nat → List (Patch P) → Option Unit
  | _, [], [] => some ()
  | prev, terminus :: terminii, child :: children => do
      checkPrev db prev terminus
      let p ← DepthFirstRelation.compareHierarchical db (.link base) (.link terminus)
      ASSERT (p.2 = .leftIsAncestor)
      work child terminus
      checkTerminii db work base (some terminus) terminii children
  | _, _, _ => none -- length mismatch

/-- The loop over the bases of the next tree patches. -/
def checkBases (db : XTreeDatabase Nat Nat A) (xSubBase : Nat) :
    Option Nat → List (Patch P) → Option Unit
  | _, [] => some ()
  | prev, patch :: rest => do
      let base ← patch.base?
      checkPrev db prev base
      let p ← DepthFirstRelation.compareHierarchical db (.link xSubBase) (.link base)
      ASSERT (p.2 = .leftIsAncestor ∨ p.2 = .equal)
      checkBases db xSubBase (some base) rest

/-- `AltOrderingChecker::Worker`. -/
def worker (db : XTreeDatabase Nat Nat A) : Nat → Patch P → Nat → Bool → Option Unit
  | 0, _, _, _ => none
  | fuel + 1, .tree _ zone _ _ children, xSubBase, shouldTouch => do
      let p ← DepthFirstRelation.compareHierarchical db (.link xSubBase) (.link zone.base)
      ASSERT (p.2 = .equal ∨ shouldTouch = false ∧ p.2 = .leftIsAncestor)
      if zone.isEmpty then do
        let terminus ← soloElementOf zone.terminii
        ASSERT (zone.base = terminus)
        let child ← soloElementOf children
        worker db fuel child terminus true
      else checkTerminii db (worker db fuel · · false) zone.base none zone.terminii children
  | fuel + 1, .free ptr zone originators children, xSubBase, _ => do
      ASSERT zone.base.isSome -- not empty
      let patches := nextTreePatches (.free ptr zone originators children)
      checkBases db xSubBase none patches
      patches.forM fun patch => do
        let base ← patch.base?
        worker db fuel patch base false

/-- `AltOrderingChecker::Check`, with `db->GetMainRootXLink()`. -/
def check (db : XTreeDatabase Nat Nat A) (root : Nat) (layout : Patch P) : Option Unit :=
  worker db (layout.windIn.length + 1) layout root false

end AltOrderingChecker

open AltOrderingChecker

/-! ## §2. Layouts by their stored intents. -/

namespace Patch

mutual

/-- The next default tree patches, at or below a patch. -/
def nextDefaults : Patch P → List (Patch P)
  | .tree ptr zone intent originators children =>
      if intent = .default then [.tree ptr zone intent originators children]
      else nextDefaultsAll children
  | .free _ _ _ children => nextDefaultsAll children

def nextDefaultsAll : List (Patch P) → List (Patch P)
  | [] => []
  | child :: rest => nextDefaults child ++ nextDefaultsAll rest

end

mutual

/-- The layout with a free patch for each tree patch that is moved or copied. -/
def treatAsFree (freeZone : Nat → FreeZone) : Patch P → Patch P
  | .tree ptr zone intent originators children =>
      if intent = .default then
        .tree ptr zone intent originators (treatAsFreeAll freeZone children)
      else .free ptr (freeZone ptr) originators (treatAsFreeAll freeZone children)
  | .free ptr zone originators children =>
      .free ptr zone originators (treatAsFreeAll freeZone children)

def treatAsFreeAll (freeZone : Nat → FreeZone) : List (Patch P) → List (Patch P)
  | [] => []
  | child :: rest => treatAsFree freeZone child :: treatAsFreeAll freeZone rest

end

end Patch

/-- **Patches whose bases are in order within a subtree**: each base is at or below the
link, they are strictly increasing, and none is above another. -/
structure InSubtree (db : XTreeDatabase Nat Nat A) (x : Nat) (patches : List (Patch P)) :
    Prop where
  within : ∀ p ∈ patches, ∃ a, p.base? = some a ∧ a ∈ db.rows.keys ∧ db.WeakDescendant x a
  increasing : patches.Pairwise fun p q => ∀ a b, p.base? = some a → q.base? = some b →
    DFBefore db a b
  apart : patches.Pairwise fun p q => ∀ a b, p.base? = some a → q.base? = some b →
    ¬ db.Ancestor a b ∧ ¬ db.Ancestor b a

/-- **A layout in order.** -/
structure LayoutInOrder (db : XTreeDatabase Nat Nat A) (root : Nat) (layout : Patch P) :
    Prop where
  /-- No base is shared by two default patches. -/
  distinct : layout.windIn.Pairwise fun p q => p.IsDefault → q.IsDefault →
    p.base? ≠ q.base?
  /-- The next default patches from the root of the layout. -/
  root : InSubtree db root (nextDefaults layout)
  /-- The next default patches from each terminus of a default patch. -/
  terminii : ∀ p ∈ layout.windIn, p.IsDefault → ∀ goal ∈ goals p,
    InSubtree db goal.2 (nextDefaults goal.1)

/-- A zone with something between its base and each terminus, and its terminii in order. -/
def StrictZone (db : XTreeDatabase Nat Nat A) : Patch P → Prop
  | .tree _ zone _ _ children => zone.base ∈ db.rows.keys
      ∧ zone.terminii.length = children.length
      ∧ (∀ t ∈ zone.terminii, t ∈ db.rows.keys ∧ db.Ancestor zone.base t)
      ∧ zone.terminii.Pairwise fun t u => DFBefore db t u ∧ ¬ db.Ancestor t u
  | .free _ zone _ _ => zone.base.isSome

/-! ## §3. The pass and the stored intents. -/

mutual

/-- The stored intents say which patches are next. -/
theorem nextDefaults_withIntents : ∀ p : Patch P,
    nextDefaults (withIntents f p) = (nextDescendants f p).map (withIntents f)
  | .tree ptr zone intent originators cs => by
      rw [withIntents, nextDefaults, nextDescendants]
      by_cases hf : f ptr = .default
      · rw [if_pos hf, if_pos hf, List.map_singleton, withIntents]
      · rw [if_neg hf, if_neg hf]
        exact nextDefaultsAll_withIntents cs
  | .free ptr zone originators cs => by
      rw [withIntents, nextDefaults, nextDescendants]
      exact nextDefaultsAll_withIntents cs

theorem nextDefaultsAll_withIntents : ∀ cs : List (Patch P),
    nextDefaultsAll (withIntentsAll f cs) = (nextDescendantsAll f cs).map (withIntents f)
  | [] => rfl
  | c :: cs => by
      rw [withIntentsAll, nextDefaultsAll, nextDescendantsAll, List.map_append,
        nextDefaults_withIntents c, nextDefaultsAll_withIntents cs]

end

theorem goals_withIntents (p : Patch P) : goals (withIntents f p)
    = (goals p).map fun goal => (withIntents f goal.1, goal.2) := by
  cases p with
  | tree ptr zone intent originators cs =>
      rw [withIntents]
      show (withIntentsAll f cs).zip zone.terminii = (cs.zip zone.terminii).map _
      rw [withIntentsAll_eq, List.zip_map_left]
      rfl
  | free ptr zone originators cs =>
      rw [withIntents]
      rfl

/-- A link before another is not below it. -/
theorem not_ancestor_of_before {a b : Nat} (ha : a ∈ db.rows.keys) (hb : b ∈ db.rows.keys)
    (h : DFBefore db a b) : ¬ db.Ancestor b a := by
  intro habove
  obtain ⟨Q, hQ⟩ := Position.exists_of_mem hb
  obtain ⟨R, hR⟩ := Position.exists_of_mem ha
  obtain ⟨hpre, hne⟩ := (ancestor_iff hQ hR).mp habove
  obtain ⟨d, hd, hlt, _⟩ := DepthFirstRelation.compare3Way_total hQ hR
  have hba : DFBefore db b a := ⟨d, hd, hlt.mpr (PathOrder.lt_below hpre hne)⟩
  exact (DepthFirstRelation.compare3Way_threeWay db).asymm h hba

/-- What the pass accepts is in order, by the stored intents. -/
theorem Accepts.inSubtree {inOrderBases : Finset Nat} {patches : List (Patch P)}
    (h : Accepts db inOrderBases base patches) :
    InSubtree db base (patches.map (withIntents f)) := by
  refine ⟨?_, ?_, ?_⟩
  · intro p hp
    obtain ⟨q, hq, rfl⟩ := List.mem_map.mp hp
    obtain ⟨a, ha, hkeys, hdown, _⟩ := h.below q hq
    exact ⟨a, (base?_withIntents q).trans ha, hkeys, hdown⟩
  · rw [List.pairwise_map]
    refine h.sorted.imp ?_
    intro p q hpq a b ha hb
    rw [base?_withIntents] at ha hb
    exact (hpq a b ha hb).1
  · rw [List.pairwise_map]
    refine h.sorted.imp_of_mem ?_
    intro p q hp hq hpq a b ha hb
    rw [base?_withIntents] at ha hb
    obtain ⟨hbefore, hnot⟩ := hpq a b ha hb
    obtain ⟨a', ha', hkeysa, _⟩ := h.below p hp
    obtain ⟨b', hb', hkeysb, _⟩ := h.below q hq
    obtain rfl := Option.some.inj (ha.symm.trans ha')
    obtain rfl := Option.some.inj (hb.symm.trans hb')
    exact ⟨hnot, not_ancestor_of_before hkeysa hkeysb hbefore⟩

/-- Different default bases, pair by pair. -/
theorem pairwise_of_defaultBases {ps : List (Patch P)} (h : (defaultBases f ps).Nodup) :
    (ps.map (withIntents f)).Pairwise fun p q => p.IsDefault → q.IsDefault →
      p.base? ≠ q.base? := by
  rw [List.pairwise_map]
  have hfilter := (List.pairwise_filterMap.mp h)
  refine hfilter.imp ?_
  intro p q hpq hp hq
  obtain ⟨hpd, a, ha⟩ := (isDefault_withIntents p).mp hp
  obtain ⟨hqd, b, hb⟩ := (isDefault_withIntents q).mp hq
  rw [base?_withIntents, base?_withIntents, ha, hb]
  intro hab
  refine hpq a ?_ b ?_ (Option.some.inj hab)
  · rw [if_pos hpd]
    exact ha
  · rw [if_pos hqd]
    exact hb

/-- **A layout that is ordered under some intents**, with these intents stored. -/
theorem Ordered.layoutInOrder (h : Ordered db f p base)
    (hnodup : (defaultBases f p.windIn).Nodup) :
    LayoutInOrder db base (p.withIntents f) := by
  refine ⟨?_, ?_, ?_⟩
  · rw [windIn_withIntents]
    exact pairwise_of_defaultBases hnodup
  · rw [nextDefaults_withIntents]
    exact h.1.inSubtree
  · intro stored hstored hdefault goal hgoal
    rw [windIn_withIntents] at hstored
    obtain ⟨q, hq, rfl⟩ := List.mem_map.mp hstored
    rw [goals_withIntents] at hgoal
    obtain ⟨goal, hmem, rfl⟩ := List.mem_map.mp hgoal
    rw [nextDefaults_withIntents]
    exact (h.2 q hq ((isDefault_withIntents q).mp hdefault).1 goal hmem).inSubtree

/-! ## §4. The checker. -/

mutual

/-- Free patches are skipped where patches that are not default were. -/
theorem nextTreePatches_treatAsFree (freeZone : Nat → FreeZone) : ∀ p : Patch P,
    nextTreePatches (treatAsFree freeZone p) = (nextDefaults p).map (treatAsFree freeZone)
  | .tree ptr zone intent originators cs => by
      rw [treatAsFree, nextDefaults]
      by_cases hi : intent = .default
      · rw [if_pos hi, if_pos hi, nextTreePatches, List.map_singleton, treatAsFree, if_pos hi]
      · rw [if_neg hi, if_neg hi, nextTreePatches]
        exact nextTreePatchesAll_treatAsFree freeZone cs
  | .free ptr zone originators cs => by
      rw [treatAsFree, nextDefaults, nextTreePatches]
      exact nextTreePatchesAll_treatAsFree freeZone cs

theorem nextTreePatchesAll_treatAsFree (freeZone : Nat → FreeZone) : ∀ cs : List (Patch P),
    nextTreePatchesAll (treatAsFreeAll freeZone cs)
      = (nextDefaultsAll cs).map (treatAsFree freeZone)
  | [] => rfl
  | c :: cs => by
      rw [treatAsFreeAll, nextTreePatchesAll, nextDefaultsAll, List.map_append,
        nextTreePatches_treatAsFree freeZone c, nextTreePatchesAll_treatAsFree freeZone cs]

end

mutual

/-- The next default patches are default, and at or below the patch. -/
theorem mem_nextDefaults : ∀ {p r : Patch P}, r ∈ nextDefaults p →
    r.IsDefault ∧ r ∈ p.windIn
  | .tree ptr zone intent originators cs, r, h => by
      rw [nextDefaults] at h
      rw [windIn]
      by_cases hi : intent = .default
      · rw [if_pos hi] at h
        rw [List.mem_singleton.mp h]
        exact ⟨⟨zone, by rw [hi]; rfl⟩, List.mem_cons_self⟩
      · rw [if_neg hi] at h
        obtain ⟨hdefault, hmem⟩ := mem_nextDefaultsAll h
        exact ⟨hdefault, List.mem_cons_of_mem _ hmem⟩
  | .free ptr zone originators cs, r, h => by
      rw [nextDefaults] at h
      rw [windIn]
      obtain ⟨hdefault, hmem⟩ := mem_nextDefaultsAll h
      exact ⟨hdefault, List.mem_cons_of_mem _ hmem⟩

theorem mem_nextDefaultsAll : ∀ {cs : List (Patch P)} {r : Patch P}, r ∈ nextDefaultsAll cs →
    r.IsDefault ∧ r ∈ windInAll cs
  | [], r, h => absurd h (by simp [nextDefaultsAll])
  | c :: cs, r, h => by
      rw [nextDefaultsAll, List.mem_append] at h
      rw [windInAll, List.mem_append]
      rcases h with h | h
      · exact ⟨(mem_nextDefaults h).1, .inl (mem_nextDefaults h).2⟩
      · exact ⟨(mem_nextDefaultsAll h).1, .inr (mem_nextDefaultsAll h).2⟩

end

theorem treatAsFreeAll_eq (freeZone : Nat → FreeZone) (cs : List (Patch P)) :
    treatAsFreeAll freeZone cs = cs.map (treatAsFree freeZone) := by
  induction cs with
  | nil => rfl
  | cons c cs ih => rw [treatAsFreeAll, ih, List.map_cons]

/-- A link after one that is before it and not above it passes. -/
theorem checkPrev_pos {x : Nat} {prev : Option Nat} (hx : x ∈ db.rows.keys)
    (hprev : ∀ y, prev = some y → y ∈ db.rows.keys ∧ DFBefore db y x ∧ ¬ db.Ancestor y x) :
    checkPrev db prev x = some () := by
  cases prev with
  | none => rfl
  | some y =>
      obtain ⟨hy, hbefore, hnot⟩ := hprev y rfl
      obtain ⟨d, rel, hres, hneg, _, _, _, hancestor⟩ := exists_compareHierarchical hy hx
      unfold checkPrev
      simp only [hres, Option.bind_eq_bind, Option.bind_some]
      rw [ASSERT_pos (hneg.mpr hbefore)]
      exact ASSERT_pos fun h => hnot (hancestor.mp h)

/-- Bases in order pass the loop over them. -/
theorem checkBases_pos {x : Nat} (hx : x ∈ db.rows.keys) {patches : List (Patch P)} :
    ∀ {prev : Option Nat},
    (∀ p ∈ patches, ∃ a, p.base? = some a ∧ a ∈ db.rows.keys ∧ db.WeakDescendant x a) →
    patches.Pairwise (fun p q => ∀ a b, p.base? = some a → q.base? = some b →
      DFBefore db a b ∧ ¬ db.Ancestor a b) →
    (∀ y, prev = some y → y ∈ db.rows.keys ∧ ∀ p ∈ patches, ∀ a, p.base? = some a →
      DFBefore db y a ∧ ¬ db.Ancestor y a) →
    checkBases db x prev patches = some () := by
  induction patches with
  | nil =>
      intro prev _ _ _
      cases prev <;> rfl
  | cons p patches ih =>
      intro prev hbases hsorted hprev
      obtain ⟨hhead, htail⟩ := List.pairwise_cons.mp hsorted
      obtain ⟨a, ha, hkeys, hdown⟩ := hbases p List.mem_cons_self
      obtain ⟨d, rel, hres, _, _, _, hequal, hancestor⟩ := exists_compareHierarchical hx hkeys
      have hrel : rel = .leftIsAncestor ∨ rel = .equal := by
        rcases Relation.reflTransGen_iff_eq_or_transGen.mp hdown with rfl | htrans
        · exact .inr (hequal.mpr rfl)
        · exact .inl (hancestor.mpr htrans)
      -- `prev` comes before this base, and not above it
      have hcheck : checkPrev db prev a = some () := by
        refine checkPrev_pos hkeys ?_
        intro y hy
        obtain ⟨hykeys, hyp⟩ := hprev y hy
        exact ⟨hykeys, hyp p List.mem_cons_self a ha⟩
      unfold checkBases
      simp only [ha, hcheck, hres, ASSERT_pos hrel, Option.bind_eq_bind, Option.bind_some]
      refine ih (fun q hq => hbases q (List.mem_cons_of_mem _ hq)) htail ?_
      intro y hy
      cases hy
      exact ⟨hkeys, fun q hq b hb => hhead q hq a b ha hb⟩

/-- Terminii in order pass the co-loop when their children pass. -/
theorem checkTerminii_pos {work : Patch P → Nat → Option Unit} (hbase : base ∈ db.rows.keys)
    {terminii : List Nat} : ∀ {prev : Option Nat} {children : List (Patch P)},
    terminii.length = children.length →
    (∀ t ∈ terminii, t ∈ db.rows.keys ∧ db.Ancestor base t) →
    terminii.Pairwise (fun t u => DFBefore db t u ∧ ¬ db.Ancestor t u) →
    (∀ y, prev = some y → y ∈ db.rows.keys ∧ ∀ t ∈ terminii,
      DFBefore db y t ∧ ¬ db.Ancestor y t) →
    (∀ goal ∈ children.zip terminii, work goal.1 goal.2 = some ()) →
    checkTerminii db work base prev terminii children = some () := by
  induction terminii with
  | nil =>
      intro prev children hlen _ _ _ _
      obtain rfl := List.length_eq_zero_iff.mp hlen.symm
      cases prev <;> rfl
  | cons t terminii ih =>
      intro prev children hlen hdown hsorted hprev hwork
      cases children with
      | nil => simp at hlen
      | cons c children =>
          obtain ⟨hhead, htail⟩ := List.pairwise_cons.mp hsorted
          obtain ⟨hkeys, habove⟩ := hdown t List.mem_cons_self
          obtain ⟨d, rel, hres, _, _, _, _, hancestor⟩ :=
            exists_compareHierarchical hbase hkeys
          -- `t` is compared with the terminus before it, and then with the base
          have hcheck : checkPrev db prev t = some () := by
            refine checkPrev_pos hkeys ?_
            intro y hy
            obtain ⟨hykeys, hyt⟩ := hprev y hy
            exact ⟨hykeys, hyt t List.mem_cons_self⟩
          have hone : work c t = some () := hwork (c, t) List.mem_cons_self
          unfold checkTerminii
          simp only [hcheck, hres, ASSERT_pos (hancestor.mpr habove), hone,
            Option.bind_eq_bind, Option.bind_some]
          refine ih (by simpa using hlen) (fun u hu => hdown u (List.mem_cons_of_mem _ hu)) htail
            ?_ (fun goal hgoal => hwork goal (List.mem_cons_of_mem _ hgoal))
          -- for the next one, `t` is the terminus before it
          intro y hy
          cases hy
          exact ⟨hkeys, hhead⟩

/-- The comparisons of one subtree, as one fact. -/
theorem InSubtree.sorted {x : Nat} {patches : List (Patch P)} (h : InSubtree db x patches) :
    patches.Pairwise fun p q => ∀ a b, p.base? = some a → q.base? = some b →
      DFBefore db a b ∧ ¬ db.Ancestor a b := by
  refine (h.increasing.and h.apart).imp ?_
  intro p q hpq a b ha hb
  exact ⟨hpq.1 a b ha hb, (hpq.2 a b ha hb).1⟩

/-- A patch that is not default is seen as free. -/
theorem treatAsFree_of_not_default {freeZone : Nat → FreeZone}
    (hfree : ∀ ptr, (freeZone ptr).base.isSome) (hp : StrictZone db p) (hdefault : ¬ p.IsDefault) :
    ∃ ptr zone originators, zone.base.isSome
      ∧ treatAsFree freeZone p = .free ptr zone originators (treatAsFreeAll freeZone p.children)
      ∧ nextDefaults p = nextDefaultsAll p.children := by
  cases p with
  | tree ptr zone intent originators cs =>
      have hi : intent ≠ .default := by
        rintro rfl
        exact hdefault ⟨zone, rfl⟩
      rw [treatAsFree, if_neg hi, nextDefaults, if_neg hi]
      exact ⟨ptr, freeZone ptr, originators, hfree ptr, rfl, rfl⟩
  | free ptr zone originators cs =>
      rw [treatAsFree, nextDefaults]
      exact ⟨ptr, zone, originators, hp, rfl, rfl⟩

/-- A default patch is its own next. -/
theorem nextDefaults_of_isDefault (h : p.IsDefault) : nextDefaults p = [p] := by
  obtain ⟨zone, h⟩ := h
  cases p with
  | tree ptr zone intent originators cs =>
      cases h
      rw [nextDefaults, if_pos rfl]
  | free ptr zone originators cs => exact absurd h (by simp [treeZone?])

/-- A loop whose turns all pass. -/
theorem forM_pos {E : Type} {body : E → Option Unit} {l : List E}
    (h : ∀ e ∈ l, body e = some ()) : l.forM body = some () := by
  induction l with
  | nil => rfl
  | cons e l ih =>
      show (body e >>= fun _ => l.forM body) = some ()
      rw [h e List.mem_cons_self]
      exact ih fun e he => h e (List.mem_cons_of_mem _ he)

/-- **A default patch**: its base is at `x` or below, and its children are passed. -/
theorem worker_default_pos {freeZone : Nat → FreeZone} {fuel ptr x : Nat} {zone : TreeZone}
    {originators : Originators P} {cs : List (Patch P)} (hx : x ∈ db.rows.keys)
    (hself : StrictZone db (.tree ptr zone .default originators cs))
    (hnext : InSubtree db x [.tree ptr zone .default originators cs])
    (hchildren : ∀ goal ∈ goals (.tree ptr zone .default originators cs),
      worker db fuel (treatAsFree freeZone goal.1) goal.2 false = some ()) :
    worker db (fuel + 1) (treatAsFree freeZone (.tree ptr zone .default originators cs)) x false
      = some () := by
  obtain ⟨hbase, hlen, hdown, hsorted⟩ := hself
  obtain ⟨a, ha, _, hweak⟩ := hnext.within _ (List.mem_singleton.mpr rfl)
  obtain rfl : zone.base = a := Option.some.inj ha
  obtain ⟨d, rel, hres, _, _, _, hequal, hancestor⟩ := exists_compareHierarchical hx hbase
  have hrel : rel = .equal ∨ false = false ∧ rel = .leftIsAncestor := by
    rcases Relation.reflTransGen_iff_eq_or_transGen.mp hweak with heq | htrans
    · exact .inl (hequal.mpr heq.symm)
    · exact .inr ⟨rfl, hancestor.mpr htrans⟩
  -- an empty zone would have its base below itself
  have hne : ¬ (zone.isEmpty = true) := by
    intro hempty
    have hterm : zone.terminii = [zone.base] := by
      simpa [TreeZone.isEmpty] using hempty
    obtain ⟨_, habove⟩ := hdown zone.base (by simp [hterm])
    obtain ⟨Q, hQ⟩ := Position.exists_of_mem hbase
    exact ((ancestor_iff hQ hQ).mp habove).2 rfl
  rw [treatAsFree, if_pos rfl, worker, hres]
  dsimp only [Option.bind_eq_bind, Option.bind_some]
  rw [ASSERT_pos hrel]
  dsimp only [Option.bind_some]
  rw [if_neg hne, treatAsFreeAll_eq]
  refine checkTerminii_pos hbase (by simpa using hlen) hdown hsorted (by simp) ?_
  intro goal hgoal
  rw [List.zip_map_left] at hgoal
  obtain ⟨goal, hmem, rfl⟩ := List.mem_map.mp hgoal
  exact hchildren goal hmem

/-- **Any other patch**: the bases of the next default patches are in order, and each of these is
passed. -/
theorem worker_free_pos {freeZone : Nat → FreeZone} (hfree : ∀ ptr, (freeZone ptr).base.isSome)
    {fuel x : Nat} {p : Patch P} (hx : x ∈ db.rows.keys) (hself : StrictZone db p)
    (hdefault : ¬ p.IsDefault) (hnext : InSubtree db x (nextDefaults p))
    (hchildren : ∀ r ∈ nextDefaults p, ∀ a, r.base? = some a →
      worker db fuel (treatAsFree freeZone r) a false = some ()) :
    worker db (fuel + 1) (treatAsFree freeZone p) x false = some () := by
  obtain ⟨ptr, zone, originators, hzone, hview, _⟩ :=
    treatAsFree_of_not_default hfree hself hdefault
  have hpatches := nextTreePatches_treatAsFree freeZone p
  rw [hview] at hpatches ⊢
  -- `treatAsFree` keeps the bases of default patches
  have hbase? : ∀ r : Patch P, r.IsDefault → (treatAsFree freeZone r).base? = r.base? := by
    rintro r ⟨z, hr⟩
    cases r with
    | tree _ _ intent _ _ =>
        cases hr
        rw [treatAsFree, if_pos rfl]
        rfl
    | free => exact absurd hr (by simp [treeZone?])
  have hbases : checkBases db x none ((nextDefaults p).map (treatAsFree freeZone))
      = some () := by
    refine checkBases_pos hx ?_ ?_ (by simp)
    · intro q hq
      obtain ⟨r, hr, rfl⟩ := List.mem_map.mp hq
      rw [hbase? r (mem_nextDefaults hr).1]
      exact hnext.within r hr
    · rw [List.pairwise_map]
      refine hnext.sorted.imp_of_mem ?_
      intro r r' hr hr' hrr a b ha hb
      rw [hbase? r (mem_nextDefaults hr).1] at ha
      rw [hbase? r' (mem_nextDefaults hr').1] at hb
      exact hrr a b ha hb
  have hall : ∀ q ∈ (nextDefaults p).map (treatAsFree freeZone),
      (do
        let base ← q.base?
        worker db fuel q base false) = some () := by
    intro q hq
    obtain ⟨r, hr, rfl⟩ := List.mem_map.mp hq
    obtain ⟨a, ha, _, _⟩ := hnext.within r hr
    rw [hbase? r (mem_nextDefaults hr).1, ha]
    exact hchildren r hr a ha
  rw [worker]
  dsimp only
  rw [ASSERT_pos hzone, hpatches]
  dsimp only [Option.bind_eq_bind, Option.bind_some]
  rw [hbases]
  exact forM_pos hall

/-- **The worker passes a patch below which everything is in order.** -/
theorem worker_pos {freeZone : Nat → FreeZone} (hfree : ∀ ptr, (freeZone ptr).base.isSome)
    (fuel : Nat) : ∀ {p : Patch P} {x : Nat}, p.windIn.length < fuel → x ∈ db.rows.keys →
    (∀ q ∈ p.windIn, StrictZone db q) → InSubtree db x (nextDefaults p) →
    (∀ q ∈ p.windIn, q.IsDefault → ∀ goal ∈ goals q,
      InSubtree db goal.2 (nextDefaults goal.1)) →
    worker db fuel (treatAsFree freeZone p) x false = some () := by
  induction fuel with
  | zero =>
      intro p x hfuel
      omega
  | succ fuel ih =>
      intro p x hfuel hx hstrict hnext hbelow
      have hself := hstrict p (mem_windIn_self p)
      by_cases hdefault : p.IsDefault
      · cases p with
        | free ptr zone originators cs =>
            obtain ⟨zone, h⟩ := hdefault
            exact absurd h (by simp [treeZone?])
        | tree ptr zone intent originators cs =>
            obtain ⟨zone', h⟩ := hdefault
            cases h
            rw [nextDefaults, if_pos rfl] at hnext
            refine worker_default_pos hx hself hnext ?_
            -- a child is in the subtree of its terminus, by the hypothesis
            intro goal hmem
            obtain ⟨hc, ht⟩ := List.of_mem_zip hmem
            have hsub : goal.1.windIn.Sublist (windInAll cs) :=
              windInAll_sublist (mem_windInAll.mpr ⟨goal.1, hc, mem_windIn_self goal.1⟩)
            have hlenc := hsub.length_le
            rw [windIn, List.length_cons] at hfuel
            refine ih (by omega) (hself.2.2.1 goal.2 ht).1 ?_ ?_ ?_
            · intro q hq
              exact hstrict q (List.mem_cons_of_mem _ (hsub.subset hq))
            · exact hbelow _ List.mem_cons_self ⟨zone, rfl⟩ goal hmem
            · intro q hq
              exact hbelow q (List.mem_cons_of_mem _ (hsub.subset hq))
      · refine worker_free_pos hfree hx hself hdefault hnext ?_
        intro r hr a ha
        obtain ⟨hrdefault, _⟩ := mem_nextDefaults hr
        obtain ⟨a', ha', hkeys, _⟩ := hnext.within r hr
        obtain rfl := Option.some.inj (ha'.symm.trans ha)
        obtain ⟨_, _, _, _, _, hlower⟩ := treatAsFree_of_not_default hfree hself hdefault
        -- `r` is below `p`
        rw [hlower] at hr
        have hbelowp := windInAll_sublist (mem_nextDefaultsAll hr).2
        have hsub : ∀ q ∈ r.windIn, q ∈ p.windIn := by
          intro q hq
          rw [windIn_eq p]
          exact List.mem_cons_of_mem _ (hbelowp.subset hq)
        have hlen : r.windIn.length < p.windIn.length := by
          have hle := hbelowp.length_le
          rw [windIn_eq p, List.length_cons]
          omega
        refine ih (by omega) hkeys (fun q hq => hstrict q (hsub q hq)) ?_
          (fun q hq => hbelow q (hsub q hq))
        rw [nextDefaults_of_isDefault hrdefault]
        refine ⟨?_, List.pairwise_singleton _ _, List.pairwise_singleton _ _⟩
        intro q hq
        rw [List.mem_singleton.mp hq]
        exact ⟨a', ha', hkeys, Relation.ReflTransGen.refl⟩

mutual

theorem windIn_treatAsFree_length (freeZone : Nat → FreeZone) : ∀ p : Patch P,
    (treatAsFree freeZone p).windIn.length = p.windIn.length
  | .tree ptr zone intent originators cs => by
      have hall := windInAll_treatAsFree_length freeZone cs
      rw [treatAsFree]
      by_cases hi : intent = .default
      · rw [if_pos hi, windIn, windIn, List.length_cons, List.length_cons, hall]
      · rw [if_neg hi, windIn, windIn, List.length_cons, List.length_cons, hall]
  | .free ptr zone originators cs => by
      have hall := windInAll_treatAsFree_length freeZone cs
      rw [treatAsFree, windIn, windIn, List.length_cons, List.length_cons, hall]

theorem windInAll_treatAsFree_length (freeZone : Nat → FreeZone) : ∀ cs : List (Patch P),
    (windInAll (treatAsFreeAll freeZone cs)).length = (windInAll cs).length
  | [] => rfl
  | c :: cs => by
      rw [treatAsFreeAll, windInAll, windInAll, List.length_append, List.length_append,
        windIn_treatAsFree_length freeZone c, windInAll_treatAsFree_length freeZone cs]

end

/-- **The checker passes a layout in order**, whatever the zones of the patches that it
sees as free, as long as no zone is empty. -/
theorem check_of_layoutInOrder {root : Nat} {layout : Patch P} (hroot : root ∈ db.rows.keys)
    (h : LayoutInOrder db root layout) {freeZone : Nat → FreeZone}
    (hfree : ∀ ptr, (freeZone ptr).base.isSome) (hstrict : ∀ q ∈ layout.windIn, StrictZone db q) :
    check db root (treatAsFree freeZone layout) = some () := by
  unfold check
  refine worker_pos hfree _ ?_ hroot hstrict h.root h.terminii
  rw [windIn_treatAsFree_length]
  exact Nat.lt_succ_self _

/-! ## §5. The pass. -/

theorem strictZone_withIntents (h : StrictZone db p) : StrictZone db (withIntents f p) := by
  cases p with
  | tree ptr zone intent originators cs =>
      obtain ⟨hbase, hlen, hrest⟩ := h
      rw [withIntents]
      refine ⟨hbase, ?_, hrest⟩
      rw [hlen, withIntentsAll_eq, List.length_map]
  | free ptr zone originators cs =>
      rw [withIntents]
      exact h

/-- The pass returns, with intents under which the layout is ordered. -/
theorem orderingPass_run {root : Nat} {layout : Patch P} (hroot : root ∈ db.rows.keys)
    (hdistinct : (ptrs layout.windIn).Nodup) (hvalid : ValidZones db layout) :
    ∃ g : Intents, orderingPass db root layout = some (layout.withIntents g)
      ∧ Lowers layout.intents g ∧ Ordered db g layout root
      ∧ (defaultBases g layout.windIn).Nodup := by
  obtain ⟨s, hrun, hout⟩ := constrain_spec (layout.windIn.length + 1) (p := layout)
    (s := ⟨layout.intents, ∅⟩) (Nat.lt_succ_self _) hroot hdistinct hvalid
  refine ⟨s.intents, ?_, hout.lowers, hout.done _ (List.mem_singleton.mpr rfl), ?_⟩
  · unfold orderingPass
    rw [hrun]
    rfl
  · have hall := hout.nodup
    rw [List.flatMap_singleton] at hall
    exact hall

/-- **The ordering pass returns, and leaves the layout in order.**  It changes nothing but
default intents, to moveable; and the alternative checker passes what it leaves. -/
theorem orderingPass_inOrder {root : Nat} {layout : Patch P} (hroot : root ∈ db.rows.keys)
    (hdistinct : (ptrs layout.windIn).Nodup) (hvalid : ValidZones db layout) :
    ∃ g : Intents, orderingPass db root layout = some (layout.withIntents g)
      ∧ (∀ q ∈ layout.windIn, ∀ zone intent, q.treeZone? = some (zone, intent) →
          g q.ptr = intent ∨ intent = .default ∧ g q.ptr = .moveable)
      ∧ LayoutInOrder db root (layout.withIntents g)
      ∧ ∀ freeZone : Nat → FreeZone, (∀ ptr, (freeZone ptr).base.isSome) →
          (∀ q ∈ layout.windIn, StrictZone db q) →
          AltOrderingChecker.check db root (treatAsFree freeZone (layout.withIntents g))
            = some () := by
  obtain ⟨g, hrun, hlowers, hordered, hnodup⟩ := orderingPass_run hroot hdistinct hvalid
  have horder := hordered.layoutInOrder hnodup
  refine ⟨g, hrun, ?_, horder, ?_⟩
  · intro q hq zone intent hzone
    have hown := intents_of_mem hdistinct hq hzone
    rcases hlowers q.ptr with hsame | ⟨hdefault, hmoved⟩
    · exact .inl (hsame.trans hown)
    · exact .inr ⟨hown.symm.trans hdefault, hmoved⟩
  · intro freeZone hfree hstrict
    refine check_of_layoutInOrder hroot horder hfree ?_
    intro stored hstored
    rw [windIn_withIntents] at hstored
    obtain ⟨q, hq, rfl⟩ := List.mem_map.mp hstored
    exact strictZone_withIntents (hstrict q hq)

theorem twoLeavesInOrder_links : [Item.sequence [1, 2]].flatMap Item.links = List.range' 1 2 := rfl

/-- Two leaves, and a free patch with zones at them in the wrong order. -/
def twoLeavesInOrder : Layout := ⟨[.sequence [1, 2]], 2, twoLeavesInOrder_links⟩

def swappedLeaves : Patch Unit :=
  .free 0 ⟨some 0, []⟩ ∅ [.tree 1 ⟨2, [], 0⟩ .default ∅ [], .tree 2 ⟨1, [], 0⟩ .default ∅ []]

theorem orderingPass_inOrder_swappedLeaves :
    ∃ g : Intents, orderingPass (flatDatabase twoLeavesInOrder) 0 swappedLeaves
        = some (swappedLeaves.withIntents g)
      ∧ LayoutInOrder (flatDatabase twoLeavesInOrder) 0 (swappedLeaves.withIntents g)
      ∧ AltOrderingChecker.check (flatDatabase twoLeavesInOrder) 0
          (treatAsFree (fun _ => ⟨some 0, []⟩) (swappedLeaves.withIntents g)) = some () := by
  have hroot : 0 ∈ (flatDatabase twoLeavesInOrder).rows.keys := by decide
  have hfirst : 1 ∈ (flatDatabase twoLeavesInOrder).rows.keys := by decide
  have hsecond : 2 ∈ (flatDatabase twoLeavesInOrder).rows.keys := by decide
  have hwalk : swappedLeaves.windIn = [swappedLeaves, .tree 1 ⟨2, [], 0⟩ .default ∅ [],
      .tree 2 ⟨1, [], 0⟩ .default ∅ []] := rfl
  have hvalid : ValidZones (flatDatabase twoLeavesInOrder) swappedLeaves := by
    unfold ValidZones
    rw [hwalk]
    simp [ValidZone, swappedLeaves, hfirst, hsecond]
  have hstrict : ∀ q ∈ swappedLeaves.windIn,
      StrictZone (flatDatabase twoLeavesInOrder) q := by
    rw [hwalk]
    simp [StrictZone, swappedLeaves, hfirst, hsecond]
  obtain ⟨g, hrun, _, horder, hcheck⟩ := orderingPass_inOrder hroot (by decide) hvalid
  exact ⟨g, hrun, horder, hcheck _ (fun _ => rfl) hstrict⟩

end Inferno.UP
