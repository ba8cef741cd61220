/-
  Inferno.UP.ChooseCopies
  ───────────────────────
  Each zone that is used again is kept once.

    • `outOfOrderPatches_spec` — the first walk: the moveable patches with their bases,
                         and the bases of the default patches,
    • `copies`         — the patches that the last loop makes copyable,
    • `Counts`         — the multiset counts the uses still to come,
    • `chooseCopiesLoop_spec` — the loop makes these patches copyable, and no others,
    • `kept_unique`    — of the uses of a base one is kept, none when it is in order,
    • `chooseCopiesPass_keepsOne` — the pass.
-/
import Inferno.UP.Intents
import Mathlib.Algebra.Order.Group.Multiset

namespace Inferno.UP

open Inferno.Common Inferno.DB Patch

variable {P : Type} {inOrderBases : Finset Nat} {records : List (Nat × Nat)}
  {outOfOrderBases : Multiset Nat} {f : Intents} {p q : Patch P}

/-! ## §1. The first walk. -/

/-- The pointer and the base of a moveable patch. -/
def moveableRecord : Patch P → Option (Nat × Nat)
  | .tree ptr zone .moveable _ _ => some (ptr, zone.base)
  | _ => none

/-- The base of a default patch. -/
def defaultBase : Patch P → Option Nat
  | .tree _ zone .default _ _ => some zone.base
  | _ => none

theorem defaultBase_eq_some {a : Nat} :
    defaultBase q = some a ↔ q.IsDefault ∧ q.base? = some a := by
  unfold IsDefault
  cases q with
  | tree ptr zone intent originators cs => cases intent <;> simp [defaultBase, base?, treeZone?]
  | free ptr zone originators cs => simp [defaultBase, base?]

/-- **The first walk**, when the default patches have different bases. -/
theorem outOfOrderPatches_spec (ps : List (Patch P)) : ∀ {inOrderBases : Finset Nat},
    (ps.filterMap defaultBase).Nodup → (∀ a ∈ ps.filterMap defaultBase, a ∉ inOrderBases) →
    outOfOrderPatches ps inOrderBases = some (ps.filterMap moveableRecord,
      inOrderBases ∪ (ps.filterMap defaultBase).toFinset) := by
  induction ps with
  | nil =>
      intro inOrderBases _ _
      simp [outOfOrderPatches]
  | cons p ps ih =>
      intro inOrderBases hnodup hnew
      cases p with
      | free ptr zone originators cs => exact ih hnodup hnew
      | tree ptr zone intent originators cs =>
          cases intent with
          | moveable =>
              unfold outOfOrderPatches
              dsimp only
              rw [ih hnodup hnew]
              rfl
          | copyable => exact ih hnodup hnew
          | default =>
              -- its base goes into the set, which refuses one that it has
              have hbases : (Patch.tree ptr zone .default originators cs :: ps).filterMap
                  defaultBase = zone.base :: ps.filterMap defaultBase := rfl
              rw [hbases] at hnodup hnew ⊢
              obtain ⟨hout, hnodup⟩ := List.nodup_cons.mp hnodup
              obtain ⟨hbase, hnew⟩ := List.forall_mem_cons.mp hnew
              unfold outOfOrderPatches
              dsimp only
              unfold insertSolo
              rw [if_neg hbase]
              dsimp only [Option.bind_eq_bind, Option.bind_some]
              rw [ih hnodup (by
                intro a ha
                rw [Finset.mem_insert, not_or]
                exact ⟨fun heq => hout (heq ▸ ha), hnew a ha⟩)]
              rw [Finset.insert_union, List.toFinset_cons, Finset.union_insert]
              rfl

/-! ## §2. The last loop. -/

/-- The patches that the last loop makes copyable. -/
def copies (inOrderBases : Finset Nat) : List (Nat × Nat) → Multiset Nat → List Nat
  | [], _ => []
  | (ptr, base) :: rest, outOfOrderBases =>
      if 2 ≤ outOfOrderBases.count base ∨ base ∈ inOrderBases then
        ptr :: copies inOrderBases rest (outOfOrderBases.erase base)
      else copies inOrderBases rest outOfOrderBases

/-- **The multiset counts the uses still to come**, of the bases that have some. -/
def Counts (outOfOrderBases : Multiset Nat) (records : List (Nat × Nat)) : Prop :=
  ∀ base ∈ records.map Prod.snd,
    outOfOrderBases.count base = (records.map Prod.snd).count base

theorem Counts.tail {ptr base : Nat} (h : Counts outOfOrderBases ((ptr, base) :: records)) :
    (¬ 2 ≤ outOfOrderBases.count base → Counts outOfOrderBases records)
      ∧ Counts (outOfOrderBases.erase base) records := by
  have hself := h base List.mem_cons_self
  rw [List.map_cons, List.count_cons_self] at hself
  refine ⟨?_, ?_⟩
  · intro hone b hb
    have hne : b ≠ base := by
      rintro rfl
      have hpos := List.count_pos_iff.mpr hb
      omega
    rw [h b (List.mem_cons_of_mem _ hb), List.map_cons, List.count_cons_of_ne hne.symm]
  · intro b hb
    have hall := h b (List.mem_cons_of_mem _ hb)
    by_cases hb' : b = base
    · subst hb'
      rw [Multiset.count_erase_self, hself]
      rfl
    · rw [Multiset.count_erase_of_ne hb', hall, List.map_cons,
        List.count_cons_of_ne (Ne.symm hb')]

/-- The intents after patches were made copyable. -/
def copied (f : Intents) (ptrs : List Nat) : Intents :=
  fun a => if a ∈ ptrs then .copyable else f a

/-- **The last loop makes these patches copyable**, and no others; its assertion holds. -/
theorem chooseCopiesLoop_spec {layout : Patch P} (inOrderBases : Finset Nat)
    (hdistinct : (ptrs layout.windIn).Nodup) (records : List (Nat × Nat)) :
    ∀ {outOfOrderBases : Multiset Nat} {f : Intents},
    (∀ r ∈ records, ∃ q ∈ layout.windIn, ∃ a, q.ptr = r.1 ∧ q.base? = some a) →
    Counts outOfOrderBases records →
    chooseCopiesLoop inOrderBases records outOfOrderBases (layout.withIntents f)
      = some (layout.withIntents (copied f (copies inOrderBases records outOfOrderBases))) := by
  induction records with
  | nil =>
      intro outOfOrderBases f _ _
      have hnone : copied f (copies inOrderBases [] outOfOrderBases) = f := by
        funext a
        simp [copied, copies]
      rw [hnone]
      rfl
  | cons r records ih =>
      obtain ⟨ptr, base⟩ := r
      intro outOfOrderBases f hrecords hcounts
      obtain ⟨⟨q, hq, a, hptr, hbase⟩, hrest⟩ := List.forall_mem_cons.mp hrecords
      -- the count has come down to the records that are left, and `r` is one of them
      have hself := hcounts base List.mem_cons_self
      rw [List.map_cons, List.count_cons_self] at hself
      have hpos : 1 ≤ outOfOrderBases.count base := by omega
      unfold chooseCopiesLoop copies
      rw [ASSERT_pos hpos]
      dsimp only [Option.bind_eq_bind, Option.bind_some]
      by_cases hcopy : 2 ≤ outOfOrderBases.count base ∨ base ∈ inOrderBases
      · have hset : setIntentAt ptr .copyable (layout.withIntents f)
            = some (layout.withIntents (Function.update f ptr .copyable)) := by
          have hset := setIntentAt_withIntents (f := f) hdistinct hq hbase .copyable
          rw [hptr] at hset
          exact hset
        rw [if_pos hcopy, if_pos hcopy, hset, Option.bind_some,
          ih hrest hcounts.tail.2]
        -- the update of `r` is what the longer list of copies does
        have hsame : copied (Function.update f ptr .copyable)
            (copies inOrderBases records (outOfOrderBases.erase base))
              = copied f (ptr :: copies inOrderBases records (outOfOrderBases.erase base)) := by
          funext b
          unfold copied
          by_cases hb : b = ptr
          · subst hb
            simp
          · rw [Function.update_of_ne hb]
            refine if_congr ?_ rfl rfl
            rw [List.mem_cons, or_iff_right hb]
        rw [hsame]
      · -- the last one of its base, and no default patch has it: it stays as it is
        rw [if_neg hcopy, if_neg hcopy]
        exact ih hrest (hcounts.tail.1 fun htwo => hcopy (.inl htwo))

/-- Only uses are made copyable. -/
theorem mem_of_copies {a : Nat} (records : List (Nat × Nat)) : ∀ {outOfOrderBases : Multiset Nat},
    a ∈ copies inOrderBases records outOfOrderBases → ∃ r ∈ records, r.1 = a := by
  induction records with
  | nil =>
      intro outOfOrderBases h
      exact absurd h (by simp [copies])
  | cons r records ih =>
      obtain ⟨ptr, base⟩ := r
      intro outOfOrderBases h
      unfold copies at h
      by_cases hcopy : 2 ≤ outOfOrderBases.count base ∨ base ∈ inOrderBases
      · rw [if_pos hcopy, List.mem_cons] at h
        rcases h with rfl | h
        · exact ⟨_, List.mem_cons_self, rfl⟩
        · obtain ⟨r, hr, ha⟩ := ih h
          exact ⟨r, List.mem_cons_of_mem _ hr, ha⟩
      · rw [if_neg hcopy] at h
        obtain ⟨r, hr, ha⟩ := ih h
        exact ⟨r, List.mem_cons_of_mem _ hr, ha⟩

/-- Every use of a base that is in order is copied. -/
theorem copied_of_inOrder (records : List (Nat × Nat)) : ∀ {outOfOrderBases : Multiset Nat},
    ∀ r ∈ records, r.2 ∈ inOrderBases → r.1 ∈ copies inOrderBases records outOfOrderBases := by
  induction records with
  | nil =>
      intro outOfOrderBases r hr
      exact absurd hr (by simp)
  | cons r records ih =>
      intro outOfOrderBases r' hr' hbase
      unfold copies
      rcases List.mem_cons.mp hr' with rfl | hr'
      · rw [if_pos (.inr hbase)]
        exact List.mem_cons_self
      · by_cases hcopy : 2 ≤ outOfOrderBases.count r.2 ∨ r.2 ∈ inOrderBases
        · rw [if_pos hcopy]
          exact List.mem_cons_of_mem _ (ih r' hr' hbase)
        · rw [if_neg hcopy]
          exact ih r' hr' hbase

/-- **Of the uses of a base that is not in order, one is kept.** -/
theorem kept_unique {base : Nat} (hbase : base ∉ inOrderBases) (records : List (Nat × Nat)) :
    ∀ {outOfOrderBases : Multiset Nat}, (records.map Prod.fst).Nodup →
    Counts outOfOrderBases records → base ∈ records.map Prod.snd →
    ∃! r, r ∈ records ∧ r.2 = base ∧ r.1 ∉ copies inOrderBases records outOfOrderBases := by
  induction records with
  | nil =>
      intro outOfOrderBases _ _ h
      exact absurd h (by simp)
  | cons r records ih =>
      obtain ⟨ptr, b⟩ := r
      intro outOfOrderBases hnodup hcounts hmem
      rw [List.map_cons, List.nodup_cons] at hnodup
      obtain ⟨hptr, hnodup⟩ := hnodup
      have hself := hcounts b List.mem_cons_self
      rw [List.map_cons, List.count_cons_self] at hself
      have hfresh : ∀ {m : Multiset Nat}, ptr ∉ copies inOrderBases records m := by
        intro m h
        obtain ⟨r, hr, heq⟩ := mem_of_copies records h
        exact hptr (List.mem_map.mpr ⟨r, hr, heq⟩)
      unfold copies
      by_cases hcopy : 2 ≤ outOfOrderBases.count b ∨ b ∈ inOrderBases
      · -- a copy: the one that is kept comes later
        rw [if_pos hcopy]
        have hlater : base ∈ records.map Prod.snd := by
          rcases List.mem_cons.mp hmem with heq | hlater
          · obtain rfl : base = b := heq
            have htwo := hcopy.resolve_right hbase
            exact List.count_pos_iff.mp (by omega)
          · exact hlater
        obtain ⟨r, ⟨hr, hrbase, hkept⟩, hunique⟩ := ih hnodup hcounts.tail.2 hlater
        refine ⟨r, ⟨List.mem_cons_of_mem _ hr, hrbase, ?_⟩, ?_⟩
        · rw [List.mem_cons, not_or]
          refine ⟨?_, hkept⟩
          intro heq
          exact hptr (List.mem_map.mpr ⟨r, hr, heq⟩)
        · rintro r' ⟨hr', hrbase', hkept'⟩
          rw [List.mem_cons, not_or] at hkept'
          rcases List.mem_cons.mp hr' with rfl | hr'
          · exact absurd rfl hkept'.1
          · exact hunique r' ⟨hr', hrbase', hkept'.2⟩
      · rw [if_neg hcopy]
        have hone : ¬ 2 ≤ outOfOrderBases.count b := fun htwo => hcopy (.inl htwo)
        by_cases hb : b = base
        · -- the last use of the base
          subst hb
          have hnone : b ∉ records.map Prod.snd := by
            intro h
            have hpos := List.count_pos_iff.mpr h
            omega
          refine ⟨(ptr, b), ⟨List.mem_cons_self, rfl, hfresh⟩, ?_⟩
          rintro r' ⟨hr', hrbase', _⟩
          rcases List.mem_cons.mp hr' with rfl | hr'
          · rfl
          · exact absurd (List.mem_map.mpr ⟨r', hr', hrbase'⟩) hnone
        · have hlater : base ∈ records.map Prod.snd := by
            rcases List.mem_cons.mp hmem with heq | hlater
            · exact absurd heq.symm hb
            · exact hlater
          obtain ⟨r, ⟨hr, hrbase, hkept⟩, hunique⟩ := ih hnodup (hcounts.tail.1 hone) hlater
          refine ⟨r, ⟨List.mem_cons_of_mem _ hr, hrbase, hkept⟩, ?_⟩
          rintro r' ⟨hr', hrbase', hkept'⟩
          rcases List.mem_cons.mp hr' with rfl | hr'
          · exact absurd hrbase' hb
          · exact hunique r' ⟨hr', hrbase', hkept'⟩

/-! ## §3. The pass. -/

/-- A patch at a base that is not to be copied. -/
def Kept (g : Intents) (base : Nat) (q : Patch P) : Prop :=
  q.base? = some base ∧ g q.ptr ≠ .copyable

theorem moveableRecord_eq_some {r : Nat × Nat} : moveableRecord q = some r ↔
    (∃ zone, q.treeZone? = some (zone, .moveable)) ∧ q.ptr = r.1 ∧ q.base? = some r.2 := by
  obtain ⟨ptr, base⟩ := r
  cases q with
  | tree ptr zone intent originators cs =>
      cases intent <;> simp [moveableRecord, base?, treeZone?, Patch.ptr]
  | free ptr zone originators cs => simp [moveableRecord, base?]

/-- The records are at different addresses. -/
theorem records_nodup {ps : List (Patch P)} (h : (ptrs ps).Nodup) :
    ((ps.filterMap moveableRecord).map Prod.fst).Nodup := by
  refine h.sublist ?_
  induction ps with
  | nil => exact List.Sublist.refl _
  | cons p ps ih =>
      have hps : (ptrs ps).Nodup := (List.nodup_cons.mp h).2
      rw [List.filterMap_cons]
      cases hp : moveableRecord p with
      | none => exact (ih hps).cons _
      | some r =>
          show (r.1 :: (ps.filterMap moveableRecord).map Prod.fst).Sublist (p.ptr :: ptrs ps)
          rw [← (moveableRecord_eq_some.mp hp).2.1]
          exact (ih hps).cons_cons _

/-- What the first walk collects of a layout. -/
structure Collected (layout : Patch P) (inOrderBases : Finset Nat)
    (records : List (Nat × Nat)) : Prop where
  inOrder : ∀ a, a ∈ inOrderBases ↔ ∃ d ∈ layout.windIn, d.IsDefault ∧ d.base? = some a
  moveable : ∀ r, r ∈ records ↔ ∃ q ∈ layout.windIn,
    (∃ zone, q.treeZone? = some (zone, .moveable)) ∧ q.ptr = r.1 ∧ q.base? = some r.2
  nodup : (records.map Prod.fst).Nodup

/-- No base is shared by two default patches. -/
def DefaultsDiffer (layout : Patch P) : Prop :=
  layout.windIn.Pairwise fun p q => p.IsDefault → q.IsDefault → p.base? ≠ q.base?

theorem collected {layout : Patch P} (hdistinct : (ptrs layout.windIn).Nodup)
    (hdefault : DefaultsDiffer layout) : ∃ records inOrderBases,
      outOfOrderPatches layout.windOut ∅ = some (records, inOrderBases)
        ∧ Collected layout inOrderBases records := by
  have hperm := windOut_perm layout
  have hbases : (layout.windOut.filterMap defaultBase).Nodup := by
    refine (hperm.filterMap defaultBase).nodup_iff.mpr ?_
    refine List.pairwise_filterMap.mpr (hdefault.imp ?_)
    intro p q hpq a ha b hb
    obtain ⟨hp, hpbase⟩ := defaultBase_eq_some.mp ha
    obtain ⟨hq, hqbase⟩ := defaultBase_eq_some.mp hb
    rintro rfl
    exact hpq hp hq (hpbase.trans hqbase.symm)
  refine ⟨_, _, outOfOrderPatches_spec layout.windOut hbases (by simp), ?_, ?_, ?_⟩
  · intro a
    rw [Finset.empty_union, List.mem_toFinset, List.mem_filterMap]
    simp only [defaultBase_eq_some, hperm.mem_iff]
  · intro r
    rw [List.mem_filterMap]
    simp only [moveableRecord_eq_some, hperm.mem_iff]
  · exact records_nodup ((hperm.map Patch.ptr).nodup_iff.mpr hdistinct)

theorem base?_of_treeZone? {zone : TreeZone} {intent : Intent}
    (h : q.treeZone? = some (zone, intent)) : q.base? = some zone.base := by
  cases q with
  | tree ptr zone' intent' originators cs =>
      cases h
      rfl
  | free => exact absurd h (by simp [treeZone?])

section

variable {layout : Patch P} {cs : List Nat}

/-- **What becomes of one patch**: a moveable one stays or is copied, any other stays. -/
theorem Collected.intent (h : Collected layout inOrderBases records)
    (hdistinct : (ptrs layout.windIn).Nodup) (hcs : ∀ a ∈ cs, ∃ r ∈ records, r.1 = a)
    (hq : q ∈ layout.windIn) {zone : TreeZone} {intent : Intent}
    (hzone : q.treeZone? = some (zone, intent)) :
    copied layout.intents cs q.ptr = (if q.ptr ∈ cs then .copyable else intent)
      ∧ (q.ptr ∈ cs → intent = .moveable) := by
  have hown := intents_of_mem hdistinct hq hzone
  refine ⟨?_, ?_⟩
  · unfold copied
    rw [hown]
  · intro hin
    obtain ⟨r, hr, hptr⟩ := hcs _ hin
    obtain ⟨q', hq', ⟨zone', hzone'⟩, hptr', _⟩ := (h.moveable r).mp hr
    obtain rfl := List.inj_on_of_nodup_map hdistinct hq' hq (hptr'.trans hptr)
    rw [hzone] at hzone'
    cases hzone'
    rfl

/-- **One of the patches at a base is kept**, the default one whenever there is one. -/
theorem Collected.keepsOne (h : Collected layout inOrderBases records)
    (hdistinct : (ptrs layout.windIn).Nodup) (hdefault : DefaultsDiffer layout)
    (hcs : copies inOrderBases records (Multiset.ofList (records.map Prod.snd)) = cs)
    (hq : q ∈ layout.windIn) {zone : TreeZone} {intent : Intent}
    (hzone : q.treeZone? = some (zone, intent)) (hused : intent ≠ .copyable) :
    ∃ r ∈ layout.windIn, Kept (copied layout.intents cs) zone.base r
      ∧ (∀ r' ∈ layout.windIn, Kept (copied layout.intents cs) zone.base r' → r' = r)
      ∧ ∀ d ∈ layout.windIn, d.IsDefault → d.base? = some zone.base → d = r := by
  have hmem : ∀ a ∈ cs, ∃ r ∈ records, r.1 = a := by
    intro a ha
    rw [← hcs] at ha
    exact mem_of_copies records ha
  have hcounts : Counts (Multiset.ofList (records.map Prod.snd)) records := fun base _ =>
    Multiset.coe_count base _
  -- a kept patch is default, or a record that is not copied
  have hkept : ∀ r ∈ layout.windIn, Kept (copied layout.intents cs) zone.base r →
      r.IsDefault ∨ (r.ptr, zone.base) ∈ records ∧ r.ptr ∉ cs := by
    rintro r hr ⟨hbase, hnot⟩
    cases r with
    | free => exact absurd hbase (by simp [base?])
    | tree ptr zone' intent' originators children =>
        obtain ⟨hcopied, _⟩ := h.intent hdistinct hmem hr rfl
        rw [hcopied] at hnot
        by_cases hin : ptr ∈ cs
        · exact absurd (if_pos hin) hnot
        · rw [Patch.ptr, if_neg hin] at hnot
          cases intent' with
          | default => exact .inl ⟨zone', rfl⟩
          | moveable => exact .inr ⟨(h.moveable _).mpr ⟨_, hr, ⟨zone', rfl⟩, rfl, hbase⟩, hin⟩
          | copyable => exact absurd rfl hnot
  by_cases hin : zone.base ∈ inOrderBases
  · -- the default one
    obtain ⟨d, hd, hddef, hdbase⟩ := (h.inOrder _).mp hin
    have hunique : ∀ d' ∈ layout.windIn, d'.IsDefault → d'.base? = some zone.base → d' = d := by
      intro d' hd' hddef' hdbase'
      by_contra hne
      have hsymm : Std.Symm fun p q : Patch P => p.IsDefault → q.IsDefault → p.base? ≠ q.base? :=
        ⟨fun p q hpq hq hp heq => hpq hp hq heq.symm⟩
      exact hdefault.forall hd' hd hne hddef' hddef (hdbase'.trans hdbase.symm)
    refine ⟨d, hd, ⟨hdbase, ?_⟩, ?_, hunique⟩
    · obtain ⟨zoned, hzoned⟩ := hddef
      obtain ⟨hcopied, hmove⟩ := h.intent hdistinct hmem hd hzoned
      rw [hcopied, if_neg fun hin => absurd (hmove hin) (by simp)]
      simp
    · intro r' hr' hkept'
      rcases hkept r' hr' hkept' with hdef | ⟨hrecord, hnot⟩
      · exact hunique r' hr' hdef hkept'.1
      · exact absurd (hcs ▸ copied_of_inOrder records _ hrecord hin) hnot
  · -- the last of the moveable ones
    have hnodefault : ∀ d ∈ layout.windIn, d.IsDefault → d.base? ≠ some zone.base :=
      fun d hd hddef hdbase => hin ((h.inOrder _).mpr ⟨d, hd, hddef, hdbase⟩)
    have hbase := base?_of_treeZone? hzone
    have hrecord : (q.ptr, zone.base) ∈ records := by
      refine (h.moveable _).mpr ⟨q, hq, ⟨zone, ?_⟩, rfl, hbase⟩
      cases intent with
      | default => exact absurd hbase (hnodefault q hq ⟨zone, hzone⟩)
      | moveable => exact hzone
      | copyable => exact absurd rfl hused
    obtain ⟨r, ⟨hr, hrbase, hrkept⟩, hunique⟩ :=
      kept_unique hin records h.nodup hcounts (List.mem_map.mpr ⟨_, hrecord, rfl⟩)
    rw [hcs] at hrkept
    obtain ⟨p, hp, ⟨zonep, hzonep⟩, hptr, hpbase⟩ := (h.moveable r).mp hr
    rw [hrbase] at hpbase
    refine ⟨p, hp, ⟨hpbase, ?_⟩, ?_, fun d hd hddef hdbase =>
      absurd hdbase (hnodefault d hd hddef)⟩
    · obtain ⟨hcopied, _⟩ := h.intent hdistinct hmem hp hzonep
      rw [hcopied, hptr, if_neg hrkept]
      simp
    · intro p' hp' hkept'
      rcases hkept p' hp' hkept' with hdef | ⟨hrecord', hnot⟩
      · exact absurd hkept'.1 (hnodefault p' hp' hdef)
      · have heq := hunique (p'.ptr, zone.base) ⟨hrecord', rfl, hcs ▸ hnot⟩
        refine List.inj_on_of_nodup_map hdistinct hp' hp ?_
        rw [hptr, ← heq]

end

/-- **The pass returns**, with the patches `cs` of its records copied. -/
theorem chooseCopiesPass_run {layout : Patch P} (hdistinct : (ptrs layout.windIn).Nodup)
    (hdefault : DefaultsDiffer layout) : ∃ records inOrderBases cs,
      chooseCopiesPass layout = some (layout.withIntents (copied layout.intents cs))
        ∧ Collected layout inOrderBases records
        ∧ copies inOrderBases records (Multiset.ofList (records.map Prod.snd)) = cs
        ∧ ∀ a ∈ cs, ∃ r ∈ records, r.1 = a := by
  -- what the walk has collected, and what the loop over the records does with it
  obtain ⟨records, inOrderBases, hwalk, hcollected⟩ := collected hdistinct hdefault
  have hcounts : Counts (Multiset.ofList (records.map Prod.snd)) records := fun base _ =>
    Multiset.coe_count base _
  have hrecords : ∀ r ∈ records, ∃ q ∈ layout.windIn, ∃ a, q.ptr = r.1 ∧ q.base? = some a := by
    intro r hr
    obtain ⟨q, hq, _, hptr, hbase⟩ := (hcollected.moveable r).mp hr
    exact ⟨q, hq, r.2, hptr, hbase⟩
  have hloop := chooseCopiesLoop_spec (f := layout.intents) inOrderBases
    hdistinct records hrecords hcounts
  have hown : ∀ q ∈ layout.windIn, Stores layout.intents q := fun q hq zone intent hzone =>
    intents_of_mem hdistinct hq hzone
  -- the loop begins with the intents that the patches store
  rw [withIntents_self hown] at hloop
  refine ⟨records, inOrderBases, _, ?_, hcollected, rfl, fun a ha => mem_of_copies records ha⟩
  unfold chooseCopiesPass
  rw [hwalk]
  exact hloop

/-- **Each zone that is reused is kept exactly once.**  The pass returns and changes nothing
but moveable intents, to copyable; of the patches at a base that some patch not copyable
has, exactly one is left not copyable, and it is the default one whenever there is one. -/
theorem chooseCopiesPass_keepsOne {layout : Patch P} (hdistinct : (ptrs layout.windIn).Nodup)
    (hdefault : DefaultsDiffer layout) :
    ∃ g : Intents, chooseCopiesPass layout = some (layout.withIntents g)
      ∧ (∀ q ∈ layout.windIn, ∀ zone intent, q.treeZone? = some (zone, intent) →
          g q.ptr = intent ∨ intent = .moveable ∧ g q.ptr = .copyable)
      ∧ ∀ q ∈ layout.windIn, ∀ zone intent, q.treeZone? = some (zone, intent) →
          intent ≠ .copyable → ∃ r ∈ layout.windIn, Kept g zone.base r
            ∧ (∀ r' ∈ layout.windIn, Kept g zone.base r' → r' = r)
            ∧ ∀ d ∈ layout.windIn, d.IsDefault → d.base? = some zone.base → d = r := by
  obtain ⟨records, inOrderBases, cs, hrun, hcollected, hcs, hmem⟩ :=
    chooseCopiesPass_run hdistinct hdefault
  refine ⟨copied layout.intents cs, hrun, ?_, ?_⟩
  · intro q hq zone intent hzone
    obtain ⟨hcopied, hmove⟩ := hcollected.intent hdistinct hmem hq hzone
    rw [hcopied]
    by_cases hin : q.ptr ∈ cs
    · exact .inr ⟨hmove hin, if_pos hin⟩
    · exact .inl (if_neg hin)
  · -- at a base that is used, exactly one patch is left
    intro q hq zone intent hzone hused
    exact hcollected.keepsOne hdistinct hdefault hcs hq hzone hused

/-- Two moveable patches and a default one at one base. -/
def threeUses : Patch Unit :=
  .free 0 ⟨some 0, []⟩ ∅ [.tree 1 ⟨1, [], 0⟩ .moveable ∅ [], .tree 2 ⟨1, [], 0⟩ .default ∅ [],
    .tree 3 ⟨1, [], 0⟩ .moveable ∅ []]

theorem chooseCopiesPass_keepsOne_threeUses :
    ∃ g : Intents, chooseCopiesPass threeUses = some (threeUses.withIntents g)
      ∧ ∃ r ∈ threeUses.windIn, Kept g 1 r
        ∧ (∀ r' ∈ threeUses.windIn, Kept g 1 r' → r' = r)
        ∧ ∀ d ∈ threeUses.windIn, d.IsDefault → d.base? = some 1 → d = r := by
  have hwalk : threeUses.windIn = [threeUses, .tree 1 ⟨1, [], 0⟩ .moveable ∅ [],
      .tree 2 ⟨1, [], 0⟩ .default ∅ [], .tree 3 ⟨1, [], 0⟩ .moveable ∅ []] := rfl
  have hdefault : DefaultsDiffer threeUses := by
    unfold DefaultsDiffer
    rw [hwalk]
    simp [IsDefault, threeUses, treeZone?]
  have hdistinct : (ptrs threeUses.windIn).Nodup := by
    rw [hwalk]
    decide
  obtain ⟨g, hrun, _, hone⟩ := chooseCopiesPass_keepsOne hdistinct hdefault
  refine ⟨g, hrun, hone (.tree 1 ⟨1, [], 0⟩ .moveable ∅ []) ?_ ⟨1, [], 0⟩ .moveable rfl (by simp)⟩
  rw [hwalk]
  simp

end Inferno.UP
