/-
  Inferno.UP.Intents
  ──────────────────
  A layout and its intents.

    • `IsDefault`   — a tree patch with the default intent,
    • `windIn_withIntents`, `base?_withIntents` — other intents, the same patches,
    • `intents_of_mem` — at distinct addresses, each patch has its own intent,
    • `setIntentAt_withIntents` — setting one intent through a pointer.
-/
import Inferno.UP.NextDescendants
import Inferno.UP.Passes

namespace Inferno.UP

open Inferno.Common Inferno.DB Patch

variable {P : Type} {f g : Intents} {p q : Patch P}

/-! ## §1. Other intents. -/

namespace Patch

/-- A tree patch with the default intent. -/
def IsDefault (p : Patch P) : Prop :=
  ∃ zone, p.treeZone? = some (zone, .default)

end Patch

mutual

theorem windIn_withIntents : ∀ p : Patch P,
    (withIntents f p).windIn = p.windIn.map (withIntents f)
  | .tree ptr zone intent originators cs => by
      rw [withIntents, windIn, windIn, List.map_cons, windInAll_withIntents cs, withIntents]
  | .free ptr zone originators cs => by
      rw [withIntents, windIn, windIn, List.map_cons, windInAll_withIntents cs, withIntents]

theorem windInAll_withIntents : ∀ cs : List (Patch P),
    windInAll (withIntentsAll f cs) = (windInAll cs).map (withIntents f)
  | [] => rfl
  | c :: cs => by
      rw [withIntentsAll, windInAll, windInAll, List.map_append, windIn_withIntents c,
        windInAll_withIntents cs]

end

theorem withIntentsAll_eq (cs : List (Patch P)) :
    withIntentsAll f cs = cs.map (withIntents f) := by
  induction cs with
  | nil => rfl
  | cons c cs ih => rw [withIntentsAll, ih, List.map_cons]

theorem base?_withIntents (p : Patch P) : (withIntents f p).base? = p.base? := by
  cases p with
  | tree ptr zone intent originators cs =>
      rw [withIntents]
      rfl
  | free ptr zone originators cs =>
      rw [withIntents]
      rfl

theorem ptr_withIntents (p : Patch P) : (withIntents f p).ptr = p.ptr := by
  cases p with
  | tree ptr zone intent originators cs =>
      rw [withIntents]
      rfl
  | free ptr zone originators cs =>
      rw [withIntents]
      rfl

theorem isDefault_withIntents (p : Patch P) : (withIntents f p).IsDefault ↔
    f p.ptr = .default ∧ ∃ a, p.base? = some a := by
  unfold IsDefault
  cases p with
  | tree ptr zone intent originators cs =>
      rw [withIntents]
      simp [treeZone?, base?, Patch.ptr]
  | free ptr zone originators cs =>
      rw [withIntents]
      simp [treeZone?, base?]

/-! ## §2. Patches at their addresses. -/

/-- With distinct addresses, the pointer to a patch leads to it. -/
theorem deref_of_mem {layout : Patch P} (hdistinct : (ptrs layout.windIn).Nodup)
    (hq : q ∈ layout.windIn) : layout.deref q.ptr = some q := by
  unfold deref
  cases hfound : layout.windIn.find? (·.ptr = q.ptr) with
  | none =>
      have hnone := List.find?_eq_none.mp hfound q hq
      exact absurd (decide_eq_true rfl) hnone
  | some r =>
      have hptr : r.ptr = q.ptr := by simpa using List.find?_some hfound
      rw [List.inj_on_of_nodup_map hdistinct (List.mem_of_find?_eq_some hfound) hq hptr]

/-- With distinct addresses, the intent at the address of a patch is its own. -/
theorem intents_of_mem {layout : Patch P} (hdistinct : (ptrs layout.windIn).Nodup)
    (hq : q ∈ layout.windIn) {zone : TreeZone} {intent : Intent}
    (hzone : q.treeZone? = some (zone, intent)) : layout.intents q.ptr = intent := by
  have hderef : layout.windIn.find? (·.ptr = q.ptr) = some q := deref_of_mem hdistinct hq
  unfold Patch.intents
  rw [hderef]
  cases q with
  | tree ptr zone' intent' originators cs =>
      cases hzone
      rfl
  | free ptr zone' originators cs => exact absurd hzone (by simp [treeZone?])

mutual

/-- Both walks meet the same patches. -/
theorem windOut_perm : ∀ p : Patch P, p.windOut.Perm p.windIn
  | .tree ptr zone intent originators cs => by
      rw [windOut, windIn]
      exact (List.perm_append_singleton _ _).trans ((windOutAll_perm cs).cons _)
  | .free ptr zone originators cs => by
      rw [windOut, windIn]
      exact (List.perm_append_singleton _ _).trans ((windOutAll_perm cs).cons _)

theorem windOutAll_perm : ∀ cs : List (Patch P), (windOutAll cs).Perm (windInAll cs)
  | [] => by simp [windOutAll, windInAll]
  | c :: cs => by
      rw [windOutAll, windInAll]
      exact (windOut_perm c).append (windOutAll_perm cs)

end

/-! ## §3. One intent set. -/

/-- The intent that a tree patch stores is the one at its address. -/
def Stores (f : Intents) (q : Patch P) : Prop :=
  ∀ zone intent, q.treeZone? = some (zone, intent) → f q.ptr = intent

mutual

/-- A layout with its own intents. -/
theorem withIntents_self : ∀ {p : Patch P}, (∀ q ∈ p.windIn, Stores f q) → withIntents f p = p
  | .tree ptr zone intent originators cs, h => by
      have hself : f ptr = intent := h _ List.mem_cons_self zone intent rfl
      rw [withIntents, hself, withIntentsAll_self fun q hq => h q (List.mem_cons_of_mem _ hq)]
  | .free ptr zone originators cs, h => by
      rw [withIntents, withIntentsAll_self fun q hq => h q (List.mem_cons_of_mem _ hq)]

theorem withIntentsAll_self : ∀ {cs : List (Patch P)}, (∀ q ∈ windInAll cs, Stores f q) →
    withIntentsAll f cs = cs
  | [], _ => rfl
  | c :: cs, h => by
      rw [windInAll, List.forall_mem_append] at h
      rw [withIntentsAll, withIntents_self h.1, withIntentsAll_self h.2]

end

mutual

/-- The intents of the patches of the layout decide. -/
theorem withIntents_congr : ∀ {p : Patch P}, (∀ a ∈ ptrs p.windIn, g a = f a) →
    withIntents g p = withIntents f p
  | .tree ptr zone intent originators cs, h => by
      have hall : withIntentsAll g cs = withIntentsAll f cs :=
        withIntentsAll_congr fun a ha => h a (List.mem_cons_of_mem _ ha)
      rw [withIntents, withIntents, h ptr List.mem_cons_self, hall]
  | .free ptr zone originators cs, h => by
      have hall : withIntentsAll g cs = withIntentsAll f cs :=
        withIntentsAll_congr fun a ha => h a (List.mem_cons_of_mem _ ha)
      rw [withIntents, withIntents, hall]

theorem withIntentsAll_congr : ∀ {cs : List (Patch P)},
    (∀ a ∈ ptrs (windInAll cs), g a = f a) → withIntentsAll g cs = withIntentsAll f cs
  | [], _ => rfl
  | c :: cs, h => by
      rw [windInAll, ptrs, List.map_append, List.forall_mem_append] at h
      rw [withIntentsAll, withIntentsAll, withIntents_congr h.1, withIntentsAll_congr h.2]

end

mutual

/-- Writing through a pointer that leads elsewhere. -/
theorem assign_none {a : Nat} {patch : Patch P} : ∀ {p : Patch P}, a ∉ ptrs p.windIn →
    assign a patch p = none
  | .tree ptr zone intent originators cs, h => by
      rw [windIn, ptrs, List.map_cons, List.mem_cons, not_or] at h
      have hne : ptr ≠ a := fun heq => h.1 heq.symm
      rw [assign, if_neg hne, assignAll_none h.2]
      rfl
  | .free ptr zone originators cs, h => by
      rw [windIn, ptrs, List.map_cons, List.mem_cons, not_or] at h
      have hne : ptr ≠ a := fun heq => h.1 heq.symm
      rw [assign, if_neg hne, assignAll_none h.2]
      rfl

theorem assignAll_none {a : Nat} {patch : Patch P} : ∀ {cs : List (Patch P)},
    a ∉ ptrs (windInAll cs) → Patch.assignAll a patch cs = none
  | [], _ => rfl
  | c :: cs, h => by
      rw [windInAll, ptrs, List.map_append, List.mem_append, not_or] at h
      rw [Patch.assignAll, assign_none h.1]
      dsimp only
      rw [assignAll_none h.2]
      rfl

end

mutual

/-- **Writing a patch with a new intent**, where all others keep theirs. -/
theorem assign_withIntents {q : Patch P} : ∀ {p : Patch P}, (ptrs p.windIn).Nodup →
    q ∈ p.windIn → (∀ a ∈ ptrs p.windIn, a ≠ q.ptr → g a = f a) →
    assign q.ptr (withIntents g q) (withIntents f p) = some (withIntents g p)
  | .tree ptr zone intent originators cs, hnodup, hq, h => by
      rw [windIn, ptrs, List.map_cons, List.nodup_cons] at hnodup
      rw [windIn, List.mem_cons] at hq
      rw [withIntents, assign]
      rcases hq with rfl | hq
      · exact if_pos rfl
      · -- the patch is below; this one keeps its intent
        have hptr : q.ptr ∈ ptrs (windInAll cs) := List.mem_map_of_mem hq
        have hne : ptr ≠ q.ptr := by
          rintro rfl
          exact hnodup.1 hptr
        have hself : g ptr = f ptr := h ptr List.mem_cons_self hne
        rw [if_neg hne, withIntents, hself,
          assignAll_withIntents hnodup.2 hq fun a ha => h a (List.mem_cons_of_mem _ ha)]
        rfl
  | .free ptr zone originators cs, hnodup, hq, h => by
      rw [windIn, ptrs, List.map_cons, List.nodup_cons] at hnodup
      rw [windIn, List.mem_cons] at hq
      rw [withIntents, assign]
      rcases hq with rfl | hq
      · exact if_pos rfl
      · have hptr : q.ptr ∈ ptrs (windInAll cs) := List.mem_map_of_mem hq
        have hne : ptr ≠ q.ptr := by
          rintro rfl
          exact hnodup.1 hptr
        rw [if_neg hne, withIntents,
          assignAll_withIntents hnodup.2 hq fun a ha => h a (List.mem_cons_of_mem _ ha)]
        rfl

theorem assignAll_withIntents {q : Patch P} : ∀ {cs : List (Patch P)},
    (ptrs (windInAll cs)).Nodup → q ∈ windInAll cs →
    (∀ a ∈ ptrs (windInAll cs), a ≠ q.ptr → g a = f a) →
    Patch.assignAll q.ptr (withIntents g q) (withIntentsAll f cs) = some (withIntentsAll g cs)
  | [], _, hq, _ => absurd hq (by simp [windInAll])
  | c :: cs, hnodup, hq, h => by
      rw [windInAll, ptrs, List.map_append, List.nodup_append'] at hnodup
      rw [windInAll, List.mem_append] at hq
      rw [windInAll, ptrs, List.map_append, List.forall_mem_append] at h
      obtain ⟨hc, hcs, hdisjoint⟩ := hnodup
      rw [withIntentsAll, Patch.assignAll]
      -- the patch is below `c`, and then not below the others
      by_cases hqc : q ∈ c.windIn
      · rw [assign_withIntents hc hqc h.1]
        have hsame : withIntentsAll g cs = withIntentsAll f cs := by
          refine withIntentsAll_congr ?_
          intro a ha
          refine h.2 a ha ?_
          rintro rfl
          exact hdisjoint (List.mem_map_of_mem hqc) ha
        rw [withIntentsAll, hsame]
      · -- or it is not, and `c` stays as it is
        have hqcs : q ∈ windInAll cs := hq.resolve_left hqc
        have hout : q.ptr ∉ ptrs c.windIn := fun hmem =>
          hdisjoint hmem (List.mem_map_of_mem hqcs)
        have hskip : assign q.ptr (withIntents g q) (withIntents f c) = none := by
          refine assign_none ?_
          rw [windIn_withIntents, ptrs, List.map_map]
          have hptrs : (Patch.ptr ∘ withIntents f) = (Patch.ptr : Patch P → Nat) := by
            funext r
            exact ptr_withIntents r
          rw [hptrs]
          exact hout
        have hsame : withIntents g c = withIntents f c := by
          refine withIntents_congr ?_
          intro a ha
          refine h.1 a ha ?_
          rintro rfl
          exact hout ha
        rw [hskip]
        dsimp only
        rw [assignAll_withIntents hcs hqcs h.2, withIntentsAll, hsame]
        rfl

end

/-- **`SetIntent` through a pointer** to a tree patch of the layout. -/
theorem setIntentAt_withIntents {layout : Patch P} (hdistinct : (ptrs layout.windIn).Nodup)
    (hq : q ∈ layout.windIn) {a : Nat} (hbase : q.base? = some a) (intent : Intent) :
    setIntentAt q.ptr intent (layout.withIntents f)
      = some (layout.withIntents (Function.update f q.ptr intent)) := by
  -- intents are no part of where patches are
  have hptrs : ptrs (withIntents f layout).windIn = ptrs layout.windIn := by
    rw [windIn_withIntents, ptrs, List.map_map]
    refine List.map_congr_left ?_
    intro r _
    exact ptr_withIntents r
  have hmem : withIntents f q ∈ (withIntents f layout).windIn := by
    rw [windIn_withIntents]
    exact List.mem_map_of_mem hq
  have hderef := deref_of_mem (hptrs ▸ hdistinct) hmem
  rw [ptr_withIntents] at hderef
  have hset : (withIntents f q).setIntent intent
      = some (withIntents (Function.update f q.ptr intent) q) := by
    cases q with
    | free ptr zone originators cs => exact absurd hbase (by simp [base?])
    | tree ptr zone old originators cs =>
        -- the patches below have other addresses
        have hbelow : ptr ∉ ptrs (windInAll cs) := by
          have hone := hdistinct.sublist ((windIn_sublist hq).map Patch.ptr)
          rw [windIn, List.map_cons, List.nodup_cons] at hone
          exact hone.1
        have hsame : withIntentsAll (Function.update f ptr intent) cs = withIntentsAll f cs := by
          refine withIntentsAll_congr ?_
          intro b hb
          refine Function.update_of_ne ?_ _ _
          rintro rfl
          exact hbelow hb
        rw [withIntents, withIntents]
        show some _ = some _
        rw [Patch.ptr, Function.update_self, hsame]
  unfold setIntentAt
  rw [hderef]
  dsimp only [Option.bind_eq_bind, Option.bind_some]
  rw [hset]
  dsimp only [Option.bind_some]
  refine assign_withIntents hdistinct hq ?_
  intro b _ hb
  exact Function.update_of_ne hb _ _

end Inferno.UP
