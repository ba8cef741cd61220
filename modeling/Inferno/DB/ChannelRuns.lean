/-
  Inferno.DB.ChannelRuns
  ──────────────────────
  A channel inside its database: every run of insertions, deletions, update ends
  and step ends.

    • `World`     — the channel, where its deferred loops stand, and what the
                    database around it holds; two fields are ghosts,
    • `Label`     — one thing that can happen; the deferred loops are broken at
                    each element they visit, since what they visit next depends
                    on what the visit inserted,
    • `Enabled`   — the callers' contract and the program order,
    • `exec`      — what happens; `none` is a failed assertion,
    • `Reachable` — the states of the runs whose every step meets a condition.
-/
import Inferno.DB.ChannelInvariant
import Mathlib

namespace Inferno.DB

open Inferno.Common

/-! ## §1. Walking a set while it grows. -/

section

variable {α : Type} [LinearOrder α]

/-- Where the iterator of a range-for over a `std::set` goes next: the least
element past the one visited, of the set as it is NOW. -/
def nextAfter (s : Finset α) (visited : Option α) : Option α :=
  (inOrder (s.filter (fun y => ∀ v ∈ visited, v < y))).head?

theorem nextAfter_eq_some {s : Finset α} {visited : Option α} {x : α}
    (h : nextAfter s visited = some x) : x ∈ s ∧ ∀ v ∈ visited, v < x := by
  have hmem := List.mem_of_mem_head? (show x ∈ _ from h)
  rw [mem_inOrder, Finset.mem_filter] at hmem
  exact hmem

/-- Nothing is passed over: what lies between the element visited and the next one
is not in the set. -/
theorem nextAfter_least {s : Finset α} {visited : Option α} {x : α}
    (h : nextAfter s visited = some x) {y : α} (hy : y ∈ s) (hv : ∀ v ∈ visited, v < y) :
    x ≤ y := by
  have hin : y ∈ (inOrder (s.filter (fun y => ∀ v ∈ visited, v < y))) :=
    mem_inOrder.mpr (Finset.mem_filter.mpr ⟨hy, hv⟩)
  have hsorted := inOrder_pairwise (s.filter (fun y => ∀ v ∈ visited, v < y))
  unfold nextAfter at h
  cases hl : (inOrder (s.filter (fun y => ∀ v ∈ visited, v < y))) with
  | nil => rw [hl] at hin; cases hin
  | cons z zs =>
      rw [hl] at h hin hsorted
      cases h
      rcases List.mem_cons.mp hin with rfl | hin
      · exact le_rfl
      · exact List.rel_of_pairwise_cons hsorted hin

theorem nextAfter_eq_none {s : Finset α} {visited : Option α}
    (h : nextAfter s visited = none) {y : α} (hy : y ∈ s) : ∃ v ∈ visited, y ≤ v := by
  by_contra hno
  push Not at hno
  have hin : y ∈ (inOrder (s.filter (fun y => ∀ v ∈ visited, v < y))) :=
    mem_inOrder.mpr (Finset.mem_filter.mpr ⟨hy, hno⟩)
  unfold nextAfter at h
  rw [List.head?_eq_none_iff] at h
  rw [h] at hin
  cases hin

end

/-! ## §2. The world. -/

/-- Where the channel's deferred actions stand: not running, or in a loop that has
just visited an element (`none` before the first). -/
inductive Phase (X : Type) where
  | idle
  | updating (visited : Option X)
  | stepping (visited : Option Nat)
deriving DecidableEq

/-- A channel and the part of its database it can tell apart. -/
structure World (X R : Type) where
  channel : DomainExtensionChannel X R
  phase : Phase X
  /-- The XLinks inserted and not deleted since. -/
  alive : Finset X
  /-- The ordinals of all live trees, whoever made them. -/
  trees : Finset Nat
  /-- Ghost: the live trees this channel has created. -/
  own : Finset Nat
  /-- Ghost: the XLinks checked by `CheckStimulusXLink` since they were inserted,
  and since a dependency recorded for them was last deleted. -/
  checked : Finset X

/-- What can happen. -/
inductive Label (X R : Type) where
  | insertAction (xlink : X)
  | deleteAction (xlink : X)
  /-- Other owners build and free trees. -/
  | otherTrees (trees : Finset Nat)
  | beginEndOfUpdate
  /-- One pass of the loop of `DeferredActionsEndOfUpdate`. -/
  | check (stimulus : X) (info : Option (InducedAndDeps X R)) (built : BuiltTree X)
  | finishEndOfUpdate (domainSize : Nat)
  | beginEndOfStep
  /-- One pass of the loop of `DeferredActionsEndOfStep`: the links `TeardownTree`
  deletes, in walk order. -/
  | teardown (ord : Nat) (xlinks : List X)
  | finishEndOfStep

namespace World

variable {X R : Type} [LinearOrder X] [DecidableEq R]

/-- A new channel over an empty database. -/
def start : World X R := ⟨DomainExtensionChannel.empty, .idle, ∅, ∅, ∅, ∅⟩

/-- In the loop of `DeferredActionsEndOfUpdate`: the stimulus it visits next. -/
def nextStimulus (w : World X R) : Option (Option X) :=
  match w.phase with
  | .updating visited => some (nextAfter w.channel.stimuliiToRecheck visited)
  | _ => none

/-- In the loop of `DeferredActionsEndOfStep`: the ordinal it visits next. -/
def nextOrdinal (w : World X R) : Option (Option Nat) :=
  match w.phase with
  | .stepping visited => some (nextAfter w.channel.ordinalsToTearDown visited)
  | _ => none

/-- **The callers' contract and the program order.**  An XLink is inserted only
when absent and deleted only when present; a new tree has a fresh ordinal and new
links; a loop visits its elements in iterator order. -/
def Enabled (w : World X R) : Label X R → Prop
  | .insertAction x => w.phase = .idle ∧ x ∉ w.alive
  | .deleteAction x => w.phase = .idle ∧ x ∈ w.alive
  | .otherTrees trees => w.phase = .idle ∧ w.own ⊆ trees
  | .beginEndOfUpdate => w.phase = .idle
  | .check x info built => w.nextStimulus = some (some x) ∧
      (w.channel.needsTree info → built.xlinks.Nodup ∧ (∀ y ∈ built.xlinks, y ∉ w.alive)
        ∧ built.treeOrdinal ∉ w.trees)
  | .finishEndOfUpdate domainSize => w.nextStimulus = some none ∧ w.alive.card ≤ domainSize
  | .beginEndOfStep => w.phase = .idle
  | .teardown ord xlinks => w.nextOrdinal = some (some ord) ∧ xlinks.Nodup
      ∧ ∀ x ∈ xlinks, x ∈ w.alive
  | .finishEndOfStep => w.nextOrdinal = some none

instance (w : World X R) (l : Label X R) : Decidable (w.Enabled l) := by
  cases l <;> unfold Enabled <;> infer_instance

/-- What happens. -/
def exec (w : World X R) : Label X R → Option (World X R)
  | .insertAction x => do
      let c ← w.channel.insertAction x
      some { w with channel := c, alive := insert x w.alive }
  | .deleteAction x => do
      let c ← w.channel.deleteAction x
      some { w with
        channel := c
        alive := w.alive.erase x
        checked := (w.checked.erase x).filter (fun y => ¬ w.channel.DependsOn y x) }
  | .otherTrees trees => some { w with trees := trees }
  | .beginEndOfUpdate => some { w with phase := .updating none }
  | .check x info built => do
      let c ← w.channel.checkStimulusXLink x info built
      let builds := w.channel.needsTree info
      some { w with
        channel := c
        phase := .updating (some x)
        alive := if builds then w.alive ∪ built.xlinks.toFinset else w.alive
        trees := if builds then insert built.treeOrdinal w.trees else w.trees
        own := if builds then insert built.treeOrdinal w.own else w.own
        checked := insert x w.checked }
  | .finishEndOfUpdate domainSize => do
      let c := { w.channel with stimuliiToRecheck := ∅ }
      c.validate domainSize
      some { w with channel := c, phase := .idle }
  | .beginEndOfStep => some { w with phase := .stepping none }
  | .teardown ord xlinks => do
      let c ← xlinks.foldlM DomainExtensionChannel.deleteAction w.channel
      some { w with
        channel := c
        phase := .stepping (some ord)
        alive := w.alive \ xlinks.toFinset
        trees := w.trees.erase ord
        own := w.own.erase ord
        checked := (w.checked \ xlinks.toFinset).filter
          (fun y => ¬ ∃ x ∈ xlinks, w.channel.DependsOn y x) }
  | .finishEndOfStep =>
      some { w with channel := { w.channel with ordinalsToTearDown := ∅ }, phase := .idle }

/-- The states of the runs, from a new channel, whose every step meets `Cond`. -/
inductive Reachable (Cond : World X R → Label X R → Prop) : World X R → Prop
  | start : Reachable Cond start
  | step {w w' : World X R} {l : Label X R} : Reachable Cond w → w.Enabled l → Cond w l →
      w.exec l = some w' → Reachable Cond w'

/-- Every run. -/
def AnyStep : World X R → Label X R → Prop := fun _ _ => True

instance (w : World X R) (l : Label X R) : Decidable (AnyStep w l) :=
  inferInstanceAs (Decidable True)

theorem Reachable.mono {Cond Cond' : World X R → Label X R → Prop}
    (hsub : ∀ w l, Cond w l → Cond' w l) {w : World X R} (h : Reachable Cond w) :
    Reachable Cond' w := by
  induction h with
  | start => exact .start
  | step _ hen hc hex ih => exact .step ih hen (hsub _ _ hc) hex

/-- Run a list of labels, each enabled and meeting the condition. -/
def runLabels (Cond : World X R → Label X R → Prop) [∀ w l, Decidable (Cond w l)] :
    World X R → List (Label X R) → Option (World X R)
  | w, [] => some w
  | w, l :: ls =>
      if w.Enabled l ∧ Cond w l then (w.exec l).bind (fun w' => runLabels Cond w' ls) else none

theorem Reachable.runLabels {Cond : World X R → Label X R → Prop} [∀ w l, Decidable (Cond w l)] :
    ∀ (ls : List (Label X R)) {w w' : World X R}, Reachable Cond w →
      World.runLabels Cond w ls = some w' → Reachable Cond w' := by
  intro ls
  induction ls with
  | nil =>
      intro w w' h hrun
      cases hrun
      exact h
  | cons l ls ih =>
      intro w w' h hrun
      rw [World.runLabels] at hrun
      split at hrun
      next hl =>
        rw [Option.bind_eq_some_iff] at hrun
        obtain ⟨w₁, hex, hrun⟩ := hrun
        exact ih (h.step hl.1 hl.2 hex) hrun
      next => cases hrun

theorem Reachable.exists_of_run {Cond : World X R → Label X R → Prop}
    [∀ w l, Decidable (Cond w l)] {P : World X R → Prop} [DecidablePred P]
    (ls : List (Label X R)) (h : (World.runLabels Cond World.start ls).any (fun w => decide (P w))) :
    ∃ w, Reachable Cond w ∧ P w := by
  rw [Option.any_eq_true] at h
  obtain ⟨w, hrun, hP⟩ := h
  exact ⟨w, Reachable.runLabels ls .start hrun, of_decide_eq_true hP⟩

/-! ## §3. The invariant of every run. -/

/-- **The invariant of every run.**  While the update loop stands at an element,
stimulii up to that element may be both recorded and awaiting a check. -/
structure Inv (w : World X R) : Prop where
  wf : w.channel.WF
  apart : ∀ s ∈ w.channel.stimuliiToRecheck,
    s ∈ w.channel.stimulusToInducedRootAndDeps.keys → ∃ v, w.phase = .updating (some v) ∧ s ≤ v
  recheck_alive : w.channel.stimuliiToRecheck ⊆ w.alive
  stimulii_alive : w.channel.stimulusToInducedRootAndDeps.keys ⊆ w.alive

theorem Inv.disjoint {w : World X R} (h : w.Inv) (hphase : ∀ v, w.phase ≠ .updating v) :
    ∀ s ∈ w.channel.stimuliiToRecheck, s ∉ w.channel.stimulusToInducedRootAndDeps.keys := by
  intro s hs hin
  obtain ⟨v, hv, _⟩ := h.apart s hs hin
  exact hphase _ hv

/-! ## §4. What each step does. -/

/-- A walk that deletes links of the database, one `DeleteAction` each: no assertion
fires; the links go, with the stimulii that depended on one of them, and the latter
await a recheck unless they went too. -/
theorem foldlM_deleteAction : ∀ (xlinks : List X) {c : DomainExtensionChannel X R}, c.WF →
    (∀ s ∈ c.stimuliiToRecheck, s ∉ c.stimulusToInducedRootAndDeps.keys) →
    ∃ c', xlinks.foldlM DomainExtensionChannel.deleteAction c = some c' ∧ c'.WF
      ∧ c.Drops c' (fun s => s ∈ xlinks ∨ ∃ x ∈ xlinks, c.DependsOn s x)
      ∧ (∀ y, y ∈ c'.stimuliiToRecheck ↔
          y ∉ xlinks ∧ (y ∈ c.stimuliiToRecheck ∨ ∃ x ∈ xlinks, c.DependsOn y x)) := by
  intro xlinks
  -- on the links; what a deletion leaves has the hypotheses again
  induction xlinks with
  | nil =>
      intro c h _
      have hrefl := DomainExtensionChannel.Drops.of_eq (c := c) rfl rfl rfl
      refine ⟨c, rfl, h, ?_, by simp⟩
      simpa using hrefl
  | cons x xlinks ih =>
      intro c h hdisj
      obtain ⟨c₁, hc₁, hwf₁, hdrop₁, hre₁⟩ := h.deleteAction x hdisj
      -- after the first deletion, who depends on what
      have hdep₁ : ∀ s z, c₁.DependsOn s z ↔ ¬ (s = x ∨ c.DependsOn s x) ∧ c.DependsOn s z := by
        intro s z
        unfold DomainExtensionChannel.DependsOn
        by_cases hs : s = x ∨ c.DependsOn s x
        · rw [hdrop₁.goes s hs]
          constructor
          · rintro ⟨_, hi, _⟩
            cases hi
          · intro hno
            exact absurd hs hno.1
        · rw [hdrop₁.stays s hs]
          exact ⟨fun hz => ⟨hs, hz⟩, fun hz => hz.2⟩
      have hdisj₁ : ∀ s ∈ c₁.stimuliiToRecheck,
          s ∉ c₁.stimulusToInducedRootAndDeps.keys := by
        intro s hs
        rw [← StdMap.lookup_eq_none]
        by_cases hg : s = x ∨ c.DependsOn s x
        · exact hdrop₁.goes s hg
        · rw [hdrop₁.stays s hg, StdMap.lookup_eq_none]
          obtain ⟨hne, hs | hs⟩ := (hre₁ s).mp hs
          · exact hdisj s hs
          · exact absurd (Or.inr hs) hg
      obtain ⟨c', hc', hwf', hdrop', hre'⟩ := ih hwf₁ hdisj₁
      -- those gone by the first deletion and by the others
      have hgone : (fun s => (s = x ∨ c.DependsOn s x)
            ∨ (s ∈ xlinks ∨ ∃ z ∈ xlinks, c₁.DependsOn s z))
          = (fun s => s ∈ x :: xlinks ∨ ∃ z ∈ x :: xlinks, c.DependsOn s z) := by
        funext s
        simp only [hdep₁, List.mem_cons, exists_eq_or_imp, eq_iff_iff]
        by_cases hg : s = x ∨ c.DependsOn s x <;> simp [hg] <;> tauto
      refine ⟨c', by simp [List.foldlM_cons, hc₁, hc'], hwf', hgone ▸ hdrop₁.trans hdrop', ?_⟩
      intro y
      simp only [hre', hre₁, hdep₁, List.mem_cons, exists_eq_or_imp]
      by_cases hg : y = x ∨ c.DependsOn y x
      · simp only [hg, not_true_eq_false, false_and, and_false, exists_false, or_false]
        tauto
      · simp only [hg, not_false_eq_true, true_and]
        tauto

section Steps

variable {w : World X R} (h : w.Inv)

include h

theorem Inv.exec_insertAction {x : X} (hen : w.Enabled (.insertAction x)) :
    w.exec (.insertAction x) = some { w with
      channel := { w.channel with stimuliiToRecheck := insert x w.channel.stimuliiToRecheck }
      alive := insert x w.alive } := by
  have hx : x ∉ w.channel.stimuliiToRecheck := fun hr => hen.2 (h.recheck_alive hr)
  simp only [exec, DomainExtensionChannel.insertAction_spec hx, Option.bind_eq_bind,
    Option.bind_some]

theorem Inv.exec_deleteAction {x : X} (hen : w.Enabled (.deleteAction x)) :
    ∃ c', w.exec (.deleteAction x) = some { w with
        channel := c'
        alive := w.alive.erase x
        checked := (w.checked.erase x).filter (fun y => ¬ w.channel.DependsOn y x) }
      ∧ c'.WF ∧ w.channel.Drops c' (fun s => s = x ∨ w.channel.DependsOn s x)
      ∧ ∀ y, y ∈ c'.stimuliiToRecheck ↔
          y ≠ x ∧ (y ∈ w.channel.stimuliiToRecheck ∨ w.channel.DependsOn y x) := by
  have hidle : w.phase = .idle := hen.1
  obtain ⟨c', hc', hspec⟩ := h.wf.deleteAction x (h.disjoint (by simp [hidle]))
  exact ⟨c', by simp only [exec, hc', Option.bind_eq_bind, Option.bind_some], hspec⟩

/-- The stimulus a check visits has no record, and the links it inserts are not
awaiting a check. -/
theorem Inv.exec_check {x : X} {info : Option (InducedAndDeps X R)} {built : BuiltTree X}
    (hen : w.Enabled (.check x info built)) :
    ∃ c' visited, w.phase = .updating visited
      ∧ nextAfter w.channel.stimuliiToRecheck visited = some x
      ∧ w.exec (.check x info built) = some
        { channel := c'
          phase := .updating (some x)
          alive := if w.channel.needsTree info then w.alive ∪ built.xlinks.toFinset else w.alive
          trees := if w.channel.needsTree info then insert built.treeOrdinal w.trees else w.trees
          own := if w.channel.needsTree info then insert built.treeOrdinal w.own else w.own
          checked := insert x w.checked }
      ∧ c'.WF ∧ w.channel.Checks c' x info built := by
  obtain ⟨hnext, hfresh⟩ := hen
  -- the phase gives the link that was checked last
  obtain ⟨visited, hphase, hnext⟩ : ∃ visited, w.phase = .updating visited
      ∧ nextAfter w.channel.stimuliiToRecheck visited = some x := by
    unfold nextStimulus at hnext
    split at hnext
    next visited hphase => exact ⟨visited, hphase, Option.some.inj hnext⟩
    next => cases hnext
  obtain ⟨hin, hlt⟩ := nextAfter_eq_some hnext
  -- a link with a record has been visited, and the next one comes after those
  have hx : x ∉ w.channel.stimulusToInducedRootAndDeps.keys := by
    intro hrec
    obtain ⟨v, hv, hle⟩ := h.apart x hin hrec
    rw [hphase] at hv
    cases hv
    exact absurd (hlt v rfl) (not_lt.mpr hle)
  obtain ⟨c', hc', hwf, hspec⟩ := h.wf.checkStimulusXLink hx info built (fun hn =>
    ⟨(hfresh hn).1, fun y hy hr => (hfresh hn).2.1 y hy (h.recheck_alive hr)⟩)
  exact ⟨c', visited, hphase, hnext,
    by simp only [exec, hc', Option.bind_eq_bind, Option.bind_some], hwf, hspec⟩

theorem Inv.exec_finishEndOfUpdate {n : Nat} (hen : w.Enabled (.finishEndOfUpdate n)) :
    (∃ visited, w.phase = .updating visited
        ∧ nextAfter w.channel.stimuliiToRecheck visited = none)
      ∧ w.exec (.finishEndOfUpdate n) = some { w with
          channel := { w.channel with stimuliiToRecheck := ∅ }
          phase := .idle } := by
  obtain ⟨hnext, hsize⟩ := hen
  refine ⟨?_, ?_⟩
  · unfold nextStimulus at hnext
    split at hnext
    next visited hphase => exact ⟨visited, hphase, Option.some.inj hnext⟩
    next => cases hnext
  · have hcard := (Finset.card_le_card h.stimulii_alive).trans hsize
    have hval := (h.wf.setRecheck ∅).validate hcard
    simp only [exec, hval, Option.bind_eq_bind, Option.bind_some]

theorem Inv.exec_teardown {ord : Nat} {xlinks : List X} (hen : w.Enabled (.teardown ord xlinks)) :
    ∃ c' visited, w.phase = .stepping visited
      ∧ nextAfter w.channel.ordinalsToTearDown visited = some ord
      ∧ w.exec (.teardown ord xlinks) = some
        { channel := c'
          phase := .stepping (some ord)
          alive := w.alive \ xlinks.toFinset
          trees := w.trees.erase ord
          own := w.own.erase ord
          checked := (w.checked \ xlinks.toFinset).filter
            (fun y => ¬ ∃ x ∈ xlinks, w.channel.DependsOn y x) }
      ∧ c'.WF
      ∧ w.channel.Drops c' (fun s => s ∈ xlinks ∨ ∃ x ∈ xlinks, w.channel.DependsOn s x)
      ∧ ∀ y, y ∈ c'.stimuliiToRecheck ↔ y ∉ xlinks ∧
          (y ∈ w.channel.stimuliiToRecheck ∨ ∃ x ∈ xlinks, w.channel.DependsOn y x) := by
  obtain ⟨hnext, _, _⟩ := hen
  obtain ⟨visited, hphase, hnext⟩ : ∃ visited, w.phase = .stepping visited
      ∧ nextAfter w.channel.ordinalsToTearDown visited = some ord := by
    unfold nextOrdinal at hnext
    split at hnext
    next visited hphase => exact ⟨visited, hphase, Option.some.inj hnext⟩
    next => cases hnext
  obtain ⟨c', hc', hspec⟩ := foldlM_deleteAction xlinks h.wf (h.disjoint (by simp [hphase]))
  exact ⟨c', visited, hphase, hnext,
    by simp only [exec, hc', Option.bind_eq_bind, Option.bind_some], hspec⟩

end Steps

end World

end Inferno.DB
