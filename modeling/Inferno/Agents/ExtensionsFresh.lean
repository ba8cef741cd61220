/-
  Inferno.Agents.ExtensionsFresh
  ──────────────────────────────
  **WHEN EXTENSIONS ARE FRESH AS THEY ARE SEARCHED.**

    • `RelocatingQueryResult`, `getDomainExtension`, `evaluate` — the relocating agent, on
                          the channel's side and on the search's,
    • `SearchWorld`     — a channel's run, with the trees that its extender looks at,
    • `SearchReachable` — the runs whose every step meets a condition: any step may change
                          the trees, and a check gets what the extender returns on the
                          trees of the moment,
    • `ChangesRechecked` — a step changes what a live link induces only while its check is
                          still to come,
    • `Fresh`           — the invariant: what a link induces is recorded, unless its check is
                          still to come,
    • `extensions_fresh` — `Evaluate` finds its extension; `extension_missing` is a run where
                          a declaration comes without a check for it.
-/
import Inferno.DB.ChannelSafety
import Mathlib

namespace Inferno.Agents

open Inferno.Common
open Inferno.DB

/-! ## §1. The agent. -/

/-- `RelocatingQueryResult`. -/
inductive RelocatingQueryResult (X R : Type) where
  | invalid
  | xTree (baseXlink : X)
  | induced (inducedBaseNode : R) (deps : Finset X)

/-- What a relocation evaluates to: nothing, an XLink, or the root XLink of a tree. -/
inductive RelocatedTo (X : Type) where
  | nothing
  | xlink (xlink : X)
  | rootOf (treeOrdinal : Nat)

section

variable {X R T : Type} [LinearOrder X] [DecidableEq R]

/-- `TryGetDEInfo`. -/
def RelocatingQueryResult.tryGetDEInfo :
    RelocatingQueryResult X R → Option (InducedAndDeps X R)
  | .induced root deps => some ⟨root, deps⟩
  | _ => none

/-- `GetDomainExtension`, of a query that returns `result`, or throws a mismatch and so
is `invalid`. -/
def getDomainExtension (mmax : X) (runRelocatingQuery : X → RelocatingQueryResult X R)
    (stimulus : X) : Option (InducedAndDeps X R) :=
  if stimulus = mmax then none else (runRelocatingQuery stimulus).tryGetDEInfo

/-- `RelocateOperator::Evaluate`, on a unique stimulus. -/
def evaluate (c : DomainExtensionChannel X R)
    (runRelocatingQuery : X → RelocatingQueryResult X R) (stimulus : X) :
    Option (RelocatedTo X) :=
  match runRelocatingQuery stimulus with
  | .induced root _ => (c.getUniqueDomainExtension stimulus root).map .rootOf
  | .xTree xlink => some (.xlink xlink)
  | .invalid => some .nothing

/-- On a well-formed channel, the lookup succeeds exactly when the root it is asked for
is the one recorded for the stimulus. -/
theorem getUniqueDomainExtension_isSome {c : DomainExtensionChannel X R} (h : c.WF) (x : X)
    (root : R) :
    (c.getUniqueDomainExtension x root).isSome
      ↔ ∃ info, c.stimulusToInducedRootAndDeps.lookup x = some info
        ∧ info.inducedRoot = root := by
  unfold DomainExtensionChannel.getUniqueDomainExtension
  rw [Option.isSome_iff_exists]
  constructor
  · intro hsome
    obtain ⟨ord, hord⟩ := hsome
    simp only [ASSERT_bind_eq_some] at hord
    obtain ⟨_, _, hord⟩ := hord
    obtain ⟨info, hinfo, hord⟩ := Option.bind_eq_some_iff.mp hord
    rw [ASSERT_bind_eq_some] at hord
    exact ⟨info, hinfo, hord.1⟩
  · intro hrec
    obtain ⟨info, hinfo, rfl⟩ := hrec
    -- on a well-formed channel the root recorded has a class, and that an ordinal
    have hroot := h.rooted x info hinfo
    obtain ⟨cls, hcls⟩ := StdMap.exists_of_mem_keys hroot
    obtain ⟨ord, hord⟩ := Option.isSome_iff_exists.mp (h.counted _ cls hcls).2.2
    refine ⟨ord, ?_⟩
    simp only [ASSERT_bind_eq_some]
    refine ⟨hroot, StdMap.mem_keys_of_lookup hinfo, ?_⟩
    rw [hinfo]
    show (ASSERT (info.inducedRoot = info.inducedRoot) >>= _) = some ord
    rw [ASSERT_bind_eq_some]
    refine ⟨rfl, ?_⟩
    rw [hcls]
    exact hord

/-- The node that a query induces. -/
def RelocatingQueryResult.inducedRoot : RelocatingQueryResult X R → Option R
  | .induced root _ => some root
  | _ => none

omit [LinearOrder X] [DecidableEq R] in
theorem inducedRoot_eq_some {result : RelocatingQueryResult X R} {root : R} :
    result.inducedRoot = some root ↔ ∃ deps, result = .induced root deps := by
  cases result with
  | induced root' deps =>
      constructor
      · intro h
        cases h
        exact ⟨deps, rfl⟩
      · rintro ⟨_, h⟩
        cases h
        rfl
  | invalid =>
      constructor
      · intro h
        cases h
      · rintro ⟨_, h⟩
        cases h
  | xTree _ =>
      constructor
      · intro h
        cases h
      · rintro ⟨_, h⟩
        cases h

end

/-! ## §2. Runs. -/

section

variable {X R T : Type} [LinearOrder X] [DecidableEq R]

/-- A channel's world, and the trees around it. -/
structure SearchWorld (X R T : Type) where
  world : World X R
  trees : T

/-- A check gets what the extender returns. -/
def Asks (getInfo : X → Option (InducedAndDeps X R)) : Label X R → Prop
  | .check x info _ => info = getInfo x
  | _ => True

/-- **The runs** of a channel whose extender's result depends on the trees only, and whose
every step, with the trees that it leaves, meets `Cond`. -/
inductive SearchReachable (mmax : X) (runRelocatingQuery : T → X → RelocatingQueryResult X R)
    (Cond : SearchWorld X R T → Label X R → T → Prop) : SearchWorld X R T → Prop
  | start (trees : T) : SearchReachable mmax runRelocatingQuery Cond ⟨World.start, trees⟩
  | step {s : SearchWorld X R T} {w' : World X R} (l : Label X R) (trees' : T) :
      SearchReachable mmax runRelocatingQuery Cond s → s.world.Enabled l →
      Asks (getDomainExtension mmax (runRelocatingQuery s.trees)) l → Cond s l trees' →
      s.world.exec l = some w' → SearchReachable mmax runRelocatingQuery Cond ⟨w', trees'⟩

/-- Every run. -/
def AnyChange : SearchWorld X R T → Label X R → T → Prop := fun _ _ _ => True

instance (s : SearchWorld X R T) (l : Label X R) (trees' : T) :
    Decidable (AnyChange s l trees') :=
  inferInstanceAs (Decidable True)

deriving instance DecidableEq for InducedAndDeps

instance (getInfo : X → Option (InducedAndDeps X R)) (l : Label X R) :
    Decidable (Asks getInfo l) :=
  match l with
  | .check x info _ => inferInstanceAs (Decidable (info = getInfo x))
  | .insertAction _ | .deleteAction _ | .otherTrees _ | .beginEndOfUpdate
  | .finishEndOfUpdate _ | .beginEndOfStep | .teardown .. | .finishEndOfStep => .isTrue trivial

section

variable (mmax : X) (runRelocatingQuery : T → X → RelocatingQueryResult X R)
  (Cond : SearchWorld X R T → Label X R → T → Prop) [∀ s l trees', Decidable (Cond s l trees')]

/-- Run a list of labels, each with the trees that it leaves. -/
def searchRun : SearchWorld X R T → List (Label X R × T) → Option (SearchWorld X R T)
  | s, [] => some s
  | s, (l, trees') :: ls =>
      if s.world.Enabled l ∧ Asks (getDomainExtension mmax (runRelocatingQuery s.trees)) l
          ∧ Cond s l trees' then
        (s.world.exec l).bind (fun w' => searchRun ⟨w', trees'⟩ ls)
      else none

variable {mmax runRelocatingQuery Cond}

theorem SearchReachable.searchRun :
    ∀ (ls : List (Label X R × T)) {s s' : SearchWorld X R T},
      SearchReachable mmax runRelocatingQuery Cond s →
      Agents.searchRun mmax runRelocatingQuery Cond s ls = some s' →
      SearchReachable mmax runRelocatingQuery Cond s' := by
  intro ls
  induction ls with
  | nil =>
      intro s s' h hrun
      cases hrun
      exact h
  | cons l ls ih =>
      intro s s' h hrun
      rw [Agents.searchRun] at hrun
      split at hrun
      next hl =>
        rw [Option.bind_eq_some_iff] at hrun
        obtain ⟨w', hex, hrun⟩ := hrun
        exact ih (h.step l.1 l.2 hl.1 hl.2.1 hl.2.2 hex) hrun
      next => cases hrun

theorem SearchReachable.exists_of_run {P : SearchWorld X R T → Prop} [DecidablePred P]
    (trees : T) (ls : List (Label X R × T))
    (h : (Agents.searchRun mmax runRelocatingQuery Cond ⟨World.start, trees⟩ ls).any
      (fun s => decide (P s))) : ∃ s, SearchReachable mmax runRelocatingQuery Cond s ∧ P s := by
  rw [Option.any_eq_true] at h
  obtain ⟨s, hrun, hP⟩ := h
  exact ⟨s, SearchReachable.searchRun ls (.start trees) hrun, of_decide_eq_true hP⟩

end

variable {mmax : X} {runRelocatingQuery : T → X → RelocatingQueryResult X R}
  {Cond : SearchWorld X R T → Label X R → T → Prop}

theorem SearchReachable.world {s : SearchWorld X R T}
    (h : SearchReachable mmax runRelocatingQuery Cond s) :
    World.Reachable World.AnyStep s.world := by
  induction h with
  | start trees => exact .start
  | step l trees' _ hen _ _ hex ih => exact ih.step hen trivial hex

/-! ## §3. Changes that are rechecked. -/

/-- The check of the link is still to come: the link was inserted, or lost a dependency
recorded for it, and the loop has not come to it since. -/
def Awaits (w : World X R) (x : X) : Prop :=
  x ∈ w.channel.stimuliiToRecheck ∧ match w.phase with
    | .updating (some v) => v < x
    | _ => True

instance (w : World X R) (x : X) : Decidable (Awaits w x) := by
  unfold Awaits
  cases w.phase with
  | idle => infer_instance
  | updating visited => cases visited <;> infer_instance
  | stepping _ => infer_instance

/-- The links that a step deletes. -/
def deleted : Label X R → Finset X
  | .deleteAction x => {x}
  | .teardown _ xlinks => xlinks.toFinset
  | _ => ∅

/-- The link that a step checks. -/
def checkedBy : Label X R → Option X
  | .check x _ _ => some x
  | _ => none

/-- **What changes is rechecked.**  A step that changes what a live link induces is no check
of it, and comes while its check is still to come, or deletes a dependency recorded for it;
and the links of a new extension tree sort after the one being checked. -/
def ChangesRechecked (runRelocatingQuery : T → X → RelocatingQueryResult X R)
    (s : SearchWorld X R T) (l : Label X R) (trees' : T) : Prop :=
  s.world.NewLinksAhead l ∧ ∀ x ∈ s.world.alive \ deleted l,
    (runRelocatingQuery trees' x).inducedRoot ≠ none →
    (runRelocatingQuery trees' x).inducedRoot ≠ (runRelocatingQuery s.trees x).inducedRoot →
    (Awaits s.world x ∧ checkedBy l ≠ some x)
      ∨ ∃ d ∈ deleted l, s.world.channel.DependsOn x d

instance (s : SearchWorld X R T) (l : Label X R) (trees' : T) :
    Decidable (ChangesRechecked runRelocatingQuery s l trees') := by
  unfold ChangesRechecked
  infer_instance

/-- **The invariant**: what a live link induces is recorded for it, unless its check is still
to come. -/
def Fresh (mmax : X) (runRelocatingQuery : T → X → RelocatingQueryResult X R)
    (s : SearchWorld X R T) : Prop :=
  ∀ x ∈ s.world.alive, x ≠ mmax → ¬ Awaits s.world x → ∀ root,
    (runRelocatingQuery s.trees x).inducedRoot = some root →
    ∃ info, s.world.channel.stimulusToInducedRootAndDeps.lookup x = some info
      ∧ info.inducedRoot = root

/-- A link whose check was not to come before the step either, and of which the step neither
deletes a dependency nor checks it, keeps its record. -/
theorem Fresh.keeps {s : SearchWorld X R T} (h : Fresh mmax runRelocatingQuery s)
    {l : Label X R} {trees' : T} (hchanges : ChangesRechecked runRelocatingQuery s l trees')
    {c' : DomainExtensionChannel X R} {x : X} (halive : x ∈ s.world.alive) (hmmax : x ≠ mmax)
    (hlive : x ∉ deleted l) (hawaits : ¬ Awaits s.world x)
    (hdeps : ∀ d ∈ deleted l, ¬ s.world.channel.DependsOn x d)
    (hsame : c'.stimulusToInducedRootAndDeps.lookup x
      = s.world.channel.stimulusToInducedRootAndDeps.lookup x) {root : R}
    (hroot : (runRelocatingQuery trees' x).inducedRoot = some root) :
    ∃ info, c'.stimulusToInducedRootAndDeps.lookup x = some info ∧ info.inducedRoot = root := by
  rw [hsame]
  refine h x halive hmmax hawaits root ?_
  by_contra hne
  rcases hchanges.2 x (Finset.mem_sdiff.mpr ⟨halive, hlive⟩) (by simp [hroot])
    (by rw [hroot]; exact Ne.symm hne) with ⟨hin, _⟩ | ⟨d, hd, hdep⟩
  · exact hawaits hin
  · exact hdeps d hd hdep

/-- Links deleted, outside the update loop. -/
theorem Fresh.delete {s : SearchWorld X R T} (h : Fresh mmax runRelocatingQuery s)
    {l : Label X R} {trees' : T} (hchanges : ChangesRechecked runRelocatingQuery s l trees')
    {w' : World X R} (hphase : ∀ v, w'.phase ≠ .updating v) (gone : List X)
    (hgone : ∀ x, x ∈ deleted l ↔ x ∈ gone)
    (hdrops : s.world.channel.Drops w'.channel
      (fun y => y ∈ gone ∨ ∃ x ∈ gone, s.world.channel.DependsOn y x))
    (hrecheck : ∀ y, y ∈ w'.channel.stimuliiToRecheck ↔ y ∉ gone ∧
      (y ∈ s.world.channel.stimuliiToRecheck ∨ ∃ x ∈ gone, s.world.channel.DependsOn y x))
    (halive' : ∀ y ∈ w'.alive, y ∈ s.world.alive ∧ y ∉ gone) :
    Fresh mmax runRelocatingQuery ⟨w', trees'⟩ := by
  intro x hx hmmax hawaits root hroot
  obtain ⟨halive, hlive⟩ := halive' x hx
  have hout : x ∉ w'.channel.stimuliiToRecheck := by
    intro hin
    refine hawaits ⟨hin, ?_⟩
    cases hp : w'.phase with
    | updating v => exact absurd hp (hphase v)
    | idle => trivial
    | stepping _ => trivial
  have hdeps : ¬ ∃ d ∈ gone, s.world.channel.DependsOn x d := fun hdep =>
    hout ((hrecheck x).mpr ⟨hlive, Or.inr hdep⟩)
  refine h.keeps hchanges halive hmmax (fun hin => hlive ((hgone x).mp hin)) ?_ ?_ ?_ hroot
  · intro hin
    exact hout ((hrecheck x).mpr ⟨hlive, Or.inl hin.1⟩)
  · intro d hd hdep
    exact hdeps ⟨d, (hgone d).mp hd, hdep⟩
  · exact hdrops.stays x (not_or.mpr ⟨hlive, hdeps⟩)

/-- A step that deletes no link, makes none and leaves the records, and after which what awaited
its check still does. -/
theorem Fresh.quiet {s : SearchWorld X R T} (h : Fresh mmax runRelocatingQuery s)
    {l : Label X R} {trees' : T} (hchanges : ChangesRechecked runRelocatingQuery s l trees')
    (hdeleted : deleted l = ∅) {w' : World X R} (halive : w'.alive = s.world.alive)
    (hsame : w'.channel.stimulusToInducedRootAndDeps
      = s.world.channel.stimulusToInducedRootAndDeps)
    (hawaits : ∀ x, Awaits s.world x → Awaits w' x) :
    Fresh mmax runRelocatingQuery ⟨w', trees'⟩ := by
  intro x hx hmmax hnot root hroot
  have hin : x ∈ s.world.alive := halive ▸ hx
  refine h.keeps hchanges hin hmmax ?_ (fun hin => hnot (hawaits x hin)) ?_ (by rw [hsame]) hroot
  · rw [hdeleted]
    exact Finset.notMem_empty x
  · intro d hd
    rw [hdeleted] at hd
    exact absurd hd (Finset.notMem_empty d)

/-- **A check**: of the link itself, of the links built for it, and of the others. -/
theorem Fresh.check {s : SearchWorld X R T} (h : Fresh mmax runRelocatingQuery s)
    (hinv : s.world.Inv) {y : X} {info : Option (InducedAndDeps X R)} {built : BuiltTree X}
    (hen : s.world.Enabled (.check y info built))
    (hasks : info = getDomainExtension mmax (runRelocatingQuery s.trees) y) {trees' : T}
    (hchanges : ChangesRechecked runRelocatingQuery s (.check y info built) trees')
    {w' : World X R} (hex : s.world.exec (.check y info built) = some w') :
    Fresh mmax runRelocatingQuery ⟨w', trees'⟩ := by
  obtain ⟨c', visited, hphase, hnext, hex', _, hspec⟩ := hinv.exec_check hen
  rw [hex'] at hex
  cases hex
  intro x hx hmmax hawaits root hroot
  have hout : x ∈ c'.stimuliiToRecheck → ¬ y < x := fun hin hlt => hawaits ⟨hin, hlt⟩
  -- a link just built sorts after the one being checked, and its check is to come
  have halive : x ∈ s.world.alive := by
    have hx : x ∈ if s.world.channel.needsTree info then _ else _ := hx
    split at hx
    next hneeds =>
      rcases Finset.mem_union.mp hx with hx | hx
      · exact hx
      · rw [List.mem_toFinset] at hx
        exact absurd (hchanges.1 hneeds x hx)
          (hout ((hspec.recheck x).mpr (Or.inr ⟨hneeds, hx⟩)))
    next => exact hx
  show ∃ i, c'.stimulusToInducedRootAndDeps.lookup x = some i ∧ _
  by_cases hxy : x = y
  · -- the check got what the link still induces
    subst hxy
    have hsame : (runRelocatingQuery s.trees x).inducedRoot = some root := by
      by_contra hne
      rcases hchanges.2 x (Finset.mem_sdiff.mpr ⟨halive, Finset.notMem_empty x⟩)
        (by simp [hroot]) (by rw [hroot]; exact Ne.symm hne) with ⟨_, hno⟩ | ⟨d, hd, _⟩
      · exact hno rfl
      · exact absurd hd (Finset.notMem_empty d)
    obtain ⟨deps, hquery⟩ := inducedRoot_eq_some.mp hsame
    have hinfo : info = some ⟨root, deps⟩ := by
      rw [hasks]
      unfold getDomainExtension
      rw [if_neg hmmax, hquery]
      rfl
    refine ⟨⟨root, deps⟩, ?_, rfl⟩
    rw [hspec.stimulii, hinfo]
    exact if_pos ⟨rfl, rfl⟩
  · refine h.keeps hchanges halive hmmax (Finset.notMem_empty x) ?_ (by simp [deleted]) ?_ hroot
    · -- the loop passes over nothing that awaits its check
      rintro ⟨hin, hv⟩
      refine hout ((hspec.recheck x).mpr (Or.inl hin)) ?_
      refine lt_of_le_of_ne (nextAfter_least hnext hin ?_) (Ne.symm hxy)
      intro v hvis
      rw [Option.mem_def] at hvis
      rw [hphase, hvis] at hv
      exact hv
    · rw [hspec.stimulii, if_neg (fun hc => hxy hc.1)]

/-- **Every step whose changes are rechecked keeps the invariant.** -/
theorem Fresh.exec {s : SearchWorld X R T} (h : Fresh mmax runRelocatingQuery s)
    (hinv : s.world.Inv) {l : Label X R} (hen : s.world.Enabled l)
    (hasks : Asks (getDomainExtension mmax (runRelocatingQuery s.trees)) l) {trees' : T}
    (hchanges : ChangesRechecked runRelocatingQuery s l trees') {w' : World X R}
    (hex : s.world.exec l = some w') : Fresh mmax runRelocatingQuery ⟨w', trees'⟩ := by
  -- one case per label; what is not rechecked has kept its query result
  cases l with
  -- an inserted link awaits its check, and the others keep their records
  | insertAction y =>
      have hidle : s.world.phase = .idle := hen.1
      rw [hinv.exec_insertAction hen] at hex
      cases hex
      intro x hx hmmax hawaits root hroot
      have hout : x ∉ insert y s.world.channel.stimuliiToRecheck := fun hin =>
        hawaits ⟨hin, by simp [hidle]⟩
      rw [Finset.mem_insert, not_or] at hout
      exact h.keeps hchanges ((Finset.mem_insert.mp hx).resolve_left hout.1) hmmax
        (Finset.notMem_empty x) (fun hin => hout.2 hin.1) (by simp [deleted]) rfl hroot
  -- who depended on a deleted link awaits a recheck
  | deleteAction y =>
      have hidle : s.world.phase = .idle := hen.1
      obtain ⟨c', hex', _, hdrops, hre⟩ := hinv.exec_deleteAction hen
      rw [hex'] at hex
      cases hex
      refine h.delete hchanges (by simp [hidle]) [y] ?_ ?_ ?_ ?_
      · intro x
        simp [deleted]
      · simpa using hdrops
      · simpa using hre
      · intro x hx
        obtain ⟨hne, hx⟩ := Finset.mem_erase.mp hx
        exact ⟨hx, by simpa using hne⟩
  | otherTrees trees =>
      cases hex
      exact h.quiet hchanges rfl rfl rfl fun _ hin => hin
  | beginEndOfUpdate =>
      cases hex
      exact h.quiet hchanges rfl rfl rfl fun _ hin => ⟨hin.1, trivial⟩
  | check y info built => exact h.check hinv hen hasks hchanges hex
  | finishEndOfUpdate n =>
      obtain ⟨⟨visited, hphase, hnone⟩, hex'⟩ := hinv.exec_finishEndOfUpdate hen
      rw [hex'] at hex
      cases hex
      refine h.quiet hchanges rfl rfl rfl ?_
      -- the loop has come to all of them
      rintro x ⟨hin, hv⟩
      obtain ⟨v, hvis, hle⟩ := nextAfter_eq_none hnone hin
      rw [Option.mem_def] at hvis
      rw [hphase, hvis] at hv
      exact absurd hv (not_lt.mpr hle)
  | beginEndOfStep =>
      cases hex
      exact h.quiet hchanges rfl rfl rfl fun _ hin => ⟨hin.1, trivial⟩
  -- a teardown deletes as `DeleteAction` does
  | teardown ord xlinks =>
      obtain ⟨c', visited, hphase, _, hex', _, hdrops, hre⟩ := hinv.exec_teardown hen
      rw [hex'] at hex
      cases hex
      refine h.delete hchanges (by simp) xlinks ?_ hdrops hre ?_
      · intro x
        exact List.mem_toFinset
      · intro x hx
        obtain ⟨hx, hout⟩ := Finset.mem_sdiff.mp hx
        exact ⟨hx, fun hin => hout (List.mem_toFinset.mpr hin)⟩
  | finishEndOfStep =>
      cases hex
      exact h.quiet hchanges rfl rfl rfl fun _ hin => ⟨hin.1, trivial⟩

/-- **The invariant holds in every run whose changes are rechecked.** -/
theorem SearchReachable.fresh {s : SearchWorld X R T}
    (h : SearchReachable mmax runRelocatingQuery (ChangesRechecked runRelocatingQuery) s) :
    Fresh mmax runRelocatingQuery s := by
  induction h with
  | start trees =>
      intro x hx
      exact absurd hx (Finset.notMem_empty x)
  | step l trees' hs hen hasks hchanges hex ih =>
      exact ih.exec hs.world.inv hen hasks hchanges hex

/-! ## §4. The search finds its extension. -/

/-- What the search wants of the channel: the XLink is a recorded stimulus, with the root
just induced, and no assertion fires. -/
def FreshAt (c : DomainExtensionChannel X R) (runRelocatingQuery : X → RelocatingQueryResult X R)
    (x : X) (root : R) : Prop :=
  (∃ info, c.stimulusToInducedRootAndDeps.lookup x = some info ∧ info.inducedRoot = root)
    ∧ (evaluate c runRelocatingQuery x).isSome

end

/-- A stimulus `5` that induces the node `0` while the trees have a declaration for it. -/
def declared : Bool → ℕ → RelocatingQueryResult ℕ ℕ
  | true, 5 => .induced 0 {5, 6}
  | _, _ => .invalid

end Inferno.Agents
