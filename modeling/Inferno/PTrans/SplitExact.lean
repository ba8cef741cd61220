/-
  Inferno.PTrans.SplitExact
  ─────────────────────────
  The whole transformation that makes disjunctions binary, and what the patterns match.

    • `IsPattern`       — a pattern graph, with its roots,
    • `Transformed`     — what the loop over the nodes has done,
    • `Matches`         — what a pattern matches, for any meaning of the other agents,
    • `splitDisjunctions_correct` — every disjunction ends with two disjuncts, over a tree
                          with its disjuncts as leaves, and matches what it matched.
-/
import Inferno.PTrans.SplitDisjunctions

namespace Inferno.PTrans

open Inferno.Common Inferno.Lib

variable {A : Type} {h h₁ h' : PatternHeap A} {roots nodes done : List Nat}

/-! ## §1. Pattern graphs. -/

/-- The nodes of the patterns below the roots. -/
inductive Reachable (h : PatternHeap A) (roots : List Nat) : Nat → Prop where
  | root {n : Nat} (hn : n ∈ roots) : Reachable h roots n
  | child {n c : Nat} (hn : Reachable h roots n) (hc : c ∈ (h.node n).children) :
      Reachable h roots c

/-- **A pattern graph**: acyclic, with nodes shared in any way, and in memory; a disjunction
has at least two disjuncts. -/
structure IsPattern (h : PatternHeap A) (roots : List Nat) : Prop where
  acyclic : WellFounded fun child parent => child ∈ (h.node parent).children
  inMemory : ∀ n, Reachable h roots n → n < h.next
  two : ∀ n pre disjuncts, Reachable h roots n → h.node n = .disjunction pre disjuncts →
    2 ≤ disjuncts.length

/-- **A disjunction over a tree**: two disjuncts, and the leaves below them in order. -/
def HasLeaves (h' : PatternHeap A) (bound n : Nat) (pre : A) (leaves : List Nat) : Prop :=
  ∃ a b l r, h'.node n = .disjunction pre [a, b] ∧ DisjunctionTree h' bound pre a l
    ∧ DisjunctionTree h' bound pre b r ∧ l ++ r = leaves

/-! ## §2. The loop over the nodes. -/

/-- **What the loop has done**: the disjunctions among the nodes done have been split, the
other nodes there were are as they were, and the new nodes are binary disjunctions. -/
structure Transformed (h h' : PatternHeap A) (done : List Nat) : Prop where
  next_le : h.next ≤ h'.next
  todo : ∀ n < h.next, n ∉ done → h'.node n = h.node n
  other : ∀ n < h.next, (∀ pre disjuncts, h.node n ≠ .disjunction pre disjuncts) →
    h'.node n = h.node n
  split : ∀ n ∈ done, ∀ pre disjuncts, h.node n = .disjunction pre disjuncts →
    HasLeaves h' h.next n pre disjuncts
  fresh : ∀ n, h.next ≤ n → n < h'.next → ∃ pre a b, h'.node n = .disjunction pre [a, b]

theorem Transformed.nil (h : PatternHeap A) : Transformed h h [] where
  next_le := le_refl _
  todo _ _ _ := rfl
  other _ _ _ := rfl
  split n hn := by cases hn
  fresh n hle hlt := by omega

/-- A node that is no disjunction is left alone. -/
theorem Transformed.skip (ht : Transformed h h₁ done) {n : Nat} {children : List Nat}
    (hn : h.node n = .other children) : Transformed h h₁ (n :: done) where
  next_le := ht.next_le
  todo := by
    intro m hm hnot
    exact ht.todo m hm fun hmem => hnot (List.mem_cons_of_mem n hmem)
  other := ht.other
  split := by
    intro m hm pre disjuncts hnode
    rcases List.mem_cons.mp hm with rfl | hm
    · rw [hn] at hnode
      cases hnode
    · exact ht.split m hm pre disjuncts hnode
  fresh := ht.fresh

/-- A disjunction is split. -/
theorem Transformed.step (ht : Transformed h h₁ done) {n : Nat} {pre : A}
    {disjuncts : List Nat} (hdone : ∀ m ∈ done, m < h.next)
    (hn : h.node n = .disjunction pre disjuncts)
    (hnew : n ∉ done) (hlt : n < h.next) (hold : ∀ c ∈ disjuncts, c < h.next)
    (hs : IsSplit h₁ h' n pre disjuncts) : Transformed h h' (n :: done) where
  next_le := ht.next_le.trans hs.next_le
  todo := by
    intro m hm hnot
    rw [List.mem_cons, not_or] at hnot
    rw [hs.keep m (hm.trans_le ht.next_le) hnot.1, ht.todo m hm hnot.2]
  other := by
    intro m hm hother
    have hne : m ≠ n := by
      rintro rfl
      exact hother pre disjuncts hn
    rw [hs.keep m (hm.trans_le ht.next_le) hne, ht.other m hm hother]
  split := by
    intro m hm pre' disjuncts' hnode
    rcases List.mem_cons.mp hm with rfl | hm
    · obtain ⟨a, b, l, r, hpair, ha, hb, hlr⟩ := hs.pair
      rw [hn] at hnode
      cases hnode
      rw [← hlr] at hold
      refine ⟨a, b, l, r, hpair, ha.rebound ht.next_le ?_, hb.rebound ht.next_le ?_, hlr⟩
      · exact fun c hc => hold c (List.mem_append_left _ hc)
      · exact fun c hc => hold c (List.mem_append_right _ hc)
    · -- what was split before stays
      obtain ⟨a, b, l, r, hpair, ha, hb, hlr⟩ := ht.split m hm pre' disjuncts' hnode
      have hkeep : ∀ k, h.next ≤ k → k < h₁.next → h'.node k = h₁.node k := by
        intro k hle hk
        exact hs.keep k hk (by omega)
      have hne : m ≠ n := fun heq => hnew (heq ▸ hm)
      have hm₁ : m < h₁.next := (hdone m hm).trans_le ht.next_le
      exact ⟨a, b, l, r, (hs.keep m hm₁ hne).trans hpair, ha.mono hs.next_le hkeep,
        hb.mono hs.next_le hkeep, hlr⟩
  fresh := by
    intro m hle hm
    by_cases hm₁ : m < h₁.next
    · obtain ⟨pre', a, b, hpair⟩ := ht.fresh m hle hm₁
      exact ⟨pre', a, b, (hs.keep m hm₁ (by omega)).trans hpair⟩
    · obtain ⟨a, b, hpair⟩ := hs.fresh m (Nat.le_of_not_lt hm₁) hm
      exact ⟨pre, a, b, hpair⟩

/-- **The loop returns**, and splits every disjunction among the nodes. -/
theorem doPatternTransformation_spec (fuel : Nat) (nodes : List Nat) : ∀ {done : List Nat}
    {h₁ : PatternHeap A}, Transformed h h₁ done → (done ++ nodes).Nodup →
    (∀ n ∈ done ++ nodes, n < h.next) →
    (∀ n ∈ nodes, ∀ pre disjuncts, h.node n = .disjunction pre disjuncts →
      2 ≤ disjuncts.length ∧ disjuncts.length ≤ fuel ∧ ∀ c ∈ disjuncts, c < h.next) →
    ∃ h' done', doPatternTransformation fuel nodes h₁ = some h' ∧ Transformed h h' done'
      ∧ ∀ n, n ∈ done' ↔ n ∈ done ++ nodes := by
  induction nodes with
  | nil =>
      intro done h₁ ht _ _ _
      refine ⟨h₁, done, rfl, ht, fun n => ?_⟩
      rw [List.append_nil]
  | cons n nodes ih =>
      intro done h₁ ht hnodup hlt hdisjuncts
      rw [List.forall_mem_cons] at hdisjuncts
      -- the node of this turn joins those done
      have hperm : (done ++ n :: nodes).Perm ((n :: done) ++ nodes) := List.perm_middle
      have hnodup' : ((n :: done) ++ nodes).Nodup := hperm.nodup hnodup
      have hlt' : ∀ m ∈ (n :: done) ++ nodes, m < h.next :=
        fun m hm => hlt m (hperm.mem_iff.mpr hm)
      have hnew : n ∉ done := by
        intro hmem
        exact (List.nodup_cons.mp hnodup').1 (List.mem_append_left _ hmem)
      have hn : n < h.next := hlt' n List.mem_cons_self
      have hsame : h₁.node n = h.node n := ht.todo n hn hnew
      -- one turn, and then the rest
      obtain ⟨h₂, hrun, ht₂⟩ : ∃ h₂,
          doPatternTransformation fuel [n] h₁ = some h₂ ∧ Transformed h h₂ (n :: done) := by
        unfold doPatternTransformation
        rw [List.foldlM_cons]
        cases hnode : h.node n with
        | other children =>
            rw [hsame, hnode]
            exact ⟨h₁, rfl, ht.skip hnode⟩
        | disjunction pre disjuncts =>
            obtain ⟨htwo, hfuel, hold⟩ := hdisjuncts.1 pre disjuncts hnode
            have hnode₁ := hsame.trans hnode
            obtain ⟨h₂, hrun, hs⟩ := maybeSplit_spec fuel hnode₁ (hn.trans_le ht.next_le) htwo
              hfuel fun c hc => (hold c hc).trans_le ht.next_le
            rw [hnode₁]
            dsimp only
            rw [hrun]
            refine ⟨h₂, rfl, ht.step ?_ hnode hnew hn hold hs⟩
            exact fun m hm => hlt m (List.mem_append_left _ hm)
      obtain ⟨h', done', hrest, ht', hmem⟩ := ih ht₂ hnodup' hlt' hdisjuncts.2
      have hturn : doPatternTransformation fuel ([n] ++ nodes) h₁ = some h' := by
        unfold doPatternTransformation at hrun hrest ⊢
        rw [List.foldlM_append, hrun]
        exact hrest
      refine ⟨h', done', hturn, ht', fun m => ?_⟩
      rw [hmem m, hperm.mem_iff]

/-! ## §3. The disjunctions afterwards. -/

/-- A node of the patterns afterwards: one there was, or a new one over nodes there were. -/
theorem reachable_cases (ht : Transformed h h' done)
    (hdone : ∀ n, n ∈ done ↔ Reachable h roots n) (hpattern : IsPattern h roots) {n : Nat}
    (hn : Reachable h' roots n) : Reachable h roots n
      ∨ h.next ≤ n ∧ ∃ pre l, DisjunctionTree h' h.next pre n l ∧ ∀ c ∈ l, Reachable h roots c := by
  -- the root of a tree over nodes there were
  have htree : ∀ {a : Nat} {pre : A} {l : List Nat}, DisjunctionTree h' h.next pre a l →
      (∀ c ∈ l, Reachable h roots c) → Reachable h roots a
        ∨ h.next ≤ a ∧ ∃ pre l, DisjunctionTree h' h.next pre a l
          ∧ ∀ c ∈ l, Reachable h roots c := by
    intro a pre l ha hl
    cases ha with
    | leaf _ => exact .inl (hl a (List.mem_singleton_self a))
    | branch hle hlt hnode hb hc => exact .inr ⟨hle, pre, _, .branch hle hlt hnode hb hc, hl⟩
  induction hn with
  | root hn => exact .inl (.root hn)
  | @child n c hn hc ih =>
      rcases ih with hold | ⟨hle, pre, l, hnew, hl⟩
      · cases hnode : h.node n with
        | other children =>
            have hsame := ht.other n (hpattern.inMemory n hold) (by
              intro pre disjuncts heq
              rw [hnode] at heq
              cases heq)
            rw [hsame] at hc
            exact .inl (hold.child hc)
        | disjunction pre disjuncts =>
            obtain ⟨a, b, l, r, hpair, ha, hb, hlr⟩ :=
              ht.split n ((hdone n).mpr hold) pre disjuncts hnode
            have hleaf : ∀ c ∈ l ++ r, Reachable h roots c := by
              intro c hc
              refine hold.child ?_
              rw [hnode]
              exact hlr ▸ hc
            rw [hpair] at hc
            rcases List.mem_cons.mp hc with rfl | hc
            · exact htree ha fun d hd => hleaf d (List.mem_append_left _ hd)
            · obtain rfl := List.mem_singleton.mp hc
              exact htree hb fun d hd => hleaf d (List.mem_append_right _ hd)
      · cases hnew with
        | leaf hlt => omega
        | branch _ _ hnode ha hb =>
            rw [hnode] at hc
            rcases List.mem_cons.mp hc with rfl | hc
            · exact htree ha fun d hd => hl d (List.mem_append_left _ hd)
            · obtain rfl := List.mem_singleton.mp hc
              exact htree hb fun d hd => hl d (List.mem_append_right _ hd)

/-- **Every disjunction has two disjuncts** afterwards. -/
theorem two_disjuncts (ht : Transformed h h' done)
    (hdone : ∀ n, n ∈ done ↔ Reachable h roots n) (hpattern : IsPattern h roots) {n : Nat}
    {pre : A} {disjuncts : List Nat} (hn : Reachable h' roots n)
    (hnode : h'.node n = .disjunction pre disjuncts) : disjuncts.length = 2 := by
  rcases reachable_cases ht hdone hpattern hn with hold | ⟨hle, pre', l, hnew, _⟩
  · cases hold₀ : h.node n with
    | other children =>
        have hsame := ht.other n (hpattern.inMemory n hold) (by
          intro pre disjuncts heq
          rw [hold₀] at heq
          cases heq)
        rw [hsame, hold₀] at hnode
        cases hnode
    | disjunction pre₀ disjuncts₀ =>
        obtain ⟨a, b, _, _, hpair, _⟩ := ht.split n ((hdone n).mpr hold) pre₀ disjuncts₀ hold₀
        rw [hpair] at hnode
        cases hnode
        rfl
  · cases hnew with
    | leaf hlt => omega
    | branch _ _ hpair _ _ =>
        rw [hpair] at hnode
        cases hnode
        rfl

/-! ## §4. What the patterns match. -/

section

variable {X : Type} (accepts : A → X → Prop) (other : Nat → (Nat → X → Prop) → X → Prop)

/-- **What a pattern matches**, to a depth.  A disjunction matches what its pre-restriction
accepts and one of its disjuncts matches; what another agent matches is given by `other`, from
what its children match.  What is matched may be a link along with an assignment of couplings,
so nothing is assumed of it. -/
def Matches (h : PatternHeap A) : Nat → Nat → X → Prop
  | 0, _, _ => False
  | depth + 1, n, x =>
      match h.node n with
      | .disjunction pre disjuncts => accepts pre x ∧ ∃ c ∈ disjuncts, Matches h depth c x
      | .other _ => other n (Matches h depth) x

/-- What another agent matches depends on what its children match. -/
def DependsOnChildren (h : PatternHeap A) : Prop :=
  ∀ n children, h.node n = .other children → ∀ M M' : Nat → X → Prop,
    (∀ c ∈ children, ∀ x, M c x ↔ M' c x) → ∀ x, other n M x ↔ other n M' x

/-- A pattern matches the same before and after, to any depth that is enough. -/
def SameMatches (h h' : PatternHeap A) (n : Nat) : Prop :=
  ∃ enough, ∀ d ≥ enough, ∀ d' ≥ enough, ∀ x,
    Matches accepts other h d n x ↔ Matches accepts other h' d' n x

end

variable {X : Type} {accepts : A → X → Prop} {other : Nat → (Nat → X → Prop) → X → Prop}

/-- One depth is enough for a list of patterns. -/
theorem sameMatches_all {l : List Nat} (hl : ∀ c ∈ l, SameMatches accepts other h h' c) :
    ∃ enough, ∀ c ∈ l, ∀ d ≥ enough, ∀ d' ≥ enough, ∀ x,
      Matches accepts other h d c x ↔ Matches accepts other h' d' c x := by
  induction l with
  | nil => exact ⟨0, fun c hc => by cases hc⟩
  | cons c l ih =>
      rw [List.forall_mem_cons] at hl
      obtain ⟨d₁, hc⟩ := hl.1
      obtain ⟨d₂, hrest⟩ := ih hl.2
      refine ⟨max d₁ d₂, ?_⟩
      rw [List.forall_mem_cons]
      refine ⟨fun d hd d' hd' => ?_, fun c' hc' d hd d' hd' => ?_⟩
      · exact hc d ((le_max_left _ _).trans hd) d' ((le_max_left _ _).trans hd')
      · exact hrest c' hc' d ((le_max_right _ _).trans hd) d' ((le_max_right _ _).trans hd')

/-- **A tree of disjunctions matches what one of its leaves matches**, of what the
pre-restriction accepts. -/
theorem DisjunctionTree.matches {bound n : Nat} {pre : A} {l : List Nat}
    (ht : DisjunctionTree h' bound pre n l) {enough : Nat} {P : Nat → X → Prop}
    (hl : ∀ c ∈ l, ∀ d ≥ enough, ∀ x, Matches accepts other h' d c x ↔ P c x) :
    ∃ enough', ∀ d ≥ enough', ∀ x, accepts pre x →
      (Matches accepts other h' d n x ↔ ∃ c ∈ l, P c x) := by
  induction ht with
  | @leaf n _ =>
      refine ⟨enough, fun d hd x _ => ?_⟩
      rw [hl n (List.mem_singleton_self n) d hd x]
      simp
  -- a disjunction of two: the leaves of one half or of the other
  | @branch n a b l r _ _ hnode _ _ iha ihb =>
      obtain ⟨da, ha⟩ := iha fun c hc => hl c (List.mem_append_left _ hc)
      obtain ⟨db, hb⟩ := ihb fun c hc => hl c (List.mem_append_right _ hc)
      refine ⟨max da db + 1, ?_⟩
      intro d hd x hx
      obtain ⟨d, rfl⟩ : ∃ k, d = k + 1 := ⟨d - 1, by omega⟩
      have hda : d ≥ da := by omega
      have hdb : d ≥ db := by omega
      unfold Matches
      rw [hnode]
      show (accepts pre x ∧ ∃ c ∈ [a, b], Matches accepts other h' d c x) ↔ _
      constructor
      · rintro ⟨_, c, hc, hmatch⟩
        rcases List.mem_cons.mp hc with rfl | hc
        · obtain ⟨c', hc', hP⟩ := (ha d hda x hx).mp hmatch
          exact ⟨c', List.mem_append_left _ hc', hP⟩
        · obtain rfl := List.mem_singleton.mp hc
          obtain ⟨c', hc', hP⟩ := (hb d hdb x hx).mp hmatch
          exact ⟨c', List.mem_append_right _ hc', hP⟩
      · rintro ⟨c, hc, hP⟩
        refine ⟨hx, ?_⟩
        rcases List.mem_append.mp hc with hc | hc
        · exact ⟨a, List.mem_cons_self, (ha d hda x hx).mpr ⟨c, hc, hP⟩⟩
        · exact ⟨b, by simp, (hb d hdb x hx).mpr ⟨c, hc, hP⟩⟩

/-- **The set of matches is unchanged**, of every node there was. -/
theorem sameMatches (ht : Transformed h h' done)
    (hdone : ∀ n, n ∈ done ↔ Reachable h roots n) (hpattern : IsPattern h roots)
    (hother : DependsOnChildren other h) (n : Nat) :
    Reachable h roots n → SameMatches accepts other h h' n := by
  induction n using hpattern.acyclic.induction with | _ n ih => ?_
  intro hn
  -- by induction over the graph: each child has the matches it had
  have hchildren : ∀ c ∈ (h.node n).children, SameMatches accepts other h h' c :=
    fun c hc => ih c hc (hn.child hc)
  obtain ⟨enough, hsame⟩ := sameMatches_all hchildren
  cases hnode : h.node n with
  | other children =>
      -- another agent is as it was, and depends on its children's matches alone
      have hkeep := ht.other n (hpattern.inMemory n hn) (by
        intro pre disjuncts heq
        rw [hnode] at heq
        cases heq)
      rw [hnode] at hsame
      refine ⟨enough + 1, ?_⟩
      intro d hd d' hd' x
      obtain ⟨d, rfl⟩ : ∃ k, d = k + 1 := ⟨d - 1, by omega⟩
      obtain ⟨d', rfl⟩ : ∃ k, d' = k + 1 := ⟨d' - 1, by omega⟩
      unfold Matches
      rw [hkeep, hnode]
      refine hother n children hnode _ _ ?_ x
      intro c hc x
      exact hsame c hc d (by omega) d' (by omega) x
  | disjunction pre disjuncts =>
      obtain ⟨a, b, l, r, hpair, ha, hb, hlr⟩ := ht.split n ((hdone n).mpr hn) pre disjuncts hnode
      rw [hnode] at hsame
      -- the leaves of the two halves are the old disjuncts
      have hleaf : ∀ c ∈ l ++ r, ∀ d ≥ enough, ∀ x,
          Matches accepts other h' d c x ↔ Matches accepts other h enough c x := by
        intro c hc d hd x
        exact (hsame c (hlr ▸ hc) enough (le_refl _) d hd x).symm
      obtain ⟨da, ha⟩ := ha.matches fun c hc => hleaf c (List.mem_append_left _ hc)
      obtain ⟨db, hb⟩ := hb.matches fun c hc => hleaf c (List.mem_append_right _ hc)
      refine ⟨max enough (max da db) + 1, ?_⟩
      intro d hd d' hd' x
      obtain ⟨d, rfl⟩ : ∃ k, d = k + 1 := ⟨d - 1, by omega⟩
      obtain ⟨d', rfl⟩ : ∃ k, d' = k + 1 := ⟨d' - 1, by omega⟩
      have hda : d' ≥ da := by omega
      have hdb : d' ≥ db := by omega
      -- before, one of the disjuncts matches
      have hbefore : ∀ c ∈ disjuncts, (Matches accepts other h d c x
          ↔ Matches accepts other h enough c x) := by
        intro c hc
        rw [hsame c hc d (by omega) enough (le_refl _) x,
          hsame c hc enough (le_refl _) enough (le_refl _) x]
      unfold Matches
      rw [hnode, hpair]
      show (accepts pre x ∧ ∃ c ∈ disjuncts, Matches accepts other h d c x)
        ↔ (accepts pre x ∧ ∃ c ∈ [a, b], Matches accepts other h' d' c x)
      refine and_congr_right fun hx => ?_
      constructor
      · rintro ⟨c, hc, hmatch⟩
        have hP := (hbefore c hc).mp hmatch
        rcases List.mem_append.mp (hlr ▸ hc) with hc | hc
        · exact ⟨a, List.mem_cons_self, (ha d' hda x hx).mpr ⟨c, hc, hP⟩⟩
        · exact ⟨b, by simp, (hb d' hdb x hx).mpr ⟨c, hc, hP⟩⟩
      · -- after, one of the two halves does, and so one of its leaves
        rintro ⟨c, hc, hmatch⟩
        have hfound : ∃ c ∈ l ++ r, Matches accepts other h enough c x := by
          rcases List.mem_cons.mp hc with rfl | hc
          · obtain ⟨c', hc', hP⟩ := (ha d' hda x hx).mp hmatch
            exact ⟨c', List.mem_append_left _ hc', hP⟩
          · obtain rfl := List.mem_singleton.mp hc
            obtain ⟨c', hc', hP⟩ := (hb d' hdb x hx).mp hmatch
            exact ⟨c', List.mem_append_right _ hc', hP⟩
        obtain ⟨c', hc', hP⟩ := hfound
        rw [hlr] at hc'
        exact ⟨c', hc', (hbefore c' hc').mpr hP⟩

/-! ## §5. The whole transformation. -/

/-- Enough fuel for a list of nodes. -/
theorem exists_fuel (h : PatternHeap A) (nodes : List Nat) :
    ∃ fuel, ∀ n ∈ nodes, (h.node n).children.length ≤ fuel := by
  induction nodes with
  | nil => exact ⟨0, fun n hn => by cases hn⟩
  | cons n nodes ih =>
      obtain ⟨fuel, hfuel⟩ := ih
      refine ⟨max (h.node n).children.length fuel, ?_⟩
      rw [List.forall_mem_cons]
      exact ⟨le_max_left _ _, fun m hm => (hfuel m hm).trans (le_max_right _ _)⟩

/-- **Splitting gives binary disjunctions with the same meaning.**  Over the nodes of a
pattern graph, in any order, the transformation terminates; every disjunction below the roots
then has two disjuncts; below each disjunction there was is a tree of new ones, with its
disjuncts as leaves, each once and in order; other nodes are as they were; and every pattern
matches what it matched. -/
theorem splitDisjunctions_correct (h : PatternHeap A) (roots nodes : List Nat)
    (hpattern : IsPattern h roots) (hnodup : nodes.Nodup)
    (hnodes : ∀ n, n ∈ nodes ↔ Reachable h roots n) :
    ∃ fuel h', doPatternTransformation fuel nodes h = some h'
      ∧ (∀ n pre disjuncts, Reachable h' roots n → h'.node n = .disjunction pre disjuncts →
        disjuncts.length = 2)
      ∧ (∀ n pre disjuncts, Reachable h roots n → h.node n = .disjunction pre disjuncts →
        HasLeaves h' h.next n pre disjuncts)
      ∧ (∀ n children, Reachable h roots n → h.node n = .other children →
        h'.node n = .other children)
      ∧ ∀ (X : Type) (accepts : A → X → Prop) (other : Nat → (Nat → X → Prop) → X → Prop),
        DependsOnChildren other h → ∀ n, Reachable h roots n →
          SameMatches accepts other h h' n := by
  -- enough fuel for the longest of the disjunctions
  obtain ⟨fuel, hfuel⟩ := exists_fuel h nodes
  obtain ⟨h', done, hrun, ht, hmem⟩ := doPatternTransformation_spec fuel nodes
    (Transformed.nil h) hnodup
    (fun n hn => hpattern.inMemory n ((hnodes n).mp hn)) (by
      intro n hn pre disjuncts hnode
      have hreach := (hnodes n).mp hn
      have hlen := hfuel n hn
      rw [hnode] at hlen
      refine ⟨hpattern.two n pre disjuncts hreach hnode, hlen, ?_⟩
      intro c hc
      refine hpattern.inMemory c (hreach.child ?_)
      rw [hnode]
      exact hc)
  -- what is done is what was reachable
  have hdone : ∀ n, n ∈ done ↔ Reachable h roots n := fun n => (hmem n).trans (hnodes n)
  refine ⟨fuel, h', hrun, ?_, ?_, ?_, ?_⟩
  · intro n pre disjuncts hn hnode
    exact two_disjuncts ht hdone hpattern hn hnode
  · intro n pre disjuncts hn hnode
    exact ht.split n ((hdone n).mpr hn) pre disjuncts hnode
  · intro n children hn hnode
    rw [ht.other n (hpattern.inMemory n hn) (by
      intro pre disjuncts heq
      rw [hnode] at heq
      cases heq)]
    exact hnode
  · intro X accepts other hother n hn
    exact sameMatches ht hdone hpattern hother n hn

/-- An agent over a disjunction of three, one of them shared. -/
def sharedPattern : PatternHeap Unit where
  node n := if n = 0 then .other [1, 2] else if n = 1 then .disjunction () [2, 3, 4] else .other []
  next := 5

theorem sharedPattern_children {n c : Nat} (hc : c ∈ (sharedPattern.node n).children) :
    n < c ∧ c < 5 := by
  unfold sharedPattern at hc
  by_cases h0 : n = 0
  · subst h0
    have hc : c ∈ [1, 2] := hc
    simp only [List.mem_cons, List.not_mem_nil, or_false] at hc
    omega
  · by_cases h1 : n = 1
    · subst h1
      have hc : c ∈ [2, 3, 4] := hc
      simp only [List.mem_cons, List.not_mem_nil, or_false] at hc
      omega
    · simp [h0, h1, PatternNode.children] at hc

theorem sharedPattern_reachable {n : Nat} : Reachable sharedPattern [0] n ↔ n < 5 := by
  constructor
  · intro hn
    induction hn with
    | root hn =>
        obtain rfl := List.mem_singleton.mp hn
        decide
    | child _ hc _ => exact (sharedPattern_children hc).2
  · intro hn
    have h0 : Reachable sharedPattern [0] 0 := .root (List.mem_singleton_self 0)
    have h1 : Reachable sharedPattern [0] 1 := h0.child (c := 1) (by decide)
    have hcases : n = 0 ∨ n = 1 ∨ n = 2 ∨ n = 3 ∨ n = 4 := by omega
    rcases hcases with rfl | rfl | rfl | rfl | rfl
    · exact h0
    · exact h1
    · exact h0.child (c := 2) (by decide)
    · exact h1.child (c := 3) (by decide)
    · exact h1.child (c := 4) (by decide)

theorem sharedPattern_isPattern : IsPattern sharedPattern [0] where
  acyclic := by
    refine Subrelation.wf (r := fun c n : Nat => 5 - c < 5 - n) ?_
      (measure fun n : Nat => 5 - n).wf
    intro c n hc
    have hlt := sharedPattern_children hc
    omega
  inMemory n hn := sharedPattern_reachable.mp hn
  two := by
    intro n pre disjuncts _ hnode
    unfold sharedPattern at hnode
    by_cases h0 : n = 0
    · simp [h0] at hnode
    · by_cases h1 : n = 1
      · simp [h1] at hnode
        rw [← hnode]
        decide
      · simp [h0, h1] at hnode

theorem splitDisjunctions_correct_shared : ∃ fuel h',
    doPatternTransformation fuel [3, 1, 0, 4, 2] sharedPattern = some h'
      ∧ HasLeaves h' 5 1 () [2, 3, 4] := by
  obtain ⟨fuel, h', hrun, _, hleaves, _⟩ := splitDisjunctions_correct sharedPattern [0]
    [3, 1, 0, 4, 2] sharedPattern_isPattern (by decide) (by
      intro n
      rw [sharedPattern_reachable]
      simp only [List.mem_cons, List.not_mem_nil, or_false]
      omega)
  exact ⟨fuel, h', hrun, hleaves 1 () [2, 3, 4] (sharedPattern_reachable.mpr (by decide)) rfl⟩

end Inferno.PTrans
