/-
  Inferno.Agents.StarRuns
  ───────────────────────
  The runs of stars of a pattern sequence, and the gaps they fill.

    • `runsFrom`, `make_starRuns` — the runs the plan holds,
    • `Placed`                    — the non-star children have places in the sequence, in
                                    order, with room for the stars,
    • `interleave`                — the sub-sequences and the non-star children, in
                                    pattern order,
    • `exists_gaps`               — they make up the sequence iff each run fills its gap.
-/
import Inferno.Agents.SequencePlan
import Inferno.DB.XTreeDatabase

namespace Inferno.Agents

open Inferno.DB
open Inferno.Lib

variable {V L : Type}

/-! ## §1. The runs of a plan. -/

/-- The runs of the rest of a pattern, after the non-star `prev` and then `stars`. -/
def runsFrom (isStar : V → Bool) : Option V → List V → List V → List (Run V)
  | prev, stars, [] => [⟨prev, stars, none⟩]
  | prev, stars, p :: pattern =>
      if isStar p then runsFrom isStar prev (stars ++ [p]) pattern
      else ⟨prev, stars, some p⟩ :: runsFrom isStar (some p) [] pattern

section

variable [DecidableEq V] {isStar : V → Bool}

/-- What one element does to the runs and to the number of non-stars. -/
theorem SequencePlan.step_runs (st : SequencePlan.Progress V) (pit : V × Nat) :
    (SequencePlan.step isStar st pit).plan.starRuns
        = st.plan.starRuns
          ++ (if isStar pit.1 then [] else [⟨st.nonStarQueue, st.starsQueue, some pit.1⟩])
      ∧ (SequencePlan.step isStar st pit).plan.numNonStar
        = st.plan.numNonStar + (if isStar pit.1 then 0 else 1) := by
  unfold SequencePlan.step
  cases hstar : isStar pit.1 with
  | true => simp
  | false =>
      unfold SequencePlan.Progress.run SequencePlan.Progress.pair
      cases st.nonStarQueue with
      | none => exact ⟨rfl, rfl⟩
      | some nonStar =>
          by_cases hgap : st.starsQueue.length > 0 <;> simp [hgap]

/-- The loop, from any point, and the last run. -/
theorem SequencePlan.foldl_runs (pattern : List V) :
    ∀ (st : SequencePlan.Progress V) (n : Nat),
      ((((pattern.zipIdx n).foldl (SequencePlan.step isStar) st).run none).plan.starRuns
        = st.plan.starRuns ++ runsFrom isStar st.nonStarQueue st.starsQueue pattern)
      ∧ (((pattern.zipIdx n).foldl (SequencePlan.step isStar) st).plan.numNonStar
        = st.plan.numNonStar + (pattern.filter (fun p => !isStar p)).length) := by
  induction pattern with
  | nil => intro st n; exact ⟨rfl, rfl⟩
  | cons p pattern ih =>
      intro st n
      rw [List.zipIdx_cons, List.foldl_cons]
      obtain ⟨hruns, hnum⟩ := ih (SequencePlan.step isStar st (p, n)) (n + 1)
      obtain ⟨hprev, hstars⟩ : (SequencePlan.step isStar st (p, n)).nonStarQueue = _
          ∧ (SequencePlan.step isStar st (p, n)).starsQueue = _ :=
        SequencePlan.step_queues st (p, n)
      obtain ⟨hsteprun, hstepnum⟩ : (SequencePlan.step isStar st (p, n)).plan.starRuns = _
          ∧ (SequencePlan.step isStar st (p, n)).plan.numNonStar = _ :=
        SequencePlan.step_runs st (p, n)
      rw [hruns, hnum, hsteprun, hstepnum, hprev, hstars]
      cases hstar : isStar p with
      | true => simp [runsFrom, hstar]
      | false =>
          simp [runsFrom, hstar]
          omega

/-- **The runs of a plan.** -/
theorem SequencePlan.make_starRuns (itemiseIndex : Nat) (pattern : List V) :
    (SequencePlan.make isStar itemiseIndex pattern).starRuns = runsFrom isStar none [] pattern :=
  (SequencePlan.foldl_runs pattern ⟨SequencePlan.start itemiseIndex, none, []⟩ 0).1

theorem SequencePlan.make_numNonStar (itemiseIndex : Nat) (pattern : List V) :
    (SequencePlan.make isStar itemiseIndex pattern).numNonStar
      = (pattern.filter (fun p => !isStar p)).length :=
  (SequencePlan.foldl_runs pattern ⟨SequencePlan.start itemiseIndex, none, []⟩ 0).2.trans
    (Nat.zero_add _)

end

/-- The stars of the runs are those of the pattern, in order. -/
theorem flatMap_elts_runsFrom (isStar : V → Bool) (pattern : List V) :
    ∀ (prev : Option V) (stars : List V),
      (runsFrom isStar prev stars pattern).flatMap Run.elts = stars ++ pattern.filter isStar := by
  induction pattern with
  | nil => intro prev stars; simp [runsFrom]
  | cons p pattern ih =>
      intro prev stars
      unfold runsFrom
      cases hstar : isStar p with
      | true => simp [ih, hstar]
      | false => simp [ih, hstar]

/-- The neighbours of the runs are non-stars of the pattern. -/
theorem neighbours_runsFrom (isStar : V → Bool) (pattern : List V) :
    ∀ (prev : Option V) (stars : List V), ∀ run ∈ runsFrom isStar prev stars pattern,
      (∀ p ∈ run.predecessor, p ∈ prev ∨ p ∈ pattern ∧ isStar p = false)
        ∧ ∀ p ∈ run.successor, p ∈ pattern ∧ isStar p = false := by
  induction pattern with
  | nil =>
      intro prev stars run hrun
      rw [runsFrom, List.mem_singleton] at hrun
      subst hrun
      exact ⟨fun p hp => Or.inl hp, by simp⟩
  | cons q pattern ih =>
      intro prev stars run hrun
      unfold runsFrom at hrun
      cases hstar : isStar q with
      | true =>
          -- a star joins the run that is being read
          rw [hstar, if_pos rfl] at hrun
          obtain ⟨hpred, hsucc⟩ := ih prev (stars ++ [q]) run hrun
          constructor
          · intro p hp
            exact (hpred p hp).imp id (fun h => ⟨List.mem_cons_of_mem _ h.1, h.2⟩)
          · intro p hp
            exact ⟨List.mem_cons_of_mem _ (hsucc p hp).1, (hsucc p hp).2⟩
      | false =>
          -- a non-star ends the run, and is the next one's predecessor
          rw [hstar] at hrun
          rcases List.mem_cons.mp hrun with hrun | hrun
          · subst hrun
            refine ⟨fun p hp => Or.inl hp, fun p hp => ?_⟩
            cases hp
            exact ⟨List.mem_cons_self, hstar⟩
          · obtain ⟨hpred, hsucc⟩ := ih (some q) [] run hrun
            constructor
            · intro p hp
              rcases hpred p hp with h | h
              · cases h
                exact Or.inr ⟨List.mem_cons_self, hstar⟩
              · exact Or.inr ⟨List.mem_cons_of_mem _ h.1, h.2⟩
            · intro p hp
              exact ⟨List.mem_cons_of_mem _ (hsucc p hp).1, (hsucc p hp).2⟩

/-! ## §2. Places. -/

/-- From position `i` on, the non-star children have places in order, with gaps only
where there are stars; `gap` tells whether stars came before. -/
def Placed (isStar : V → Bool) (a : V → XLink L) (xs : List L) : Nat → Bool → List V → Prop
  | i, gap, [] => i ≤ xs.length ∧ (gap = false → i = xs.length)
  | i, gap, p :: pattern =>
      if isStar p then Placed isStar a xs i true pattern
      else ∃ k, i ≤ k ∧ (gap = false → k = i) ∧ (xs.map XLink.link)[k]? = some (a p)
        ∧ Placed isStar a xs (k + 1) false pattern

variable {isStar : V → Bool} {a : V → XLink L} {xs : List L}

/-- A match gives places. -/
theorem placed_of_matches (pattern : List V) :
    ∀ {i j : Nat} {gap : Bool}, i ≤ j → (gap = false → j = i) → j ≤ xs.length →
      Wildcard.Matches a (SequencePlan.wildcard isStar pattern) ((xs.map XLink.link).drop j) →
      Placed isStar a xs i gap pattern := by
  induction pattern with
  | nil =>
      intro i j gap hij hgap hj hm
      have hnil := Wildcard.matches_nil.mp hm
      rw [List.drop_eq_nil_iff, List.length_map] at hnil
      refine ⟨by omega, fun hg => ?_⟩
      have hji := hgap hg
      omega
  | cons p pattern ih =>
      intro i j gap hij hgap hj hm
      have hlen : j ≤ (xs.map XLink.link).length := by rw [List.length_map]; exact hj
      unfold Placed
      cases hstar : isStar p with
      | true =>
          -- a star lets the rest start at any place from here
          have hm' : Wildcard.Matches a (none :: SequencePlan.wildcard isStar pattern)
              ((xs.map XLink.link).drop j) := by
            simpa [SequencePlan.wildcard, hstar] using hm
          obtain ⟨j', hjj', hj', hrest⟩ := (Wildcard.matches_star hlen).mp hm'
          rw [List.length_map] at hj'
          exact ih (Nat.le_trans hij hjj') (by simp) hj' hrest
      | false =>
          -- a letter has the place here, and the rest starts right behind
          have hm' : Wildcard.Matches a (some p :: SequencePlan.wildcard isStar pattern)
              ((xs.map XLink.link).drop j) := by
            simpa [SequencePlan.wildcard, hstar] using hm
          obtain ⟨hk, hrest⟩ := Wildcard.matches_letter.mp hm'
          have hlt := (List.getElem?_eq_some_iff.mp hk).1
          rw [List.length_map] at hlt
          exact ⟨j, hij, hgap, hk, ih (Nat.le_refl _) (fun _ => rfl) hlt hrest⟩

/-- There is room for the non-star children. -/
theorem Placed.length_le (pattern : List V) :
    ∀ {i : Nat} {gap : Bool}, Placed isStar a xs i gap pattern →
      i + (pattern.filter (fun p => !isStar p)).length ≤ xs.length := by
  induction pattern with
  | nil => intro i gap h; exact h.1
  | cons p pattern ih =>
      intro i gap h
      unfold Placed at h
      cases hstar : isStar p with
      | true =>
          rw [hstar, if_pos rfl] at h
          simpa [hstar] using ih h
      | false =>
          rw [hstar] at h
          obtain ⟨k, hik, _, _, hrest⟩ := h
          have hle := ih hrest
          simp only [List.filter_cons, hstar, Bool.not_false, if_true, List.length_cons]
          omega

/-! ## §3. Gaps. -/

/-- The sub-sequences and the non-star children, in pattern order. -/
def interleave (isStar : V → Bool) (a : V → XLink L) (σ : V → List L) (pattern : List V) :
    List (XLink L) :=
  pattern.flatMap (fun p => if isStar p then (σ p).map XLink.link else [a p])

/-- A run, and the part of a container from `first` up to `limit` that it fills. -/
structure Gap (V L : Type) where
  run : Run V
  container : List L
  first : Nat
  limit : Nat

/-- The elements of the gap. -/
def Gap.segment (g : Gap V L) : List L :=
  (g.container.take g.limit).drop g.first

/-- The run's sub-sequences fill the gap. -/
def Gap.Filled (σ : V → List L) (g : Gap V L) : Prop :=
  g.run.elts.flatMap σ = g.segment

/-- A gap lies between the neighbours of its run, and is empty when the run is. -/
structure Gap.Between (a : V → XLink L) (xs : List L) (g : Gap V L) : Prop where
  container : g.container = xs
  first_le : g.first ≤ g.limit
  limit_le : g.limit ≤ xs.length
  empty : g.run.elts = [] → g.first = g.limit
  predecessor : match g.run.predecessor with
    | none => g.first = 0
    | some p => ∃ k, g.first = k + 1 ∧ (xs.map XLink.link)[k]? = some (a p)
  successor : match g.run.successor with
    | none => g.limit = xs.length
    | some p => (xs.map XLink.link)[g.limit]? = some (a p)

/-- **The interleaving makes up the sequence iff each run fills its gap.**  The induction
is on the rest of the pattern: `i` is the place after the last non-star, `stars` came
since. -/
theorem exists_gaps (hnodup : xs.Nodup) (pattern : List V) :
    ∀ (i : Nat) (prev : Option V) (stars : List V),
      Placed isStar a xs i (!stars.isEmpty) pattern →
      (match prev with
        | none => i = 0
        | some p => ∃ k, i = k + 1 ∧ (xs.map XLink.link)[k]? = some (a p)) →
      ∃ gaps : List (Gap V L), gaps.map Gap.run = runsFrom isStar prev stars pattern
        ∧ (∀ g ∈ gaps, g.Between a xs)
        ∧ ∀ σ : V → List L,
            (stars.flatMap σ).map XLink.link ++ interleave isStar a σ pattern
                = (xs.map XLink.link).drop i ↔ ∀ g ∈ gaps, g.Filled σ := by
  induction pattern with
  | nil =>
      intro i prev stars hplaced hprev
      obtain ⟨hle, hgap⟩ := hplaced
      -- the last gap is what is left of the sequence
      refine ⟨[⟨⟨prev, stars, none⟩, xs, i, xs.length⟩], rfl, ?_, ?_⟩
      · intro g hg
        rw [List.mem_singleton] at hg
        subst hg
        refine ⟨rfl, hle, Nat.le_refl _, ?_, hprev, rfl⟩
        intro hempty
        have hempty' : stars = [] := hempty
        exact hgap (by rw [hempty']; rfl)
      · intro σ
        rw [List.forall_mem_singleton]
        unfold Gap.Filled Gap.segment interleave
        rw [List.flatMap_nil, List.append_nil, List.take_length, ← List.map_drop]
        exact (List.map_injective_iff.mpr (fun _ _ h => XLink.link.inj h)).eq_iff
  | cons p pattern ih =>
      intro i prev stars hplaced hprev
      unfold Placed at hplaced
      unfold runsFrom
      cases hstar : isStar p with
      | true =>
          -- one star more
          rw [hstar, if_pos rfl] at hplaced
          obtain ⟨gaps, hruns, hbetween, hfilled⟩ :=
            ih i prev (stars ++ [p]) (by
              rw [show (!(stars ++ [p]).isEmpty) = true by simp]
              exact hplaced) hprev
          refine ⟨gaps, by simpa using hruns, hbetween, fun σ => ?_⟩
          rw [← hfilled σ]
          simp [interleave, hstar]
      | false =>
          rw [hstar] at hplaced
          obtain ⟨k, hik, hgap, hk, hrest⟩ := hplaced
          obtain ⟨gaps, hruns, hbetween, hfilled⟩ :=
            ih (k + 1) (some p) [] hrest ⟨k, rfl, hk⟩
          have hlt := (List.getElem?_eq_some_iff.mp hk).1
          rw [List.length_map] at hlt
          refine ⟨⟨⟨prev, stars, some p⟩, xs, i, k⟩ :: gaps, by simpa using hruns, ?_, ?_⟩
          · intro g hg
            rcases List.mem_cons.mp hg with hg | hg
            · subst hg
              refine ⟨rfl, hik, Nat.le_of_lt hlt, ?_, hprev, hk⟩
              intro hempty
              have hempty' : stars = [] := hempty
              exact (hgap (by rw [hempty']; rfl)).symm
            · exact hbetween g hg
          · intro σ
            rw [List.forall_mem_cons, ← hfilled σ]
            -- the non-star's element occurs once in the sequence
            have hsplit : (xs.map XLink.link).drop i
                = ((xs.take k).drop i).map XLink.link
                  ++ a p :: (xs.map XLink.link).drop (k + 1) := by
              have hcons : (xs.map XLink.link).drop k
                  = a p :: (xs.map XLink.link).drop (k + 1) := by
                obtain ⟨hlt', hget⟩ := List.getElem?_eq_some_iff.mp hk
                rw [List.drop_eq_getElem_cons hlt', hget]
              rw [← hcons, List.map_drop, List.map_take, ← List.take_append_drop k
                (xs.map XLink.link), List.drop_append_of_le_length]
              · simp
              · rw [List.length_take, List.length_map]
                omega
            have hnd : ((xs.map XLink.link).drop i).Nodup :=
              (hnodup.map (fun _ _ h => XLink.link.inj h)).sublist (List.drop_sublist _ _)
            rw [hsplit, List.nodup_append, List.nodup_cons] at hnd
            have hnotin : a p ∉ ((xs.take k).drop i).map XLink.link := by
              intro hmem
              exact hnd.2.2 _ hmem _ List.mem_cons_self rfl
            have hinter : interleave isStar a σ (p :: pattern)
                = a p :: interleave isStar a σ pattern := by
              simp [interleave, hstar]
            rw [hsplit, hinter, eq_comm, List.append_cons_inj_of_notMem hnotin hnd.2.1.1]
            unfold Gap.Filled Gap.segment
            rw [(List.map_injective_iff.mpr (fun _ _ h => XLink.link.inj h)).eq_iff]
            simp [eq_comm]

/-- What is true of a list's images in one order is true in another. -/
theorem exists_perm_of_map_perm {α β : Type} {f : α → β} {rs rs' : List β} (h : rs.Perm rs') :
    ∀ {ts : List α}, ts.map f = rs → ∃ ts', ts.Perm ts' ∧ ts'.map f = rs' := by
  induction h with
  | nil =>
      intro ts hts
      exact ⟨ts, List.Perm.refl _, hts⟩
  | cons x _ ih =>
      intro ts hts
      cases ts with
      | nil => cases hts
      | cons t ts =>
          rw [List.map_cons, List.cons.injEq] at hts
          obtain ⟨ts', hperm, hmap⟩ := ih hts.2
          exact ⟨t :: ts', hperm.cons t, by rw [List.map_cons, hts.1, hmap]⟩
  | swap x y rs =>
      intro ts hts
      match ts, hts with
      | t :: t' :: ts, hts =>
          rw [List.map_cons, List.map_cons, List.cons.injEq, List.cons.injEq] at hts
          exact ⟨t' :: t :: ts, List.Perm.swap t' t ts, by
            rw [List.map_cons, List.map_cons, hts.1, hts.2.1, hts.2.2]⟩
  | trans _ _ ih ih' =>
      intro ts hts
      obtain ⟨ts', hperm, hmap⟩ := ih hts
      obtain ⟨ts'', hperm', hmap'⟩ := ih' hmap
      exact ⟨ts'', hperm.trans hperm', hmap'⟩

end Inferno.Agents
