/-
  Inferno.Engine.ConjectureExact
  ──────────────────────────────
  **THE CONJECTURE IS AN ODOMETER.**

  The conjecture counts the decisions of the pattern query, the agent registers at most
  as many; the rest are padded with an empty, exclusive decision.

    • `registerDecision_eq` — a decision gets its choice, and is recorded,
    • `call_eq`             — a run of the agent's calls is a run of its script under
                              the choices,
    • `incrementAgent_spec` — incrementing from the last decision is incrementing the
                              odometer; a padded decision passes the carry on,
    • `yields_outcomes`     — the lambda returns the outcomes of the script, one by one,
                              each once, and then throws.
-/
import Inferno.Engine.DecidedQuery

namespace Inferno.Engine

open Inferno.Common
open Inferno.DB
open Inferno.Lib.Odometer

variable {L V E : Type} [DecidableEq L] [DecidableEq V] {nonnull : L → Bool}

/-! ## §1. Registering a decision. -/

/-- The range lies in its container, whose elements are not null. -/
structure InContainer (nonnull : L → Bool) (r : Range L) : Prop where
  stop_le : r.stop.pos ≤ r.stop.container.length
  nonnull : ∀ x ∈ r.stop.container, nonnull x = true

theorem iteratorEq_eq {a b : Iterator L} (h : a.container = b.container) :
    iteratorEq a b = some (a.pos == b.pos) := by
  unfold iteratorEq
  simp [ASSERT, h]

theorem rangeEq_self (r : Range L) : rangeEq r r = some true := by
  simp [rangeEq, iteratorEq_eq]

omit [DecidableEq L] in
theorem chosen_container {r : Range L} (hp : r.Proper) {c : Iterator L} (h : r.Holds c) :
    c.container = r.stop.container :=
  h.container.trans hp.container.symm

omit [DecidableEq L] in
/-- A choice is at the stop only when the range is inclusive. -/
theorem pos_le_stop {r : Range L} {c : Iterator L} (h : r.Holds c) :
    c.pos ≤ r.stop.pos ∧ (r.inclusive = false → c.pos ≠ r.stop.pos) := by
  have hlt := h.lt
  unfold Span.limit at hlt
  cases hi : r.inclusive with
  | true =>
      rw [hi, if_pos rfl] at hlt
      exact ⟨Nat.lt_succ_iff.mp hlt, by simp⟩
  | false =>
      rw [hi] at hlt
      have hlt' : c.pos < r.stop.pos := hlt
      exact ⟨Nat.le_of_lt hlt', fun _ => Nat.ne_of_lt hlt'⟩

theorem decisionOk_eq {r : Range L} (hp : r.Proper) {c : Iterator L} (h : r.Holds c) :
    DecidedQuery.decisionOk r c = some true := by
  unfold DecidedQuery.decisionOk
  cases hi : r.inclusive with
  | true => rfl
  | false =>
      have hne := (pos_le_stop h).2 hi
      rw [iteratorEq_eq (chosen_container hp h)]
      simp [hne]

theorem choiceOk_eq {r : Range L} (hp : r.Proper) (hin : InContainer nonnull r) {c : Iterator L}
    (h : r.Holds c) : DecidedQuery.choiceOk nonnull r c = some true := by
  have hle := (pos_le_stop h).1
  unfold DecidedQuery.choiceOk
  rw [iteratorEq_eq (chosen_container hp h)]
  by_cases hstop : c.pos = r.stop.pos
  · simp [hstop]
  · -- before the stop there is an element
    have hlt : c.pos < r.stop.container.length := by
      have hstop_le := hin.stop_le
      omega
    have hget := List.getElem?_eq_getElem hlt
    simp [chosen_container hp h, hget, hin.nonnull _ (List.getElem_mem hlt)]

omit [DecidableEq V] in
/-- **A decision gets its choice, and is recorded.** -/
theorem registerDecision_eq {q : DecidedQuery L V E} {r old : Range L} {c : Choice L}
    (hp : r.Proper) (hin : InContainer nonnull r) (hd : q.decisions[q.nextDecision]? = some old)
    (hc : q.choices[q.nextChoice]? = some c) (hholds : r.Holds (chosen r c))
    (hold : c.isSome → old = r) :
    q.registerDecision nonnull r = some (chosen r c, { q with
      decisions := q.decisions.set q.nextDecision r
      nextDecision := q.nextDecision + 1
      nextChoice := q.nextChoice + 1 }) := by
  unfold DecidedQuery.registerDecision
  have hbegin := decisionOk_eq hp hp.holds_begin
  cases c with
  | none =>
      have hholds' : r.Holds r.begin := hholds
      simp [hbegin, hd, hc, ASSERT, choiceOk_eq hp hin hholds', chosen]
  | some it =>
      have hsame : old = r := hold rfl
      have hset : q.decisions.set q.nextDecision r = q.decisions := by
        rw [← hsame]
        obtain ⟨hlt, hget⟩ := List.getElem?_eq_some_iff.mp hd
        rw [← hget]
        exact List.set_getElem_self hlt
      have hholds' : r.Holds it := hholds
      simp [hbegin, hd, hc, hsame, rangeEq_self, ASSERT, decisionOk_eq hp hholds',
        choiceOk_eq hp hin hholds', hset, chosen]

/-! ## §2. The agent's calls. -/

/-- What the registered nodes make of the map. -/
def registerAll (nodes : StdMap V E) (events : List (V × E)) : StdMap V E :=
  events.foldl (fun nodes e => nodes.set e.1 e.2) nodes

/-- **A run of the calls is a run of the script** under the choices `cs` from the next
one on: it emits the script's events and records the script's digits. -/
theorem call_eq {s : Script (List L) (V × E)} {n : Nat} (hv : s.Valid (InContainer nonnull) n) :
    ∀ {q : DecidedQuery L V E} {pre post cs : List (Choice L)} {dpre spans dpost : List (Range L)},
      q.choices = pre ++ cs ++ post → q.decisions = dpre ++ spans ++ dpost →
      q.nextChoice = pre.length → q.nextDecision = dpre.length → s.Fits cs spans →
      q.call nonnull s = some { q with
        abnormalNodes := registerAll q.abnormalNodes (s.events cs)
        decisions := dpre ++ (s.digits cs).map Digit.span ++ dpost
        nextDecision := q.nextDecision + n
        nextChoice := q.nextChoice + n } := by
  -- on the script; the query's indices move along with what has been read
  induction hv with
  | stop =>
      intro q pre post cs dpre spans dpost _ hd _ _ hfits
      obtain ⟨_, rfl⟩ := hfits
      show some q = some { q with
        abnormalNodes := q.abnormalNodes
        decisions := dpre ++ [] ++ dpost
        nextDecision := q.nextDecision
        nextChoice := q.nextChoice }
      rw [← hd]
  | @emit e next n _ ih =>
      intro q pre post cs dpre spans dpost hc hd hnc hnd hfits
      exact ih (q := q.registerAbnormalNode e.1 e.2) hc hd hnc hnd hfits
  | @choose r next n hp hin _ ih =>
      intro q pre post cs dpre spans dpost hc hd hnc hnd hfits
      -- a decision: the query has a choice for it, and an old span
      cases cs with
      | nil => exact absurd hfits (by simp [Script.Fits])
      | cons c cs =>
          cases spans with
          | nil => exact absurd hfits (by simp [Script.Fits])
          | cons old spans =>
              obtain ⟨hholds, hold, hfits⟩ := hfits
              -- the decision and the choice that this call finds
              have hdget : q.decisions[q.nextDecision]? = some old := by
                rw [hd, hnd]
                simp
              have hcget : q.choices[q.nextChoice]? = some c := by
                rw [hc, hnc]
                simp
              obtain ⟨q', hq'⟩ : ∃ q' : DecidedQuery L V E, q' = { q with
                  decisions := q.decisions.set q.nextDecision r
                  nextDecision := q.nextDecision + 1
                  nextChoice := q.nextChoice + 1 } := ⟨_, rfl⟩
              have hreg : q.registerDecision nonnull r = some (chosen r c, q') := by
                rw [hq']
                exact registerDecision_eq hp hin hdget hcget hholds hold
              have hc' : q'.choices = (pre ++ [c]) ++ cs ++ post := by
                rw [hq']
                simp [hc]
              have hd' : q'.decisions = (dpre ++ [r]) ++ spans ++ dpost := by
                rw [hq', hd, hnd]
                simp
              -- the rest of the calls, from the query with this decision recorded
              have hrest := ih _ hholds hc' hd' (by simp [hq', hnc]) (by simp [hq', hnd]) hfits
              unfold DecidedQuery.call
              rw [hreg]
              refine hrest.trans ?_
              rw [hq']
              simp only [Script.events, Script.digits, List.map_cons, List.append_assoc,
                List.singleton_append, Nat.add_assoc, Nat.add_comm 1 n]

/-! ## §3. Incrementing. -/

/-- The digit's iterator is in the container of its decision, before the end or at it. -/
structure Digit.Sits (d : Digit (List L)) : Prop where
  container : d.cursor.container = d.span.stop.container
  le_stop : d.cursor.pos ≤ d.span.stop.pos
  stop_le : d.span.stop.pos ≤ d.span.stop.container.length

omit [DecidableEq L] [DecidableEq V] in
theorem invalidate_eq {q : DecidedQuery L V E} {bc : Nat} (h : bc < q.choices.length) :
    q.invalidate bc = some { q with
      nextDecision := min q.nextDecision bc
      choices := q.choices.set bc none } := by
  simp [DecidedQuery.invalidate, ASSERT, h]

omit [DecidableEq L] [DecidableEq V] in
theorem setChoice_eq {q : DecidedQuery L V E} {bc : Nat} {c : Choice L}
    (h : bc < q.choices.length) :
    q.setChoice bc c = some { q with choices := q.choices.set bc c } := by
  simp [DecidedQuery.setChoice, ASSERT, h]

omit [DecidableEq L] in
theorem advance_eq {it : Iterator L} (h : it.pos < it.container.length) :
    advance it = some ⟨it.container, it.pos + 1⟩ := by
  simp [advance, ASSERT, h]

omit [DecidableEq V] in
/-- One choice moves as the digit does, or is made invalid. -/
theorem incrementChoice_eq {q : DecidedQuery L V E} {bc : Nat} {d : Digit (List L)}
    (hs : Digit.Sits d) (hc : q.choices[bc]? = some d.choice)
    (hd : q.decisions[bc]? = some d.span) :
    ∃ q', Conjecture.incrementChoice q bc = some ((d.span.next d.cursor).isSome, q')
      ∧ q'.choices = q.choices.set bc (d.span.next d.cursor) ∧ q'.decisions = q.decisions := by
  have hlt : bc < q.choices.length := (List.getElem?_eq_some_iff.mp hc).1
  have hcur : d.choice.getD d.span.begin = d.cursor := rfl
  unfold Conjecture.incrementChoice
  simp only [hc, hd, Option.bind_eq_bind, Option.bind_some, hcur, iteratorEq_eq hs.container,
    beq_iff_eq]
  by_cases hstop : d.cursor.pos = d.span.stop.pos
  · -- at the end already
    have hnext : d.span.next d.cursor = none := by
      unfold Span.next Span.limit
      cases d.span.inclusive <;> simp [hstop]
    rw [if_pos hstop, invalidate_eq hlt, hnext]
    exact ⟨_, rfl, rfl, rfl⟩
  · -- there is one element more, so the choice can advance
    have hadv : d.cursor.pos < d.cursor.container.length := by
      have hle := hs.le_stop
      have hstop_le := hs.stop_le
      rw [hs.container]
      omega
    have heq : iteratorEq ⟨d.cursor.container, d.cursor.pos + 1⟩ d.span.stop
        = some (d.cursor.pos + 1 == d.span.stop.pos) := iteratorEq_eq hs.container
    rw [if_neg hstop, advance_eq hadv]
    simp only [Option.bind_some, setChoice_eq hlt, heq]
    by_cases hlate : d.span.inclusive = false ∧ d.cursor.pos + 1 = d.span.stop.pos
    · -- moved to the end of an exclusive decision
      have hnext : d.span.next d.cursor = none := by
        unfold Span.next Span.limit
        simp [hlate.1, hlate.2]
      have hlt' : bc < (q.choices.set bc (some ⟨d.cursor.container, d.cursor.pos + 1⟩)).length := by
        rw [List.length_set]
        exact hlt
      have hstays : (!d.span.inclusive && d.cursor.pos + 1 == d.span.stop.pos) = true := by
        simpa using hlate
      rw [hnext, if_pos hstays, invalidate_eq hlt']
      exact ⟨_, rfl, List.set_set .., rfl⟩
    · -- moved to a place that the decision allows
      have hnext : d.span.next d.cursor = some ⟨d.cursor.container, d.cursor.pos + 1⟩ := by
        have hle := hs.le_stop
        unfold Span.next Span.limit
        rw [if_pos]
        cases hi : d.span.inclusive with
        | true =>
            show d.cursor.pos + 1 < d.span.stop.pos + 1
            omega
        | false =>
            have hne : d.cursor.pos + 1 ≠ d.span.stop.pos := fun h => hlate ⟨hi, h⟩
            show d.cursor.pos + 1 < d.span.stop.pos
            omega
      have hmoves : ¬ (!d.span.inclusive && d.cursor.pos + 1 == d.span.stop.pos) = true := by
        simpa using hlate
      rw [hnext, if_neg hmoves]
      exact ⟨_, rfl, rfl, rfl⟩

omit [DecidableEq V] in
/-- **Incrementing from the last of the digits `ds` is incrementing the odometer**: the
induction is on the digits from the last to the first, as the recursion goes. -/
theorem incrementAgent_spec (ds : List (Digit (List L))) :
    ∀ {q : DecidedQuery L V E} {post : List (Choice L)} {dpost : List (Range L)},
      (∀ d ∈ ds, Digit.Sits d) → ds ≠ [] → q.choices = ds.map Digit.choice ++ post →
      q.decisions = ds.map Digit.span ++ dpost →
      ∃ q', Conjecture.incrementAgent q (ds.length - 1) = some ((increment ds).isSome, q')
        ∧ q'.decisions = q.decisions ∧ ∀ cs, increment ds = some cs → q'.choices = cs ++ post := by
  induction ds using List.reverseRecOn with
  | nil => intro q post dpost _ hne; exact absurd rfl hne
  | append_singleton ds d ih =>
      intro q post dpost hs _ hc hd
      have hcget : q.choices[ds.length]? = some d.choice := by
        rw [hc]
        simp
      have hdget : q.decisions[ds.length]? = some d.span := by
        rw [hd]
        simp
      obtain ⟨q', hone, hchoices, hdecs⟩ :=
        incrementChoice_eq (hs d (by simp)) hcget hdget
      -- this digit as the recursion leaves it
      have hset : q'.choices = ds.map Digit.choice ++ d.span.next d.cursor :: post := by
        rw [hchoices, hc]
        simp
      have hlen : (ds ++ [d]).length - 1 = ds.length := by simp
      rw [hlen, increment_append_singleton]
      cases hnext : d.span.next d.cursor with
      | some c =>
          -- the last digit moves
          rw [hnext] at hone hset
          refine ⟨q', ?_, hdecs, ?_⟩
          · cases hk : ds.length with
            | zero => rw [hk] at hone; exact hone
            | succ k =>
                rw [hk] at hone
                simp [Conjecture.incrementAgent, hone]
          · intro cs hcs
            cases hcs
            simp [hset]
      | none =>
          -- the last digit starts again, and the one before it moves
          rw [hnext] at hone hset
          by_cases hds : ds = []
          · -- there is no digit before it
            subst hds
            exact ⟨q', hone, hdecs, by simp [increment]⟩
          · -- the recursion goes on with the digit before it
            have hpos : ds.length = (ds.length - 1) + 1 := by
              have hne : ds.length ≠ 0 := fun h => hds (List.eq_nil_of_length_eq_zero h)
              omega
            have hd' : q'.decisions = ds.map Digit.span ++ d.span :: dpost := by
              rw [hdecs, hd]
              simp
            obtain ⟨q'', hrest, hdecs', hcs'⟩ :=
              ih (fun e he => hs e (by simp [he])) hds hset hd'
            -- this digit starts again when one before it moves
            refine ⟨q'', ?_, hdecs'.trans hdecs, ?_⟩
            · rw [hpos] at hone ⊢
              rw [Conjecture.incrementAgent, hone]
              simp [hrest]
            · intro cs hcs
              obtain ⟨cs₀, hcs₀, rfl⟩ := Option.map_eq_some_iff.mp hcs
              rw [hcs' cs₀ hcs₀]
              simp

/-! ## §4. The lambda. -/

/-- A decision that the agent does not register. -/
def padDigit : Digit (List L) :=
  ⟨emptyRange, none⟩

omit [DecidableEq L] in
theorem padDigit_sits : Digit.Sits (padDigit : Digit (List L)) :=
  ⟨rfl, Nat.le_refl _, Nat.le_refl _⟩

omit [DecidableEq L] in
/-- A padded decision passes the carry on. -/
theorem padDigit_next : (padDigit : Digit (List L)).span.next padDigit.cursor = none := rfl

section

variable {impl : Script (List L) (V × E)} {n pads : Nat} {hypothesisLinks : StdMap V (XLink L)}
  {keyerPlink : V}

/-- The query is ready for a run under the choices `cs`. -/
structure Ready (impl : Script (List L) (V × E)) (n pads : Nat) (cs : List (Choice L))
    (q : DecidedQuery L V E) : Prop where
  choices : q.choices = cs ++ List.replicate pads none
  decisions_length : q.decisions.length = n + pads
  choices_length : cs.length = n
  fits : impl.Fits cs (q.decisions.take n)

/-- The query after a run under the choices `cs`. -/
structure Ran (impl : Script (List L) (V × E)) (pads : Nat) (cs : List (Choice L))
    (q : DecidedQuery L V E) : Prop where
  choices : q.choices = cs ++ List.replicate pads none
  decisions : q.decisions = (impl.digits cs).map Digit.span ++ List.replicate pads emptyRange
  lastActivity : q.lastActivity = .QUERY
  abnormalNodes : q.abnormalNodes = registerAll StdMap.empty (impl.events cs)

/-- **One run**: it registers what the script emits under the choices, and pads the
decisions. -/
theorem runRegenerationQuery_spec (hv : impl.Valid (InContainer nonnull) n) {y : L}
    (hkeyer : hypothesisLinks.lookup keyerPlink = some (.link y)) {cs : List (Choice L)}
    {q : DecidedQuery L V E} (h : Ready impl n pads cs q) :
    ∃ q', runRegenerationQuery nonnull impl hypothesisLinks keyerPlink q = some q'
      ∧ Ran impl pads cs q' := by
  obtain ⟨q₀, hq₀⟩ : ∃ q₀ : DecidedQuery L V E,
      q₀ = DecidedQuery.reset { q with lastActivity := .QUERY } := ⟨_, rfl⟩
  have hc : q₀.choices = [] ++ cs ++ List.replicate pads none := by
    rw [hq₀]
    exact h.choices
  have hd : q₀.decisions = [] ++ q.decisions.take n ++ q.decisions.drop n := by
    rw [hq₀, List.nil_append, List.take_append_drop]
    rfl
  have hcall := call_eq hv hc hd (by rw [hq₀]; rfl) (by rw [hq₀]; rfl) h.fits
  have hlen : ((impl.digits cs).map Digit.span).length = n := by
    rw [List.length_map, Script.digits_length hv h.fits]
  have hdrop : (q.decisions.drop n).length = pads := by
    rw [List.length_drop, h.decisions_length, Nat.add_sub_cancel_left]
  unfold runRegenerationQuery
  simp only [hkeyer, Option.bind_eq_bind, Option.bind_some, ne_eq, reduceCtorEq,
    not_false_eq_true, if_true]
  rw [← hq₀, hcall]
  refine ⟨_, rfl, ?_, ?_, ?_, ?_⟩
  · show q₀.choices = _
    rw [hc, List.nil_append]
  · -- the decisions after those registered are emptied
    show List.take (q₀.nextDecision + n) _ ++ (List.drop (q₀.nextDecision + n) _).map _ = _
    have hnext : q₀.nextDecision + n = n := by
      rw [hq₀]
      exact Nat.zero_add n
    rw [hnext, List.nil_append, ← hlen, List.take_left, List.drop_left, List.map_const', hlen,
      hdrop]
  · show q₀.lastActivity = _
    rw [hq₀]
    rfl
  · show registerAll q₀.abnormalNodes _ = _
    rw [hq₀]
    rfl

/-- **One increment**: the odometer's. -/
theorem increment_spec (hv : impl.Valid (InContainer nonnull) n) {cs : List (Choice L)}
    {spans : List (Range L)} (hfits : impl.Fits cs spans) (hlen : cs.length = n)
    {conj : Conjecture L V E} (hpq : conj.pqDecisions.length = n + pads)
    (h : Ran impl pads cs conj.query) :
    ∃ conj', conj.increment = some ((increment (impl.digits cs)).isSome, conj')
      ∧ conj'.pqDecisions = conj.pqDecisions
      ∧ ∀ cs', increment (impl.digits cs) = some cs' →
          conj'.query.choices = cs' ++ List.replicate pads none
          ∧ conj'.query.decisions = conj.query.decisions := by
  have hdlen := Script.digits_length hv hfits
  have hdigits := Script.digits_holds hv hfits
  unfold Conjecture.increment
  by_cases hempty : conj.pqDecisions = []
  · -- no decisions: neither in the script
    have hn : n = 0 := by
      rw [hempty, List.length_nil] at hpq
      omega
    have hnil : impl.digits cs = [] := List.eq_nil_of_length_eq_zero (hdlen.trans hn)
    rw [hnil, hempty]
    exact ⟨conj, rfl, hempty, by simp [increment]⟩
  · have hne : conj.pqDecisions.isEmpty = false := by simpa using hempty
    -- the recursion is on the digits of the script and the pads
    rw [hne, h.lastActivity]
    obtain ⟨ds, hds⟩ : ∃ ds, ds = impl.digits cs ++ List.replicate pads padDigit := ⟨_, rfl⟩
    -- the pads never move, so that the digits before them decide
    have hincr : increment ds = (increment (impl.digits cs)).map
        (· ++ List.replicate pads none) := by
      rw [hds, increment_append (by
        intro d hd
        rw [List.eq_of_mem_replicate hd]
        exact padDigit_next)]
      simp
    -- each choice is within its decision
    have hsits : ∀ d ∈ ds, Digit.Sits d := by
      intro d hd
      rw [hds] at hd
      rcases List.mem_append.mp hd with hd | hd
      · obtain ⟨hp, hin, hholds⟩ := hdigits d hd
        exact ⟨chosen_container hp hholds, (pos_le_stop hholds).1, hin.stop_le⟩
      · rw [List.eq_of_mem_replicate hd]
        exact padDigit_sits
    have hlength : ds.length = conj.pqDecisions.length := by
      rw [hds, List.length_append, List.length_replicate, hdlen, hpq]
    have hdsne : ds ≠ [] := by
      intro hnil
      rw [hnil] at hlength
      exact hempty (List.eq_nil_of_length_eq_zero hlength.symm)
    have hchoices : conj.query.choices = ds.map Digit.choice ++ [] := by
      rw [h.choices, hds, List.append_nil, List.map_append, List.map_replicate,
        Script.digits_choices hfits]
      rfl
    have hdecisions : conj.query.decisions = ds.map Digit.span ++ [] := by
      rw [h.decisions, hds, List.append_nil, List.map_append, List.map_replicate]
      rfl
    -- the recursion starts at the last digit
    obtain ⟨q', hagent, hdecs, hcs⟩ := incrementAgent_spec ds hsits hdsne hchoices hdecisions
    rw [hlength, hincr] at hagent
    refine ⟨{ conj with query := { q' with lastActivity := .CONJECTURE } }, ?_, rfl, ?_⟩
    · simp [hagent]
    · intro cs' hcs'
      have hall := hcs (cs' ++ List.replicate pads none) (by rw [hincr, hcs']; rfl)
      exact ⟨hall.trans (List.append_nil _), hdecs⟩

/-- From a run on, the lambda returns the outcomes that are left and then throws: the
induction is on these, one call each. -/
theorem yields_remaining (hv : impl.Valid (InContainer nonnull) n) {y : L}
    (hkeyer : hypothesisLinks.lookup keyerPlink = some (.link y)) (rest : List (List (V × E))) :
    ∀ {cs : List (Choice L)} {spans : List (Range L)} {st : QueryLambda L V E},
      st.first = false → impl.Fits cs spans → cs.length = n →
      st.nlqConjecture.pqDecisions.length = n + pads → Ran impl pads cs st.nlqConjecture.query →
      impl.remaining cs = impl.events cs :: rest →
      ∃ qs, Yields (runRegenerationQuery nonnull impl hypothesisLinks keyerPlink) st qs
        ∧ qs.map DecidedQuery.abnormalNodes = rest.map (registerAll StdMap.empty) := by
  induction rest with
  | nil =>
      -- no outcome is left: the increment fails and the lambda throws
      intro cs spans st hfirst hfits hlen hpq hran hrem
      obtain ⟨conj', hincr, _⟩ := increment_spec hv hfits hlen hpq hran
      have hstep := Script.remaining_step hv hfits
      cases hi : increment (impl.digits cs) with
      | some cs' =>
          -- another outcome would be owed
          rw [hi] at hstep
          have hnil : impl.remaining cs' = [] :=
            (List.cons.inj (hstep.1.symm.trans hrem)).2
          obtain ⟨rest', hrest'⟩ := Script.remaining_eq_events hv hstep.2
          rw [hnil] at hrest'
          cases hrest'
      | none =>
          rw [hi] at hincr
          refine ⟨[], Yields.throws (show _ = some (none, ⟨conj'.reset, st.first⟩) from ?_), rfl⟩
          simp [callLambda, hfirst, hincr]
  | cons es rest ih =>
      intro cs spans st hfirst hfits hlen hpq hran hrem
      obtain ⟨conj', hincr, hpq', hmoves⟩ := increment_spec hv hfits hlen hpq hran
      have hstep := Script.remaining_step hv hfits
      cases hi : increment (impl.digits cs) with
      | none =>
          rw [hi] at hstep
          have hcons := hstep.symm.trans hrem
          simp at hcons
      | some cs' =>
          rw [hi] at hincr hstep
          obtain ⟨hchoices, hdecisions⟩ := hmoves cs' hi
          -- the increment gives the next outcome owed
          have howed : impl.remaining cs' = es :: rest :=
            (List.cons.inj (hstep.1.symm.trans hrem)).2
          have hdlen : ((impl.digits cs).map Digit.span).length = n := by
            rw [List.length_map, Script.digits_length hv hfits]
          have hlen' : cs'.length = n := by
            have hcs' := congrArg List.length (Script.digits_choices hstep.2)
            rw [List.length_map, Script.digits_length hv hstep.2] at hcs'
            exact hcs'.symm
          -- the query is as the next run asks for
          have hready : Ready impl n pads cs' conj'.query := by
            refine ⟨hchoices, ?_, hlen', ?_⟩
            · rw [hdecisions, hran.decisions, List.length_append, hdlen, List.length_replicate]
            · rw [hdecisions, hran.decisions, ← hdlen, List.take_left]
              exact hstep.2
          obtain ⟨q', hrun, hran'⟩ := runRegenerationQuery_spec hv hkeyer hready
          have hcall : callLambda
              (runRegenerationQuery nonnull impl hypothesisLinks keyerPlink) st
                = some (some q', ⟨{ conj' with query := q' }, false⟩) := by
            simp [callLambda, hfirst, hincr, hrun]
          -- what this run emitted is the next outcome owed
          have hevents : impl.events cs' = es ∧ impl.remaining cs' = impl.events cs' :: rest := by
            obtain ⟨rest', hrest'⟩ := Script.remaining_eq_events hv hstep.2
            rw [howed] at hrest'
            obtain ⟨hes, _⟩ := List.cons.inj hrest'
            rw [howed, hes]
            exact ⟨rfl, rfl⟩
          obtain ⟨st', hst'⟩ : ∃ st' : QueryLambda L V E,
              st' = ⟨{ conj' with query := q' }, false⟩ := ⟨_, rfl⟩
          -- and then the lambda goes on from there
          obtain ⟨qs, hyields, hmap⟩ := ih (by rw [hst'] : st'.first = false) hstep.2 hlen'
            (by rw [hst']; exact (congrArg List.length hpq').trans hpq) (by rw [hst']; exact hran')
            hevents.2
          rw [hst'] at hyields
          refine ⟨q' :: qs, Yields.returns hcall hyields, ?_⟩
          rw [List.map_cons, List.map_cons, hmap, hran'.abnormalNodes, hevents.1]

/-- **The lambda returns the outcomes of the agent's script**, each once, and then
throws. -/
theorem yields_outcomes (hv : impl.Valid (InContainer nonnull) n) {y : L}
    (hkeyer : hypothesisLinks.lookup keyerPlink = some (.link y)) {conj : Conjecture L V E}
    (hpq : conj.pqDecisions.length = n + pads)
    (hdecisions : conj.query.decisions.length = n + pads)
    (hchoices : conj.query.choices.length = n + pads) :
    ∃ qs, Yields (runRegenerationQuery nonnull impl hypothesisLinks keyerPlink)
        (startRegenerationQuery conj) qs
      ∧ qs.map DecidedQuery.abnormalNodes = impl.outcomes.map (registerAll StdMap.empty) := by
  -- the decisions start empty, which is where every script starts
  have hready : Ready impl n pads (List.replicate n none) conj.start.query := by
    refine ⟨?_, ?_, List.length_replicate, ?_⟩
    · show conj.query.choices.map (fun _ => none) = _
      rw [List.map_const', hchoices, List.replicate_append_replicate]
    · show (conj.query.decisions.map _).length = _
      rw [List.length_map, hdecisions]
    · refine Script.fits_fresh hv ?_
      show ((conj.query.decisions.map _).take n).length = n
      rw [List.length_take, List.length_map, hdecisions]
      omega
  obtain ⟨q', hrun, hran⟩ := runRegenerationQuery_spec hv hkeyer hready
  have hcall : callLambda (runRegenerationQuery nonnull impl hypothesisLinks keyerPlink)
      (startRegenerationQuery conj) = some (some q', ⟨{ conj.start with query := q' }, false⟩) := by
    simp [callLambda, startRegenerationQuery, hrun]
  -- what the script has left then are its events
  obtain ⟨rest, hrest⟩ := Script.remaining_eq_events hv hready.fits
  obtain ⟨st', hst'⟩ : ∃ st' : QueryLambda L V E, st' = ⟨{ conj.start with query := q' }, false⟩ :=
    ⟨_, rfl⟩
  obtain ⟨qs, hyields, hmap⟩ := yields_remaining hv hkeyer rest (by rw [hst'] : st'.first = false)
    hready.fits hready.choices_length (by rw [hst']; exact hpq) (by rw [hst']; exact hran) hrest
  rw [hst'] at hyields
  refine ⟨q' :: qs, Yields.returns hcall hyields, ?_⟩
  -- the first outcome is that of the fresh start
  rw [← Script.remaining_fresh hv, hrest, List.map_cons, List.map_cons, hmap, hran.abnormalNodes]

end

end Inferno.Engine
