/-
  Inferno.Agents.DisjunctionExact
  ───────────────────────────────
  **DISJUNCTIONS, AND HOW MMAX FLOODS THE DISJUNCTS NOT TAKEN.**

    • `Matches`       — the recursive definition of matching,
    • `Satisfies`     — an assignment satisfies the queries of all the agents,
    • `Floods`        — where the links of a satisfying assignment are MMAX,
    • `disjunction_mmax_exact`
                      — an assignment exists iff the pattern matches, and each one floods;
                        a conjunction or disjunction that is restricted to a category
                        matches in it only,
    • `restricted_conjunction_not_matched`
                      — a conjunction of nothing, restricted, at a link outside.
-/
import Inferno.Agents.AgentSpecs
import Inferno.Agents.StarSplits
import Inferno.DB.FlatDatabase

namespace Inferno.Agents

open Inferno.Common
open Inferno.DB
open Inferno.SYM
open Inferno.Lib.TreeAssignment

variable {V L A N D : Type} [LinearOrder V] [LinearOrder L] [DecidableEq A]

/-! ## §1. Matching. -/

namespace PatternTree

variable (T : PatternTree V A D) (db : XTreeDatabase L N A) (isLocalMatchCovariant : D → N → Bool)
  (restricts : V → XLink L → Prop)

/-- **Matching.**  A standard agent matches locally, with its child items matching; a
conjunction iff every conjunct matches the link; a disjunction iff some disjunct does.
The last two under a restriction. -/
inductive Matches : V → XLink L → Prop
  | standard {v : V} {x : XLink L} {patternNode : PatternNode A D} {items : List (PatternItem V)}
      {a : V → XLink L} :
      T.childAgent v = .standard patternNode items →
      T.NodeMatch db isLocalMatchCovariant a patternNode items x →
      (∀ c ∈ T.normalLinks v, Matches c (a c)) → Matches v x
  | conjunction {v : V} {x : XLink L} {preRestriction : PreRestriction A} {conjuncts : List V} :
      T.childAgent v = .conjunction preRestriction conjuncts → restricts v x →
      (∀ c ∈ conjuncts, Matches c x) → Matches v x
  | disjunction {v : V} {x : XLink L} {preRestriction : PreRestriction A} {disjuncts : List V}
      {c : V} :
      T.childAgent v = .disjunction preRestriction disjuncts → restricts v x →
      c ∈ disjuncts → Matches c x → Matches v x

/-- An assignment of a value to every link satisfies the queries of all the agents. -/
structure Satisfies (simpleCompare : Option N → Option N → Int)
    (hypothesisLinks : StdMap V (XLink L)) : Prop where
  assigned : ∀ v, Below T.normalLinks T.base v → ∃ x, hypothesisLinks.lookup v = some x
  satisfied : ∀ v, Below T.normalLinks T.base v →
    ∃ e, T.symbolicNormalLinkedQuery v = some e
      ∧ e.Satisfied
          (predicateEvaluate hypothesisLinks db (kit db simpleCompare isLocalMatchCovariant))

/-- **Where the links are MMAX.** -/
structure Floods (hypothesisLinks : StdMap V (XLink L)) : Prop where
  /-- Below a standard agent or a conjunction, exactly where the agent's own link is. -/
  below : ∀ v, Below T.normalLinks T.base v →
    (∀ preRestriction disjuncts, T.childAgent v ≠ .disjunction preRestriction disjuncts) →
      ∀ c ∈ T.normalLinks v,
        (hypothesisLinks.lookup c = some .MMAX ↔ hypothesisLinks.lookup v = some .MMAX)
  /-- Below a disjunction that is not at MMAX one disjunct is, and the other has its link. -/
  disjuncts : ∀ v, Below T.normalLinks T.base v → ∀ preRestriction disjuncts,
    T.childAgent v = .disjunction preRestriction disjuncts → ∀ x,
      hypothesisLinks.lookup v = some x → x ≠ .MMAX →
        ∃ taken untaken, (disjuncts = [taken, untaken] ∨ disjuncts = [untaken, taken])
          ∧ hypothesisLinks.lookup untaken = some .MMAX ∧ hypothesisLinks.lookup taken = some x
  /-- And all the others are links of the database. -/
  inDomain : ∀ v, Below T.normalLinks T.base v → ∀ x, hypothesisLinks.lookup v = some x →
    InDomain db x

end PatternTree

/-! ## §2. The tree of the normal links. -/

section

variable {T : PatternTree V A D} {v w : V}

omit [LinearOrder V] [DecidableEq A] in
theorem normalLinks_subset : ∀ c ∈ T.normalLinks v, c ∈ (T.childAgent v).links :=
  fun _ hc => (List.mem_filter.mp hc).1

variable (T) in
/-- The normal links make a tree. -/
def PatternTree.forest : Forest T.normalLinks where
  rank := T.rank
  rank_lt v c hc := T.rank_lt v c (normalLinks_subset c hc)
  parent_unique v w c hc hc' :=
    T.parent_unique v w c (normalLinks_subset c hc) (normalLinks_subset c hc')

omit [LinearOrder V] [DecidableEq A] in
/-- Normal links lead to no star. -/
theorem not_star_of_below (hv : T.isStar v = false) (h : Below T.normalLinks v w) :
    T.isStar w = false := by
  induction h with
  | refl => exact hv
  | tail _ hc _ => simpa using (List.mem_filter.mp hc).2

omit [LinearOrder V] [DecidableEq A] in
theorem base_not_star : T.isStar T.base = false := by
  cases h : T.isStar T.base with
  | false => rfl
  | true => exact absurd rfl (T.star_place T.base h).1

omit [LinearOrder V] [DecidableEq A] in
theorem mem_plinks_of_below (h : Below T.normalLinks T.base w) : w ∈ T.plinks := by
  induction h with
  | refl => exact T.base_mem
  | tail _ hc ih => exact T.links_mem _ ih _ (normalLinks_subset _ hc)

omit [LinearOrder V] [DecidableEq A] in
/-- All the links of a conjunction or disjunction are normal. -/
theorem mem_normalLinks_of_links (hfixed : (T.childAgent v).isFixedType = false) {c : V}
    (hc : c ∈ (T.childAgent v).links) : c ∈ T.normalLinks v := by
  refine List.mem_filter.mpr ⟨hc, ?_⟩
  cases hstar : T.isStar c with
  | false => rfl
  | true =>
      have hplace := (T.star_place c hstar).2 v hc
      rw [hfixed] at hplace
      cases hplace

omit [LinearOrder V] [DecidableEq A] in
/-- The conjuncts are normal links. -/
theorem conjunct_mem {preRestriction : PreRestriction A} {conjuncts : List V}
    (hagent : T.childAgent v = .conjunction preRestriction conjuncts) {c : V}
    (hc : c ∈ conjuncts) : c ∈ T.normalLinks v :=
  mem_normalLinks_of_links (by rw [hagent]; rfl) (by rw [hagent]; exact hc)

omit [LinearOrder V] [DecidableEq A] in
/-- The disjuncts are normal links. -/
theorem disjunct_mem {preRestriction : PreRestriction A} {disjuncts : List V}
    (hagent : T.childAgent v = .disjunction preRestriction disjuncts) {c : V}
    (hc : c ∈ disjuncts) : c ∈ T.normalLinks v :=
  mem_normalLinks_of_links (by rw [hagent]; rfl) (by rw [hagent]; exact hc)

end

/-! ## §3. One agent. -/

section

variable {T : PatternTree V A D} {db : XTreeDatabase L N A} {isLocalMatchCovariant : D → N → Bool}
  {a b : V → XLink L} {v : V} {x : XLink L} {patternNode : PatternNode A D}
  {items : List (PatternItem V)}

variable (T db isLocalMatchCovariant) in
/-- The agent's condition holds, of MMAX or a link of the database. -/
def PatternTree.Holds (a : V → XLink L) (v : V) : Prop :=
  T.AgentHolds db isLocalMatchCovariant a v ∧ InDomain db (a v)

omit [LinearOrder V] [DecidableEq A] in
/-- The children of a matched node are links of the database. -/
theorem PatternTree.NodeMatch.child (h : T.NodeMatch db isLocalMatchCovariant a patternNode items x)
    (hagent : T.childAgent v = .standard patternNode items) :
    ∀ c ∈ T.normalLinks v, ∃ y ∈ db.rows.keys, a c = .link y := by
  intro c hc
  obtain ⟨y, hrow, node, _, hchild, hlocal, hitems⟩ := h
  obtain ⟨⟨item, hitem, hcitem⟩, hstar⟩ := (mem_normalLinks_standard hagent).mp hc
  obtain ⟨i, hi⟩ := List.mem_iff_getElem?.mp hitem
  obtain ⟨xItem, hx, hmatch⟩ := forall₂_getElem? hitems hi
  obtain ⟨l, hl, hal⟩ := hmatch.link hcitem hstar
  -- a matched node is of the pattern's class, so the pattern's items are its own
  have hsub : db.isSubcategory patternNode.archetypeNode node = true := by
    by_contra hsub
    rw [Bool.not_eq_true] at hsub
    simp [PatternTree.isLocalMatch, hsub] at hlocal
  have hxmem : xItem ∈ db.itemise node :=
    db.itemiseAs_sub _ node hsub xItem (List.mem_of_getElem? hx)
  -- a singular child is not NULL where it is matched, a member of a container never is
  have hnonnull : (db.childOf l).isSome := by
    by_cases hsingular : xItem = .singular l
    · subst hsingular
      cases item with
      | singular plink =>
          cases plink with
          | none => cases hcitem
          | some p =>
              obtain ⟨hp, hsome⟩ : a p = .link l ∧ (db.childOf l).isSome := hmatch
              exact hsome
      | sequence pattern => cases hmatch
      | collection pattern => cases hmatch
    · exact db.container_nonnull y hrow node (by simp [hchild]) xItem hxmem l hl hsingular
  obtain ⟨j, hj⟩ := List.mem_iff_getElem?.mp hxmem
  obtain ⟨k, hk⟩ := List.mem_iff_getElem?.mp hl
  obtain ⟨row, hrowl, _⟩ := XTreeDatabase.exists_row hrow
    ⟨hchild, List.mem_zipIdx_iff_getElem?.mpr hj, List.mem_zipIdx_iff_getElem?.mpr hk, hnonnull⟩
  exact ⟨l, StdMap.mem_keys_of_lookup hrowl, hal⟩

omit [LinearOrder V] [LinearOrder L] [DecidableEq A] in
theorem PatternTree.NodeMatch.congr
    (h : T.NodeMatch db isLocalMatchCovariant a patternNode items x)
    (hagent : T.childAgent v = .standard patternNode items)
    (hab : ∀ c ∈ T.normalLinks v, a c = b c) :
    T.NodeMatch db isLocalMatchCovariant b patternNode items x := by
  obtain ⟨y, hrow, node, hx, hchild, hlocal, hitems⟩ := h
  refine ⟨y, hrow, node, hx, hchild, hlocal, ?_⟩
  rw [List.forall₂_iff_get] at hitems ⊢
  refine ⟨hitems.1, fun i hi hi' => (hitems.2 i hi hi').congr ?_ (fun p hp hstar => ?_)⟩
  · exact isStar_singular hagent (List.get_mem items ⟨i, hi⟩)
  · exact hab p ((mem_normalLinks_standard hagent).mpr ⟨⟨_, List.get_mem items ⟨i, hi⟩, hp⟩, hstar⟩)

omit [LinearOrder V] [LinearOrder L] in
/-- **The condition of an agent reads its link and its children.** -/
theorem local_agentHolds : Local T.normalLinks (T.Holds db isLocalMatchCovariant) := by
  intro a b v hv hab h
  refine ⟨?_, hv ▸ h.2⟩
  have hholds := h.1
  unfold PatternTree.AgentHolds at hholds ⊢
  -- the children of an autolocating agent are normal links
  have hlinks : (T.childAgent v).isFixedType = false → ∀ c ∈ (T.childAgent v).links, a c = b c :=
    fun hfixed c hc => hab c (mem_normalLinks_of_links hfixed hc)
  cases hagent : T.childAgent v with
  | standard patternNode items =>
      rw [hagent] at hholds
      rcases hholds with ⟨hmmax, hchildren⟩ | hmatch
      · refine Or.inl ⟨hv ▸ hmmax, fun c hc => ?_⟩
        rw [← hab c hc]
        exact hchildren c hc
      · refine Or.inr ?_
        rw [← hv]
        exact hmatch.congr hagent hab
  | conjunction preRestriction conjuncts =>
      rw [hagent] at hholds hlinks
      refine ⟨fun c hc => ?_, hv ▸ hholds.2⟩
      rw [← hlinks rfl c hc, ← hv]
      exact hholds.1 c hc
  | disjunction preRestriction disjuncts =>
      rw [hagent] at hholds hlinks
      obtain ⟨⟨front, back, hpair, hone⟩, hrestricts⟩ := hholds
      refine ⟨⟨front, back, hpair, ?_⟩, hv ▸ hrestricts⟩
      have hfront := hlinks rfl front (by simp [Agent.links, hpair])
      have hback := hlinks rfl back (by simp [Agent.links, hpair])
      rw [← hfront, ← hback, ← hv]
      exact hone
  | star preRestriction =>
      rw [hagent] at hholds
      exact hholds

omit [LinearOrder V] [LinearOrder L] in
/-- **MMAX everywhere** satisfies every agent. -/
theorem agentHolds_mmax (hstar : T.isStar v = false) :
    T.AgentHolds db isLocalMatchCovariant (fun _ => .MMAX) v := by
  unfold PatternTree.AgentHolds
  cases hagent : T.childAgent v with
  | standard patternNode items => exact Or.inl ⟨rfl, fun _ _ => rfl⟩
  | conjunction preRestriction conjuncts => exact ⟨fun _ _ => rfl, Or.inr rfl⟩
  | disjunction preRestriction disjuncts =>
      have htwo := T.two_disjuncts v preRestriction disjuncts hagent
      obtain ⟨front, back, hpair⟩ := List.length_eq_two.mp htwo
      exact ⟨⟨front, back, hpair, Or.inl ⟨rfl, rfl⟩⟩, Or.inr rfl⟩
  | star preRestriction =>
      unfold PatternTree.isStar at hstar
      rw [hagent] at hstar
      cases hstar

omit [LinearOrder V] in
/-- **The step**: an agent at a link of the database or at MMAX has its children there. -/
theorem children_inDomain (h : T.AgentHolds db isLocalMatchCovariant a v)
    (hdom : InDomain db (a v)) : ∀ c ∈ T.normalLinks v, InDomain db (a c) := by
  unfold PatternTree.AgentHolds at h
  intro c hc
  have hlink := normalLinks_subset c hc
  cases hagent : T.childAgent v with
  | standard patternNode items =>
      rw [hagent] at h
      rcases h with ⟨_, hchildren⟩ | hmatch
      · exact Or.inl (hchildren c hc)
      · exact Or.inr (hmatch.child hagent c hc)
  | conjunction preRestriction conjuncts =>
      rw [hagent] at h hlink
      rw [h.1 c hlink]
      exact hdom
  | disjunction preRestriction disjuncts =>
      rw [hagent] at h hlink
      obtain ⟨⟨front, back, hpair, hone⟩, _⟩ := h
      have hcase : c = front ∨ c = back := by simpa [Agent.links, hpair] using hlink
      rcases hone with ⟨hm, hsame⟩ | ⟨hm, hsame⟩ <;> rcases hcase with rfl | rfl
      · exact Or.inl hm
      · exact hsame ▸ hdom
      · exact hsame ▸ hdom
      · exact Or.inl hm
  | star preRestriction =>
      rw [hagent] at h
      exact h.elim

end

/-! ## §4. All the agents. -/

section

variable {T : PatternTree V A D} {db : XTreeDatabase L N A} {isLocalMatchCovariant : D → N → Bool}
  {simpleCompare : Option N → Option N → Int} {hypothesisLinks : StdMap V (XLink L)}
  {a : V → XLink L} {v : V} {x : XLink L}

/-- **The run down the tree**: under an assignment that satisfies all the queries, every
agent's condition holds. -/
theorem holdsBelow_of_satisfies (htyped : T.Typed db) (hne : T.NoEmptySequence)
    (hsat : T.Satisfies db isLocalMatchCovariant simpleCompare hypothesisLinks)
    (hlinks : ∀ v, Below T.normalLinks T.base v → hypothesisLinks.lookup v = some (a v))
    (hdom : InDomain db (a T.base)) :
    HoldsBelow T.normalLinks (T.Holds db isLocalMatchCovariant) a T.base := by
  have hstep : ∀ v, Below T.normalLinks T.base v → InDomain db (a v) →
      T.AgentHolds db isLocalMatchCovariant a v := by
    intro v hv hdomv
    refine (query_iff htyped hne simpleCompare isLocalMatchCovariant
      (not_star_of_below base_not_star hv) (fun p hp => ?_) hdomv).mp (hsat.satisfied v hv)
    rcases hp with rfl | hp
    · exact hlinks _ hv
    · exact hlinks p (hv.tail hp)
  intro v hv
  have hdomv : InDomain db (a v) := by
    induction hv with
    | refl => exact hdom
    | tail hu hc ih => exact children_inDomain (hstep _ hu ih) ih _ hc
  exact ⟨hstep v hv hdomv, hdomv⟩

omit [LinearOrder V] in
/-- **A link at which every agent below holds is matched**, by induction on the rank. -/
theorem matches_of_holdsBelow : ∀ (n : Nat) (v : V), T.rank v < n →
    HoldsBelow T.normalLinks (T.Holds db isLocalMatchCovariant) a v → a v ≠ .MMAX →
      T.Matches db isLocalMatchCovariant (T.Restricts db) v (a v) := by
  intro n
  induction n with
  | zero => intro v hrank; omega
  | succ n ih =>
      intro v hrank hholds hv
      -- the children's parts, matched by the induction hypothesis
      have hparts := holdsBelow_iff.mp hholds
      have hchild : ∀ c ∈ T.normalLinks v, a c ≠ .MMAX →
          T.Matches db isLocalMatchCovariant (T.Restricts db) c (a c) := by
        intro c hc hne
        have hlt := T.rank_lt v c (normalLinks_subset c hc)
        exact ih c (by omega) (hparts.2 c hc) hne
      have hagentHolds := hparts.1.1
      unfold PatternTree.AgentHolds at hagentHolds
      cases hagent : T.childAgent v with
      -- a standard node, not at MMAX, matches with its children at links
      | standard patternNode items =>
          rw [hagent] at hagentHolds
          rcases hagentHolds with ⟨hmmax, _⟩ | hmatch
          · exact absurd hmmax hv
          · refine PatternTree.Matches.standard hagent hmatch (fun c hc => hchild c hc ?_)
            obtain ⟨y, _, hy⟩ := hmatch.child hagent c hc
            rw [hy]
            simp
      -- the conjuncts are all at the link of the conjunction
      | conjunction preRestriction conjuncts =>
          rw [hagent] at hagentHolds
          have hrestricts := hagentHolds.2.resolve_right hv
          refine PatternTree.Matches.conjunction hagent hrestricts (fun c hc => ?_)
          have hsame : a c = a v := hagentHolds.1 c hc
          have hmem : c ∈ T.normalLinks v := conjunct_mem hagent hc
          have hc' := hchild c hmem (by rw [hsame]; exact hv)
          rwa [hsame] at hc'
      | disjunction preRestriction disjuncts =>
          rw [hagent] at hagentHolds
          obtain ⟨⟨front, back, hpair, hone⟩, hrestricts⟩ := hagentHolds
          -- one disjunct is at MMAX and the other has the link
          have hrestricts' := hrestricts.resolve_right hv
          -- the taken disjunct has the link
          have htaken : ∀ c ∈ disjuncts, a c = a v →
              T.Matches db isLocalMatchCovariant (T.Restricts db) v (a v) := by
            intro c hc hsame
            have hmem : c ∈ T.normalLinks v := disjunct_mem hagent hc
            have hc' := hchild c hmem (by rw [hsame]; exact hv)
            rw [hsame] at hc'
            exact PatternTree.Matches.disjunction hagent hrestricts' hc hc'
          rcases hone with ⟨_, hsame⟩ | ⟨_, hsame⟩
          · exact htaken back (by simp [hpair]) hsame
          · exact htaken front (by simp [hpair]) hsame
      | star preRestriction =>
          rw [hagent] at hagentHolds
          exact hagentHolds.elim

omit [LinearOrder V] [LinearOrder L] in
/-- MMAX at a vertex and all below it holds. -/
theorem holdsBelow_mmax (hstar : T.isStar v = false) :
    HoldsBelow T.normalLinks (T.Holds db isLocalMatchCovariant) (fun _ => .MMAX) v :=
  fun _ hw => ⟨agentHolds_mmax (not_star_of_below hstar hw), Or.inl rfl⟩

omit [LinearOrder V] [LinearOrder L] in
/-- Parts below the children of an agent, glued at a link where its condition holds. -/
theorem exists_glued (hdom : InDomain db x)
    (hparts : ∀ c ∈ T.normalLinks v, ∃ b : V → XLink L, b c = a c
      ∧ HoldsBelow T.normalLinks (T.Holds db isLocalMatchCovariant) b c)
    (hv : ∀ b : V → XLink L, b v = x → (∀ c ∈ T.normalLinks v, b c = a c) →
      T.AgentHolds db isLocalMatchCovariant b v) :
    ∃ b : V → XLink L, b v = x
      ∧ HoldsBelow T.normalLinks (T.Holds db isLocalMatchCovariant) b v := by
  obtain ⟨b, hb, _, hholds⟩ := T.forest.glue local_agentHolds hparts
    (fun b hb hbc => ⟨hv b hb hbc, hb ▸ hdom⟩)
  exact ⟨b, hb, hholds⟩

/-- **A matched link extends below**, by induction on the matching: the parts below the
children are glued. -/
theorem exists_of_matches
    (h : T.Matches db isLocalMatchCovariant (T.Restricts db) v x) (hdom : InDomain db x) :
    ∃ b : V → XLink L, b v = x ∧ HoldsBelow T.normalLinks (T.Holds db isLocalMatchCovariant) b v := by
  induction h with
  -- the children's links are those of the local match
  | @standard v x patternNode items a hagent hmatch _ ih =>
      refine exists_glued (a := a) hdom
        (fun c hc => ih c hc (Or.inr (hmatch.child hagent c hc))) (fun b hb hbc => ?_)
      unfold PatternTree.AgentHolds
      rw [hagent]
      show T.StandardHolds db isLocalMatchCovariant b v patternNode items
      refine Or.inr ?_
      rw [hb]
      exact hmatch.congr hagent (fun c hc => (hbc c hc).symm)
  -- every conjunct takes the same link
  | @conjunction v x preRestriction conjuncts hagent hrestricts _ ih =>
      have hmem : ∀ c ∈ T.normalLinks v, c ∈ conjuncts := by
        intro c hc
        have hlink := normalLinks_subset c hc
        rwa [hagent] at hlink
      refine exists_glued (a := fun _ => x) hdom (fun c hc => ih c (hmem c hc) hdom)
        (fun b hb hbc => ?_)
      unfold PatternTree.AgentHolds
      rw [hagent]
      show T.ConjunctionHolds db b v conjuncts
      refine ⟨fun c hc => ?_, Or.inl (by rw [hb]; exact hrestricts)⟩
      rw [hbc c (conjunct_mem hagent hc), hb]
  | @disjunction v x preRestriction disjuncts c hagent hrestricts hc _ ih =>
      -- the disjuncts not taken are at MMAX, with all below them
      refine exists_glued (a := fun w => if w = c then x else .MMAX) hdom (fun w hw => ?_)
        (fun b hb hbc => ?_)
      · show ∃ b : V → XLink L, b w = (if w = c then x else .MMAX) ∧ _
        by_cases hwc : w = c
        · rw [if_pos hwc, hwc]
          exact ih hdom
        · rw [if_neg hwc]
          have hstar : T.isStar w = false := by simpa using (List.mem_filter.mp hw).2
          exact ⟨fun _ => .MMAX, rfl, holdsBelow_mmax hstar⟩
      · unfold PatternTree.AgentHolds
        rw [hagent]
        refine ⟨?_, Or.inl (by rw [hb]; exact hrestricts)⟩
        -- the disjunct taken has the link, the other is at MMAX
        have hlink : ∀ w ∈ disjuncts, b w = if w = c then x else .MMAX :=
          fun w hw => hbc w (disjunct_mem hagent hw)
        obtain ⟨front, back, hpair⟩ :=
          List.length_eq_two.mp (T.two_disjuncts v preRestriction disjuncts hagent)
        have hapart : front ≠ back := by
          have hnodup := T.links_nodup v
          rw [hagent] at hnodup
          simpa [Agent.links, hpair] using hnodup
        have hfront := hlink front (by simp [hpair])
        have hback := hlink back (by simp [hpair])
        have hcase : c = front ∨ c = back := by simpa [hpair] using hc
        refine ⟨front, back, hpair, ?_⟩
        rcases hcase with rfl | rfl
        · refine Or.inr ⟨?_, ?_⟩
          · rw [hback, if_neg hapart.symm]
          · rw [hfront, if_pos rfl, hb]
        · refine Or.inl ⟨?_, ?_⟩
          · rw [hfront, if_neg hapart]
          · rw [hback, if_pos rfl, hb]

omit [LinearOrder V] in
/-- **The MMAX links** of an assignment under which every agent's condition holds. -/
theorem floods_of_holdsBelow
    (hlinks : ∀ v, Below T.normalLinks T.base v → hypothesisLinks.lookup v = some (a v))
    (hholds : HoldsBelow T.normalLinks (T.Holds db isLocalMatchCovariant) a T.base) :
    T.Floods db hypothesisLinks := by
  have hagents : ∀ v, Below T.normalLinks T.base v →
      T.AgentHolds db isLocalMatchCovariant a v := fun v hv => (hholds v hv).1
  constructor
  · intro v hv hnot c hc
    have hagentHolds := hagents v hv
    rw [hlinks c (hv.tail hc), hlinks v hv, Option.some.injEq, Option.some.injEq]
    have hlink := normalLinks_subset c hc
    unfold PatternTree.AgentHolds at hagentHolds
    -- one case per agent; below a disjunction the links differ
    cases hagent : T.childAgent v with
    | standard patternNode items =>
        rw [hagent] at hagentHolds
        rcases hagentHolds with ⟨hmmax, hchildren⟩ | hmatch
        · exact iff_of_true (hchildren c hc) hmmax
        · obtain ⟨y, _, hy⟩ := hmatch.child hagent c hc
          obtain ⟨z, _, _, hz, _⟩ := hmatch
          rw [hy, hz]
          simp
    | conjunction preRestriction conjuncts =>
        rw [hagent] at hagentHolds hlink
        rw [show a c = a v from hagentHolds.1 c hlink]
    | disjunction preRestriction disjuncts => exact absurd hagent (hnot _ _)
    | star preRestriction =>
        rw [hagent] at hagentHolds
        exact hagentHolds.elim
  · -- of two disjuncts, the one that is at MMAX floods
    intro v hv preRestriction disjuncts hagent x hx _
    have hagentHolds := hagents v hv
    unfold PatternTree.AgentHolds at hagentHolds
    rw [hagent] at hagentHolds
    obtain ⟨⟨front, back, hpair, hone⟩, _⟩ := hagentHolds
    have hvx : a v = x := by
      rw [hlinks v hv] at hx
      exact Option.some.inj hx
    have hlookup : ∀ c ∈ disjuncts, hypothesisLinks.lookup c = some (a c) := by
      intro c hc
      exact hlinks c (hv.tail (disjunct_mem hagent hc))
    have hfront := hlookup front (by simp [hpair])
    have hback := hlookup back (by simp [hpair])
    rcases hone with ⟨hm, hsame⟩ | ⟨hm, hsame⟩
    · exact ⟨back, front, Or.inr hpair, by rw [hfront, hm], by rw [hback, hsame, hvx]⟩
    · exact ⟨front, back, Or.inl hpair, by rw [hback, hm], by rw [hfront, hsame, hvx]⟩
  · intro v hv x hx
    rw [hlinks v hv] at hx
    rw [← Option.some.inj hx]
    exact (hholds v hv).2

/-- **A matched base has a satisfying assignment.** -/
theorem exists_satisfies (htyped : T.Typed db) (hne : T.NoEmptySequence)
    (hmatches : T.Matches db isLocalMatchCovariant (T.Restricts db) T.base x)
    (hdom : InDomain db x) :
    ∃ hypothesisLinks : StdMap V (XLink L), hypothesisLinks.lookup T.base = some x
      ∧ T.Satisfies db isLocalMatchCovariant simpleCompare hypothesisLinks := by
  obtain ⟨b, hb, hholds⟩ := exists_of_matches hmatches hdom
  let hypothesisLinks : StdMap V (XLink L) :=
    { lookup := fun v => if v ∈ T.plinks then some (b v) else none
      keys := T.plinks
      mem_keys := by
        intro v
        by_cases hv : v ∈ T.plinks <;> simp [hv] }
  have hlinks : ∀ v, Below T.normalLinks T.base v → hypothesisLinks.lookup v = some (b v) :=
    fun v hv => if_pos (mem_plinks_of_below hv)
  refine ⟨hypothesisLinks, ?_, ⟨fun v hv => ⟨b v, hlinks v hv⟩, fun v hv => ?_⟩⟩
  · rw [hlinks T.base Below.refl, hb]
  · refine (query_iff htyped hne simpleCompare isLocalMatchCovariant
      (not_star_of_below base_not_star hv) (fun p hp => ?_) (hholds v hv).2).mpr (hholds v hv).1
    rcases hp with rfl | hp
    · exact hlinks _ hv
    · exact hlinks p (hv.tail hp)

end

/-! ## §5. Which agents restrict. -/

section

variable {T : PatternTree V A D} {db : XTreeDatabase L N A} {isLocalMatchCovariant : D → N → Bool}
  {restricts restricts' : V → XLink L → Prop} {v : V} {x : XLink L}

omit [LinearOrder L] [LinearOrder V] [DecidableEq A] in
/-- Matching reads the restriction of conjunctions and disjunctions. -/
theorem PatternTree.Matches.mono
    (h : T.Matches db isLocalMatchCovariant restricts v x) (hv : T.isStar v = false)
    (hrestricts : ∀ v, T.isStar v = false → (T.childAgent v).isFixedType = false →
      ∀ x, restricts v x → restricts' v x) :
    T.Matches db isLocalMatchCovariant restricts' v x := by
  have hnormal : ∀ {w c : V}, c ∈ T.normalLinks w → T.isStar c = false :=
    fun hc => by simpa using (List.mem_filter.mp hc).2
  induction h with
  | standard hagent hmatch _ ih =>
      exact PatternTree.Matches.standard hagent hmatch (fun c hc => ih c hc (hnormal hc))
  | conjunction hagent hx _ ih =>
      refine PatternTree.Matches.conjunction hagent (hrestricts _ hv (by rw [hagent]; rfl) _ hx) ?_
      exact fun c hc => ih c hc (hnormal (conjunct_mem hagent hc))
  | disjunction hagent hx hc _ ih =>
      exact PatternTree.Matches.disjunction hagent (hrestricts _ hv (by rw [hagent]; rfl) _ hx) hc
        (ih (hnormal (disjunct_mem hagent hc)))

omit [LinearOrder V] [DecidableEq A] in
/-- **Where every conjunction has a conjunct, every agent is of a fixed type**, itself or
by its children; by induction on the rank. -/
theorem isSelfOrChildrenFixedType_of_conjuncts
    (hconjuncts : ∀ v preRestriction conjuncts,
      T.childAgent v = .conjunction preRestriction conjuncts → conjuncts ≠ []) :
    ∀ (n : Nat) (v : V), T.rank v < n → T.isStar v = false →
      T.isSelfOrChildrenFixedType v = true := by
  intro n
  induction n with
  | zero => intro v hrank; omega
  | succ n ih =>
      intro v hrank hstar
      have hchild : ∀ c ∈ T.normalLinks v, T.isSelfOrChildrenFixedType c = true := by
        intro c hc
        have hlt := T.rank_lt v c (normalLinks_subset c hc)
        exact ih c (by omega) (by simpa using (List.mem_filter.mp hc).2)
      unfold PatternTree.isSelfOrChildrenFixedType
      split
      next => rfl
      next preRestriction conjuncts hagent =>
        obtain ⟨c, hc⟩ := List.exists_mem_of_ne_nil _ (hconjuncts v preRestriction conjuncts hagent)
        exact List.any_eq_true.mpr
          ⟨⟨c, hc⟩, List.mem_attach _ _, hchild c (conjunct_mem hagent hc)⟩
      next preRestriction disjuncts hagent =>
        exact List.all_eq_true.mpr (fun c _ => hchild c.1 (disjunct_mem hagent c.2))
      next preRestriction hagent =>
        unfold PatternTree.isStar at hstar
        rw [hagent] at hstar
        cases hstar

omit [LinearOrder L] [LinearOrder V] in
/-- So no conjunction or disjunction generates a category clause. -/
theorem restricts_of_conjuncts
    (hconjuncts : ∀ v preRestriction conjuncts,
      T.childAgent v = .conjunction preRestriction conjuncts → conjuncts ≠ [])
    (hstar : T.isStar v = false) (hfixed : (T.childAgent v).isFixedType = false) :
    T.Restricts db v x := by
  have hself := isSelfOrChildrenFixedType_of_conjuncts hconjuncts (T.rank v + 1) v
    (Nat.lt_succ_self _) hstar
  have htrivial : T.isNonTrivialPreRestriction v = false := by
    unfold PatternTree.isNonTrivialPreRestriction PatternTree.isNonTrivialCommon
    rw [hself]
    split <;> rfl
  intro archetypeNode hmem
  unfold PatternTree.restriction PatternTree.shouldGenerateCategoryClause at hmem
  rw [Option.mem_def, Option.filter_eq_some_iff] at hmem
  have hgenerates := hmem.2
  rw [hmem.1, hfixed, htrivial] at hgenerates
  simp at hgenerates

end

/-! ## §6. The whole pattern. -/

/-- **DISJUNCTION AND MMAX, EXACT.**  Over a pattern in which no sequence is empty, with
the base at a link of the database, some assignment satisfies all the queries iff the
pattern matches there, where an agent that generates a category clause matches in its
category only, which no conjunction or disjunction does where every conjunction has a
conjunct; and every such assignment floods. -/
theorem disjunction_mmax_exact (T : PatternTree V A D) (db : XTreeDatabase L N A)
    (isLocalMatchCovariant : D → N → Bool) (simpleCompare : Option N → Option N → Int)
    (htyped : T.Typed db) (hne : T.NoEmptySequence) {x : L} (hx : x ∈ db.rows.keys) :
    ((∃ hypothesisLinks : StdMap V (XLink L),
        hypothesisLinks.lookup T.base = some (.link x)
          ∧ T.Satisfies db isLocalMatchCovariant simpleCompare hypothesisLinks)
      ↔ T.Matches db isLocalMatchCovariant (T.Restricts db) T.base (.link x))
    ∧ ((∀ v preRestriction conjuncts,
        T.childAgent v = .conjunction preRestriction conjuncts → conjuncts ≠ []) →
      (T.Matches db isLocalMatchCovariant (T.Restricts db) T.base (.link x)
        ↔ T.Matches db isLocalMatchCovariant (fun _ _ => True) T.base (.link x)))
    ∧ ∀ hypothesisLinks : StdMap V (XLink L),
        hypothesisLinks.lookup T.base = some (.link x) →
        T.Satisfies db isLocalMatchCovariant simpleCompare hypothesisLinks →
          T.Floods db hypothesisLinks := by
  have hdom : InDomain db (.link x) := Or.inr ⟨x, hx, rfl⟩
  -- the values of a satisfying assignment
  have hvalues : ∀ hypothesisLinks : StdMap V (XLink L),
      hypothesisLinks.lookup T.base = some (.link x) →
      T.Satisfies db isLocalMatchCovariant simpleCompare hypothesisLinks →
        ∃ a : V → XLink L, a T.base = .link x
          ∧ (∀ v, Below T.normalLinks T.base v → hypothesisLinks.lookup v = some (a v))
          ∧ HoldsBelow T.normalLinks (T.Holds db isLocalMatchCovariant) a T.base := by
    intro hypothesisLinks hbase hsat
    let a : V → XLink L := fun v => (hypothesisLinks.lookup v).getD .MMAX
    have hlinks : ∀ v, Below T.normalLinks T.base v → hypothesisLinks.lookup v = some (a v) := by
      intro v hv
      obtain ⟨u, hu⟩ := hsat.assigned v hv
      show hypothesisLinks.lookup v = some ((hypothesisLinks.lookup v).getD .MMAX)
      rw [hu]
      rfl
    have hab : a T.base = .link x := by
      have h := hlinks T.base Below.refl
      rw [hbase] at h
      exact (Option.some.inj h).symm
    exact ⟨a, hab, hlinks, holdsBelow_of_satisfies htyped hne hsat hlinks (hab ▸ hdom)⟩
  refine ⟨⟨?_, fun hmatches => exists_satisfies htyped hne hmatches hdom⟩, ?_, ?_⟩
  · -- an assignment gives a match at the base
    intro h
    obtain ⟨hypothesisLinks, hbase, hsat⟩ := h
    obtain ⟨a, hab, _, hholds⟩ := hvalues hypothesisLinks hbase hsat
    have hne' : a T.base ≠ .MMAX := by
      rw [hab]
      simp
    exact hab ▸ matches_of_holdsBelow (T.rank T.base + 1) T.base (Nat.lt_succ_self _) hholds hne'
  · -- without a restriction on an empty conjunction, no category is asked for
    intro hconjuncts
    constructor
    · intro hmatches
      exact hmatches.mono base_not_star (fun _ _ _ _ _ => trivial)
    · intro hmatches
      exact hmatches.mono base_not_star
        (fun v hstar hfixed x _ => restricts_of_conjuncts hconjuncts hstar hfixed)
  · intro hypothesisLinks hbase hsat
    obtain ⟨a, _, hlinks, hholds⟩ := hvalues hypothesisLinks hbase hsat
    exact floods_of_holdsBelow hlinks hholds

/-- A root with a disjunction and a conjunction in its sequence; the front disjunct is a
root in its turn. -/
def disjunctionAgent : Nat → Agent Nat Nat Unit
  | 0 => .standard ⟨1, ()⟩ [.sequence [1, 2]]
  | 1 => .disjunction ⟨some 0, some 0⟩ [3, 4]
  | 2 => .conjunction ⟨some 0, some 0⟩ [5]
  | 3 => .standard ⟨1, ()⟩ [.sequence [6]]
  | _ => .standard ⟨2, ()⟩ []

theorem mem_links_disjunctionAgent {v c : Nat} (hc : c ∈ (disjunctionAgent v).links) :
    (v, c) ∈ [(0, 1), (0, 2), (1, 3), (1, 4), (2, 5), (3, 6)] := by
  match v with
  | 0 => revert c; decide
  | 1 => revert c; decide
  | 2 => revert c; decide
  | 3 => revert c; decide
  | v + 4 => cases hc

/-- That pattern. -/
def disjunctionTree : PatternTree Nat Nat Unit where
  base := 0
  childAgent := disjunctionAgent
  treePtrType _ := 0
  nodeType := 0
  plinks := Finset.range 7
  rank v := 7 - v
  base_mem := by simp
  links_mem := by
    intro v _ c hc
    have hedges : ∀ e ∈ [(0, 1), (0, 2), (1, 3), (1, 4), (2, 5), (3, 6)], e.2 ∈ Finset.range 7 := by
      decide
    exact hedges _ (mem_links_disjunctionAgent hc)
  rank_lt := by
    intro v c hc
    have hedges : ∀ e ∈ [(0, 1), (0, 2), (1, 3), (1, 4), (2, 5), (3, 6)], 7 - e.2 < 7 - e.1 := by
      decide
    exact hedges _ (mem_links_disjunctionAgent hc)
  parent_unique := by
    intro v w c hc hc'
    have hedges : ∀ e ∈ [(0, 1), (0, 2), (1, 3), (1, 4), (2, 5), (3, 6)],
        ∀ e' ∈ [(0, 1), (0, 2), (1, 3), (1, 4), (2, 5), (3, 6)], e.2 = e'.2 → e.1 = e'.1 := by
      decide
    exact hedges _ (mem_links_disjunctionAgent hc) _ (mem_links_disjunctionAgent hc') rfl
  links_nodup := by
    intro v
    match v with
    | 0 => decide
    | 1 => decide
    | 2 => decide
    | 3 => decide
    | v + 4 => exact List.nodup_nil
  star_place := by
    intro v hv
    match v with
    | 0 => cases hv
    | 1 => cases hv
    | 2 => cases hv
    | 3 => cases hv
    | v + 4 => cases hv
  star_item := by
    intro v patternNode items hagent item hitem
    match v with
    | 0 => cases hagent; rw [List.mem_singleton.mp hitem]; trivial
    | 1 => cases hagent
    | 2 => cases hagent
    | 3 => cases hagent; rw [List.mem_singleton.mp hitem]; trivial
    | v + 4 => cases hagent; cases hitem
  two_disjuncts := by
    intro v _ _ hagent
    match v with
    | 0 => cases hagent
    | 1 => cases hagent; rfl
    | 2 => cases hagent
    | 3 => cases hagent
    | v + 4 => cases hagent

/-- It matches a root with two leaves: the back disjunct is taken. -/
theorem disjunctionTree_matches :
    disjunctionTree.Matches (classedDatabase twoLeaves) (fun _ _ => true) (fun _ _ => True) 0
      (.link 0) := by
  -- the leaves match at the two leaf agents
  have hleaf : ∀ v (x : Nat), disjunctionAgent v = .standard ⟨2, ()⟩ [] → x = 1 ∨ x = 2 →
      disjunctionTree.Matches (classedDatabase twoLeaves) (fun _ _ => true) (fun _ _ => True) v
        (.link x) := by
    intro v x hagent hx
    have hmatch : disjunctionTree.NodeMatch (classedDatabase twoLeaves) (fun _ _ => true)
        (fun _ => .MMAX) ⟨2, ()⟩ [] (.link x) := by
      rcases hx with rfl | rfl
      · exact ⟨1, by show 1 ∈ Finset.range 3; simp, 1, rfl, rfl, rfl, List.Forall₂.nil⟩
      · exact ⟨2, by show 2 ∈ Finset.range 3; simp, 2, rfl, rfl, rfl, List.Forall₂.nil⟩
    refine PatternTree.Matches.standard hagent hmatch (fun c hc => ?_)
    have hlinks := normalLinks_subset c hc
    rw [show disjunctionTree.childAgent v = .standard ⟨2, ()⟩ [] from hagent] at hlinks
    cases hlinks
  have hfront : disjunctionTree.Matches (classedDatabase twoLeaves) (fun _ _ => true)
      (fun _ _ => True) 1 (.link 1) :=
    PatternTree.Matches.disjunction (c := 4) rfl trivial (by simp) (hleaf 4 1 rfl (Or.inl rfl))
  have hback : disjunctionTree.Matches (classedDatabase twoLeaves) (fun _ _ => true)
      (fun _ _ => True) 2 (.link 2) := by
    refine PatternTree.Matches.conjunction rfl trivial (fun c hc => ?_)
    rw [List.mem_singleton.mp hc]
    exact hleaf 5 2 rfl (Or.inr rfl)
  -- the root takes the two links of the sequence in order
  have hroot : disjunctionTree.NodeMatch (classedDatabase twoLeaves) (fun _ _ => true)
      (fun v => .link v) ⟨1, ()⟩ [.sequence [1, 2]] (.link 0) := by
    refine ⟨0, by show 0 ∈ Finset.range 3; simp, 0, rfl, rfl, rfl, List.Forall₂.cons ?_ .nil⟩
    show Lib.Wildcard.Matches _ [some 1, some 2] _
    exact Lib.Wildcard.Matches.letter 1 (Lib.Wildcard.Matches.letter 2 Lib.Wildcard.Matches.nil)
  refine PatternTree.Matches.standard rfl hroot (fun c hc => ?_)
  have hcase : c ∈ [1, 2] := normalLinks_subset c hc
  rw [List.mem_pair] at hcase
  rcases hcase with rfl | rfl
  · exact hfront
  · exact hback

theorem disjunctionTree_typed : disjunctionTree.Typed (classedDatabase twoLeaves) where
  mmax := rfl
  items := by
    have hroot : ∀ node, (classedDatabase twoLeaves).isSubcategory 1 node = true → node = 0 := by
      intro node h
      by_contra hne
      have hnode : (1 : Nat) = 0 ∨ 1 = if node = 0 then 1 else 2 := by
        simpa [classedDatabase, XTreeDatabase.withArchetypes, XTrees.withArchetypes] using h
      simp [hne] at hnode
    have hsequence : ∀ node, (classedDatabase twoLeaves).isSubcategory 1 node = true →
        ∀ pattern : List Nat, List.Forall₂ SameKind [PatternItem.sequence pattern]
          ((classedDatabase twoLeaves).itemiseAs 1 node) := by
      intro node h pattern
      rw [hroot node h]
      exact List.Forall₂.cons trivial List.Forall₂.nil
    intro v patternNode items hagent node hsub
    rcases v with _ | _ | _ | _ | v
    · cases hagent
      exact hsequence node hsub _
    · cases hagent
    · cases hagent
    · cases hagent
      exact hsequence node hsub _
    · cases hagent
      exact List.Forall₂.nil

/-- The parts of the theorem, of that pattern over that root. -/
theorem disjunction_mmax_exact_disjunctionTree :
    ∃ hypothesisLinks : StdMap Nat (XLink Nat),
      hypothesisLinks.lookup 0 = some (.link 0)
        ∧ disjunctionTree.Satisfies (classedDatabase twoLeaves) (fun _ _ => true) (fun _ _ => 0)
            hypothesisLinks
        ∧ disjunctionTree.Floods (classedDatabase twoLeaves) hypothesisLinks := by
  -- no agent of the tree has an empty sequence, and the conjunction has a child
  have hne : disjunctionTree.NoEmptySequence := by
    intro v patternNode items hagent
    match v with
    | 0 => cases hagent; simp
    | 1 => cases hagent
    | 2 => cases hagent
    | 3 => cases hagent; simp
    | v + 4 => cases hagent; simp
  have hconjuncts : ∀ v preRestriction conjuncts,
      disjunctionTree.childAgent v = .conjunction preRestriction conjuncts → conjuncts ≠ [] := by
    intro v preRestriction conjuncts hagent
    match v with
    | 0 => cases hagent
    | 1 => cases hagent
    | 2 => cases hagent; decide
    | 3 => cases hagent
    | v + 4 => cases hagent
  have hexact := disjunction_mmax_exact disjunctionTree (classedDatabase twoLeaves)
    (fun _ _ => true) (fun _ _ => 0) disjunctionTree_typed hne
    (show 0 ∈ (classedDatabase twoLeaves).rows.keys by show 0 ∈ Finset.range 3; simp)
  obtain ⟨hypothesisLinks, hbase, hsat⟩ :=
    hexact.1.mpr ((hexact.2.1 hconjuncts).mpr disjunctionTree_matches)
  exact ⟨hypothesisLinks, hbase, hsat, hexact.2.2 hypothesisLinks hbase hsat⟩

/-- A pattern of one agent. -/
def oneAgent (agent : Agent Nat Nat Unit) (hlinks : agent.links = []) (hstar : agent.isStar = false)
    (hdisjunction : ∀ preRestriction disjuncts, agent ≠ .disjunction preRestriction disjuncts) :
    PatternTree Nat Nat Unit where
  base := 0
  childAgent _ := agent
  treePtrType _ := 0
  nodeType := 0
  plinks := {0}
  rank _ := 0
  base_mem := Finset.mem_singleton_self 0
  links_mem := by simp [hlinks]
  rank_lt := by simp [hlinks]
  parent_unique := by simp [hlinks]
  links_nodup := by simp [hlinks]
  star_place := by simp [hstar]
  star_item := by
    intro _ _ _ _ item _
    cases item <;> simp [hstar]
  two_disjuncts := by
    intro _ preRestriction disjuncts h
    exact absurd h (hdisjunction preRestriction disjuncts)

/-- Link 0 for the base. -/
def baseLink (x : Nat) : StdMap Nat (XLink Nat) :=
  StdMap.empty.set 0 (.link x)

/-- **A conjunction of nothing matches anywhere**, but when restricted to the class of the
root it is satisfied by no assignment at a leaf.  And a pattern node with an empty
sequence does not match a root with two leaves in its own, but an assignment satisfies
it. -/
theorem restricted_conjunction_not_matched :
    ((oneAgent (.conjunction ⟨some 1, some 1⟩ []) rfl rfl (by simp)).Matches
        (classedDatabase twoLeaves) (fun _ _ => true) (fun _ _ => True) 0 (.link 1)
      ∧ ¬ ∃ hypothesisLinks : StdMap Nat (XLink Nat),
          hypothesisLinks.lookup 0 = some (.link 1)
            ∧ (oneAgent (.conjunction ⟨some 1, some 1⟩ []) rfl rfl (by simp)).Satisfies
                (classedDatabase twoLeaves) (fun _ _ => true) (fun _ _ => 0) hypothesisLinks)
    ∧ (¬ (oneAgent (.standard ⟨1, ()⟩ [.sequence []]) rfl rfl (by simp)).Matches
        (classedDatabase twoLeaves) (fun _ _ => true) (fun _ _ => True) 0 (.link 0)
      ∧ (baseLink 0).lookup 0 = some (.link 0)
      ∧ (oneAgent (.standard ⟨1, ()⟩ [.sequence []]) rfl rfl (by simp)).Satisfies
          (classedDatabase twoLeaves) (fun _ _ => true) (fun _ _ => 0) (baseLink 0)) := by
  refine ⟨⟨?_, ?_⟩, ?_, rfl, ?_⟩
  · exact PatternTree.Matches.conjunction rfl trivial (by simp)
  · intro h
    obtain ⟨hypothesisLinks, hbase, hsat⟩ := h
    -- the query of the only agent, as a condition on its link
    have hholds := (query_iff (a := fun _ => .link 1) ⟨by simp [oneAgent], rfl⟩
      (by simp [oneAgent, PatternTree.NoEmptySequence]) (fun _ _ => 0) (fun _ _ => true) rfl
      (by simp [PatternTree.Known, PatternTree.normalLinks, oneAgent, Agent.links, hbase])
      (Or.inr ⟨1, by show 1 ∈ Finset.range 3; simp, rfl⟩)).mp (hsat.satisfied 0 Below.refl)
    have hrestricts : PatternTree.Restricts _ _ _ _ := hholds.2.resolve_right (by simp)
    -- the leaf is not of the class of the root
    have hsub := hrestricts 1 (by
      unfold PatternTree.restriction PatternTree.shouldGenerateCategoryClause
        PatternTree.isNonTrivialPreRestriction PatternTree.isNonTrivialCommon
        PatternTree.isSelfOrChildrenFixedType
      rfl)
    cases hsub
  · -- a local match would pair an empty item with one of two leaves
    intro h
    cases h with
    | standard hagent hmatch _ =>
        cases hagent
        obtain ⟨y, _, node, hy, hchild, _, hitems⟩ := hmatch
        cases hy
        cases hchild
        cases hitems with
        | cons hitem _ => cases hitem
    | conjunction hagent _ _ => cases hagent
    | disjunction hagent _ _ _ => cases hagent
  · -- nothing is below the base
    have hbelow : ∀ v, Below (oneAgent (.standard ⟨1, ()⟩ [.sequence []]) rfl rfl
        (by simp)).normalLinks 0 v → v = 0 := by
      intro v hv
      rcases below_iff.mp hv with h | ⟨c, hc, _⟩
      · exact h
      · cases hc
    constructor
    · intro v hv
      rw [hbelow v hv]
      exact ⟨_, rfl⟩
    · intro v hv
      rw [hbelow v hv]
      refine ⟨_, rfl, ?_⟩
      show BooleanExpression.evaluate _ _ = some true
      decide +kernel

end Inferno.Agents
