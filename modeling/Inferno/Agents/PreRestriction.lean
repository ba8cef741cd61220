/-
  Inferno.Agents.PreRestriction
  ─────────────────────────────
  **CATEGORY CLAUSES THAT ARE LEFT OUT.**  Patterns of standard, conjunction, disjunction and
  negation agents, and the categories of the XLinks that a solution assigns.

    • `BooleanPattern` — such a pattern; `engine` is what one and-rule engine sees of it,
    • `TypeSafe`       — what the types of the tree pointers promise of an input program,
    • `isPreRestrictionMatch` — whether an XLink is in an agent's own category,
    • `Located`        — the agents that are at one XLink, unless they are at MMAX,
    • `Guarded`        — no node passes the clauses there that fails the agent's category,
    • `preRestriction_exact`
                       — a solution assigns XLinks in the agents' categories iff it does so
                         for the agents that are not guarded,
    • `narrowConjunction_not_matched`
                       — a conjunction that leaves its clause to a more general agent.
-/
import Inferno.Agents.DisjunctionExact

namespace Inferno.Agents

open Inferno.Common
open Inferno.DB
open Inferno.SYM
open Inferno.SYM.BooleanExpression
open Inferno.Lib.TreeAssignment

variable {V L A N D : Type}

/-! ## §1. Patterns. -/

/-- An agent, with the links in its items. -/
inductive BooleanAgent (V A D : Type) where
  | standard (patternNode : PatternNode A D) (items : List (PatternItem V))
  | conjunction (preRestriction : PreRestriction A) (conjuncts : List V)
  | disjunction (preRestriction : PreRestriction A) (disjuncts : List V)
  | negation (preRestriction : PreRestriction A) (negand : V)

namespace BooleanAgent

/-- The links in the agent's items. -/
def links : BooleanAgent V A D → List V
  | .standard _ items => items.flatMap PatternItem.links
  | .conjunction _ conjuncts => conjuncts
  | .disjunction _ disjuncts => disjuncts
  | .negation _ negand => [negand]

/-- What an and-rule engine asks of an agent.  The link of a negation is abnormal; its query,
and what it says of restriction, are `AutolocatingAgent`'s over no normal links, as are those
of a conjunction of nothing. -/
def searched : BooleanAgent V A D → Agent V A D
  | .standard patternNode items => .standard patternNode items
  | .conjunction preRestriction conjuncts => .conjunction preRestriction conjuncts
  | .disjunction preRestriction disjuncts => .disjunction preRestriction disjuncts
  | .negation preRestriction _ => .conjunction preRestriction []

theorem links_searched (agent : BooleanAgent V A D) :
    agent.searched.links = agent.links ∨ agent.searched.links = [] := by
  cases agent with
  | standard patternNode items => exact Or.inl rfl
  | conjunction preRestriction conjuncts => exact Or.inl rfl
  | disjunction preRestriction disjuncts => exact Or.inl rfl
  | negation preRestriction negand => exact Or.inr rfl

theorem mem_links_searched {agent : BooleanAgent V A D} {c : V} (hc : c ∈ agent.searched.links) :
    c ∈ agent.links := by
  rcases links_searched agent with h | h
  · rwa [h] at hc
  · rw [h] at hc
    cases hc

theorem isStar_searched (agent : BooleanAgent V A D) : agent.searched.isStar = false := by
  cases agent <;> rfl

end BooleanAgent

/-- A pattern, with an agent of its own at each link. -/
structure BooleanPattern (V A D : Type) where
  base : V
  childAgent : V → BooleanAgent V A D
  /-- `typeid( *plink.GetPatternTreePtrInterface() )`, by what it points to. -/
  treePtrType : V → A
  /-- `typeid(Node)`. -/
  nodeType : A
  plinks : Finset V
  rank : V → Nat
  base_mem : base ∈ plinks
  links_mem : ∀ v ∈ plinks, ∀ c ∈ (childAgent v).links, c ∈ plinks
  rank_lt : ∀ v, ∀ c ∈ (childAgent v).links, rank c < rank v
  parent_unique : ∀ v w c, c ∈ (childAgent v).links → c ∈ (childAgent w).links → v = w
  links_nodup : ∀ v, (childAgent v).links.Nodup
  /-- To support more than two disjuncts, the pattern is transformed first. -/
  two_disjuncts : ∀ v preRestriction disjuncts,
    childAgent v = .disjunction preRestriction disjuncts → disjuncts.length = 2

/-- **The pattern of one and-rule engine**: from the pattern's base, or from a negand, which
is the base of a subordinate engine. -/
def BooleanPattern.engine (P : BooleanPattern V A D) (b : V) (hb : b ∈ P.plinks) :
    PatternTree V A D where
  base := b
  childAgent v := (P.childAgent v).searched
  treePtrType := P.treePtrType
  nodeType := P.nodeType
  plinks := P.plinks
  rank := P.rank
  base_mem := hb
  links_mem v hv c hc := P.links_mem v hv c (BooleanAgent.mem_links_searched hc)
  rank_lt v c hc := P.rank_lt v c (BooleanAgent.mem_links_searched hc)
  parent_unique v w c hc hc' := P.parent_unique v w c (BooleanAgent.mem_links_searched hc)
    (BooleanAgent.mem_links_searched hc')
  links_nodup v := by
    rcases BooleanAgent.links_searched (P.childAgent v) with h | h
    · rw [h]
      exact P.links_nodup v
    · rw [h]
      exact List.nodup_nil
  star_place v hv := by
    rw [BooleanAgent.isStar_searched] at hv
    cases hv
  star_item v patternNode items hagent item hitem := by
    cases item with
    | singular plink => exact fun p _ => BooleanAgent.isStar_searched _
    | sequence pattern => trivial
    | collection pattern =>
        show (pattern.filter fun p => (P.childAgent p).searched.isStar).length ≤ 1
        simp only [BooleanAgent.isStar_searched]
        simp
  two_disjuncts v preRestriction disjuncts hagent := by
    cases h : P.childAgent v with
    | standard patternNode items =>
        rw [h] at hagent
        cases hagent
    | conjunction preRestriction' conjuncts =>
        rw [h] at hagent
        cases hagent
    | negation preRestriction' negand =>
        rw [h] at hagent
        cases hagent
    | disjunction preRestriction' disjuncts' =>
        rw [h] at hagent
        cases hagent
        exact P.two_disjuncts v preRestriction disjuncts h

namespace PatternTree

/-- **What the types of the tree pointers promise.**  Every node is a `Node`, and what is in
the members of a node that a standard agent's archetype itemises is of the types of the
pattern's own pointers there. -/
structure TypeSafe (T : PatternTree V A D) (db : XTreeDatabase L N A) : Prop
    extends T.Typed db where
  node : ∀ n, db.isSubcategory T.nodeType n = true
  children : ∀ v patternNode items, T.childAgent v = .standard patternNode items → ∀ node,
    db.isSubcategory patternNode.archetypeNode node = true → ∀ (i : Nat) item xItem,
      items[i]? = some item → (db.itemiseAs patternNode.archetypeNode node)[i]? = some xItem →
        ∀ p ∈ item.links, ∀ l ∈ xItem.links, ∀ c, db.childOf l = some c →
          db.isSubcategory (T.treePtrType p) c = true

/-- `IsPreRestrictionMatch`. -/
def isPreRestrictionMatch (db : XTreeDatabase L N A) (archetypeNode : Option A) (x : XLink L) :
    Bool :=
  match archetypeNode with
  | some archetypeNode => (db.getChildTreePtr x).any (db.isSubcategory archetypeNode)
  | none => true

/-! ## §2. Guarded agents. -/

/-- The agents below an autolocating one that are at its XLink, unless they are at MMAX. -/
def Located (T : PatternTree V A D) : V → V → Prop :=
  Relation.ReflTransGen fun p c => (T.childAgent p).isFixedType = false ∧ c ∈ T.normalLinks p

theorem Located.below {T : PatternTree V A D} {h w : V} (hw : T.Located h w) :
    Below T.normalLinks h w := by
  induction hw with
  | refl => exact Below.refl
  | tail _ hedge ih => exact ih.tail hedge.2

/-- A choice of one disjunct of each disjunction, down from a link. -/
structure Taken (T : PatternTree V A D) (h : V) (taken : V → Prop) : Prop where
  conjunction : ∀ v, T.Located h v → ∀ preRestriction conjuncts,
    T.childAgent v = .conjunction preRestriction conjuncts → ∀ c ∈ conjuncts, (taken c ↔ taken v)
  disjunction : ∀ v, T.Located h v → ∀ preRestriction disjuncts,
    T.childAgent v = .disjunction preRestriction disjuncts →
      ∃ c d, (disjuncts = [c, d] ∨ disjuncts = [d, c]) ∧ (taken c ↔ taken v) ∧ ¬ taken d

variable [DecidableEq A]

/-- **A node passes** the category clauses that the agents taken generate, and has the type
of the tree pointer of a standard agent that leads there. -/
structure Passes (T : PatternTree V A D) (db : XTreeDatabase L N A) (h : V) (taken : V → Prop)
    (node : N) : Prop where
  clauses : ∀ w, T.Located h w → taken w → ∀ archetypeNode ∈ T.restriction w,
    db.isSubcategory archetypeNode node = true
  treePtr : ∀ p, Below T.normalLinks T.base p → (T.childAgent p).isFixedType = true →
    h ∈ T.normalLinks p → db.isSubcategory (T.treePtrType h) node = true

/-- **An agent whose own clause is not needed**: every node of the program that passes, with
the agent taken, is in its category. -/
def Guarded (T : PatternTree V A D) (db : XTreeDatabase L N A) (v : V) : Prop :=
  ∀ archetypeNode ∈ (T.childAgent v).archetypeNode, ∃ h, Below T.normalLinks T.base h
    ∧ T.Located h v ∧ ∀ y ∈ db.rows.keys, ∀ node, db.childOf y = some node → ∀ taken,
      T.Taken h taken → taken v → T.Passes db h taken node →
        db.isSubcategory archetypeNode node = true

section

variable [LinearOrder V] {T : PatternTree V A D} {db : XTreeDatabase L N A} {v : V}

omit [LinearOrder V] in
/-- An agent that generates its clause is guarded. -/
theorem guarded_of_clause (hv : Below T.normalLinks T.base v)
    (hclause : T.shouldGenerateCategoryClause v = true) : T.Guarded db v := by
  intro archetypeNode harchetype
  refine ⟨v, hv, Relation.ReflTransGen.refl, fun _ _ node _ taken _ htaken hpasses => ?_⟩
  refine hpasses.clauses v Relation.ReflTransGen.refl htaken archetypeNode ?_
  exact Option.mem_def.mpr (Option.filter_eq_some_iff.mpr ⟨harchetype, hclause⟩)

omit [LinearOrder V] in
/-- A standard agent always is. -/
theorem guarded_of_fixedType (hnode : ∀ n, db.isSubcategory T.nodeType n = true)
    (hv : Below T.normalLinks T.base v) (hfixed : (T.childAgent v).isFixedType = true) :
    T.Guarded db v := by
  intro archetypeNode harchetype
  by_cases htype : archetypeNode = T.nodeType
  · refine ⟨v, hv, Relation.ReflTransGen.refl, fun _ _ node _ _ _ _ _ => ?_⟩
    rw [htype]
    exact hnode node
  · refine guarded_of_clause hv ?_ archetypeNode harchetype
    unfold shouldGenerateCategoryClause
    rw [Option.mem_def.mp harchetype, hfixed]
    simp [htype]

omit [LinearOrder V] in
/-- An agent in a member of a standard agent is guarded by a tree pointer of its own type. -/
theorem guarded_of_treePtrType {p : V} (hp : Below T.normalLinks T.base p)
    (hfixed : (T.childAgent p).isFixedType = true) (hv : v ∈ T.normalLinks p)
    (htype : (T.childAgent v).archetypeNode = some (T.treePtrType v)) : T.Guarded db v := by
  intro archetypeNode harchetype
  rw [htype] at harchetype
  refine ⟨v, hp.tail hv, Relation.ReflTransGen.refl, fun _ _ node _ _ _ _ hpasses => ?_⟩
  rw [← Option.some.inj harchetype]
  exact hpasses.treePtr p hp hfixed hv

omit [LinearOrder V] in
/-- **A conjunction is guarded by a conjunct that restricts at least as much.** -/
theorem guarded_of_conjunct {preRestriction : PreRestriction A} {conjuncts : List V} {c : V}
    (hv : Below T.normalLinks T.base v)
    (hagent : T.childAgent v = .conjunction preRestriction conjuncts) (hc : c ∈ conjuncts)
    {category : A} (hcategory : T.restriction c = some category)
    (hless : ∀ archetypeNode ∈ preRestriction.archetypeNode, ∀ node,
      db.isSubcategory category node = true → db.isSubcategory archetypeNode node = true) :
    T.Guarded db v := by
  intro archetypeNode harchetype
  rw [hagent] at harchetype
  refine ⟨v, hv, Relation.ReflTransGen.refl,
    fun _ _ node _ taken hchoice htaken hpasses => ?_⟩
  have hedge : T.Located v c := by
    refine Relation.ReflTransGen.single ⟨by rw [hagent]; rfl, ?_⟩
    exact conjunct_mem hagent hc
  refine hless archetypeNode harchetype node (hpasses.clauses c hedge ?_ category hcategory)
  exact (hchoice.conjunction v Relation.ReflTransGen.refl _ _ hagent c hc).mpr htaken

end

end PatternTree

/-! ## §3. Solutions. -/

namespace PatternTree

variable [LinearOrder V] [LinearOrder L] [DecidableEq A]

/-- **A solution of the emitted constraints**: links of the database, or MMAX. -/
structure Solution (T : PatternTree V A D) (db : XTreeDatabase L N A)
    (isLocalMatchCovariant : D → N → Bool) (simpleCompare : Option N → Option N → Int)
    (hypothesisLinks : StdMap V (XLink L)) : Prop
    extends T.Satisfies db isLocalMatchCovariant simpleCompare hypothesisLinks where
  inDomain : ∀ v, Below T.normalLinks T.base v → ∀ x, hypothesisLinks.lookup v = some x →
    InDomain db x

/-- The agent at a link is at MMAX, or at an XLink in its own category. -/
def InCategory (T : PatternTree V A D) (db : XTreeDatabase L N A)
    (hypothesisLinks : StdMap V (XLink L)) (v : V) : Prop :=
  ∀ x, hypothesisLinks.lookup v = some x → x ≠ .MMAX →
    isPreRestrictionMatch db (T.childAgent v).archetypeNode x = true

end PatternTree

section

variable [LinearOrder V] [LinearOrder L] [DecidableEq A]
  {T : PatternTree V A D} {db : XTreeDatabase L N A} {isLocalMatchCovariant : D → N → Bool}
  {simpleCompare : Option N → Option N → Int} {hypothesisLinks : StdMap V (XLink L)}
  {a : V → XLink L} {v w h : V}
  (hsafe : T.TypeSafe db)
  (hsat : T.Satisfies db isLocalMatchCovariant simpleCompare hypothesisLinks)
  (hlinks : ∀ v, Below T.normalLinks T.base v → hypothesisLinks.lookup v = some (a v))
  (hdom : ∀ v, Below T.normalLinks T.base v → InDomain db (a v))

include hsat hlinks

theorem conjunction_of_satisfies {preRestriction : PreRestriction A} {conjuncts : List V}
    (hv : Below T.normalLinks T.base v)
    (hagent : T.childAgent v = .conjunction preRestriction conjuncts) :
    T.ConjunctionHolds db a v conjuncts := by
  obtain ⟨e, he, hsatisfied⟩ := hsat.satisfied v hv
  unfold PatternTree.symbolicNormalLinkedQuery at he
  rw [hagent] at he
  obtain rfl := Option.some.inj he
  refine (satisfied_autolocating (fun _ _ => rfl) (hlinks v hv) fun c hc => ?_).mp hsatisfied
  exact hlinks c (hv.tail (conjunct_mem hagent hc))

theorem disjunction_of_satisfies {preRestriction : PreRestriction A} {disjuncts : List V}
    (hv : Below T.normalLinks T.base v)
    (hagent : T.childAgent v = .disjunction preRestriction disjuncts) :
    T.DisjunctionHolds db a v disjuncts := by
  obtain ⟨e, he, hsatisfied⟩ := hsat.satisfied v hv
  unfold PatternTree.symbolicNormalLinkedQuery at he
  rw [hagent] at he
  refine (satisfied_disjunction (fun _ _ => rfl) (hlinks v hv) fun c hc => ?_).mp
    ⟨e, he, hsatisfied⟩
  exact hlinks c (hv.tail (disjunct_mem hagent hc))

omit hsat [LinearOrder V] [LinearOrder L] [DecidableEq A] in
theorem known_of_below (hv : Below T.normalLinks T.base v) :
    ∀ p, T.Known v p → hypothesisLinks.lookup p = some (a p) := by
  intro p hp
  rcases hp with rfl | hp
  · exact hlinks _ hv
  · exact hlinks p (hv.tail hp)

omit hlinks in
/-- A standard agent's query, from its plan. -/
theorem query_of_satisfies {patternNode : PatternNode A D} {items : List (PatternItem V)}
    (hv : Below T.normalLinks T.base v) (hagent : T.childAgent v = .standard patternNode items) :
    ∃ plan, StandardPlan.constructPlan T.isStar false items = some plan
      ∧ (PatternTree.mmaxRewriter.applyDistributed
        (T.symbolicNormalLinkedQueryMMed patternNode plan v)).Satisfied
          (predicateEvaluate hypothesisLinks db
            (PatternTree.kit db simpleCompare isLocalMatchCovariant)) := by
  obtain ⟨e, he, hsatisfied⟩ := hsat.satisfied v hv
  obtain ⟨plan, hplan⟩ := StandardPlan.exists_constructPlan T.isStar false items
    (fun pattern hpattern => stars_collection hagent hpattern pattern rfl)
  unfold PatternTree.symbolicNormalLinkedQuery at he
  simp only [hagent, hplan, Option.bind_eq_bind, Option.bind_some] at he
  obtain rfl := Option.some.inj he
  exact ⟨plan, hplan, hsatisfied⟩

/-- The links of a standard agent's members are at MMAX if and only if its own is. -/
theorem mmax_of_satisfies {patternNode : PatternNode A D} {items : List (PatternItem V)}
    (hv : Below T.normalLinks T.base v) (hagent : T.childAgent v = .standard patternNode items) :
    ∀ p, T.Known v p → (a p = .MMAX ↔ a v = .MMAX) := by
  obtain ⟨plan, hplan, hsatisfied⟩ := query_of_satisfies hsat hv hagent
  exact mmax_iff_of_satisfied simpleCompare isLocalMatchCovariant (known_of_below hlinks hv)
    hagent hplan hsatisfied

include hsafe hdom

/-- **A standard agent that is not at MMAX** has a node of its category, and under it nodes
of the types of its tree pointers. -/
theorem standard_of_satisfies {patternNode : PatternNode A D} {items : List (PatternItem V)}
    (hv : Below T.normalLinks T.base v) (hagent : T.childAgent v = .standard patternNode items)
    (hne : a v ≠ .MMAX) :
    (∃ node, db.getChildTreePtr (a v) = some node
        ∧ db.isSubcategory patternNode.archetypeNode node = true)
      ∧ ∀ c ∈ T.normalLinks v, ∃ node, db.getChildTreePtr (a c) = some node
        ∧ db.isSubcategory (T.treePtrType c) node = true := by
  -- the clutched query says what the clauses say, away from MMAX
  obtain ⟨plan, hplan, hsatisfied⟩ := query_of_satisfies hsat hv hagent
  have hknown := known_of_below hlinks hv
  have hnot : ∀ p, T.Known v p → a p ≠ .MMAX :=
    fun p hp hmmax => hne ((mmax_of_satisfies hsat hlinks hv hagent p hp).mp hmmax)
  have hclauses := (satisfied_clutched_iff simpleCompare isLocalMatchCovariant hknown hagent hplan
    hnot).mp hsatisfied
  rw [← satisfied_splitAnds, forall_splitAnds_mMed (by simp) (by simp) hplan,
    satisfied_localMatchClause simpleCompare isLocalMatchCovariant hknown] at hclauses
  obtain ⟨_, hlocal, hitems⟩ := hclauses
  -- its link is in the domain, and the local match gives the category
  obtain ⟨y, hrow, hy⟩ := (hdom v hv).resolve_left hne
  obtain ⟨node, hnode⟩ := Option.isSome_iff_exists.mp (db.row_nonnull y hrow)
  have hchild : db.getChildTreePtr (a v) = some node := by
    rw [hy]
    exact hnode
  have hsub : db.isSubcategory patternNode.archetypeNode node = true := by
    rw [hchild] at hlocal
    by_contra hsub
    rw [Bool.not_eq_true] at hsub
    simp [PatternTree.isLocalMatch, hsub] at hlocal
  -- a child: its item is matched, at a link of the item's type
  refine ⟨⟨node, hchild, hsub⟩, fun c hc => ?_⟩
  obtain ⟨⟨item, hitem, hcitem⟩, hstar⟩ := (mem_normalLinks_standard hagent).mp hc
  obtain ⟨i, hi⟩ := List.mem_iff_getElem?.mp hitem
  obtain ⟨xItem, hx, hkind⟩ :=
    forall₂_getElem? (hsafe.items v patternNode items hagent node hsub) hi
  have hkey : hypothesisLinks.lookup v = some (.link y) := by
    rw [hlinks v hv, hy]
  have hmatch := (satisfied_item_iff simpleCompare _ hkey hrow hnode hsub hx hkind
    (fun heq => by rw [heq] at hcitem; cases hcitem) (isStar_singular hagent hitem)
    (stars_collection hagent hitem) fun p hp hpstar =>
      hknown p (Or.inr ((mem_normalLinks_standard hagent).mpr ⟨⟨item, hitem, hp⟩, hpstar⟩))).mp
    (hitems (item, i) (List.mem_zipIdx_iff_getElem?.mpr hi))
  obtain ⟨l, hl, hac⟩ := hmatch.link hcitem hstar
  obtain ⟨z, hzrow, hz⟩ := (hdom c (hv.tail hc)).resolve_left (by rw [hac]; simp)
  obtain rfl : l = z := by
    rw [hac] at hz
    exact XLink.link.inj hz
  obtain ⟨below, hbelow⟩ := Option.isSome_iff_exists.mp (db.row_nonnull l hzrow)
  refine ⟨below, by rw [hac]; exact hbelow, ?_⟩
  exact hsafe.children v patternNode items hagent node hsub i item xItem hi hx c hcitem l hl below
    hbelow

omit hsafe hdom in
/-- **A child of an autolocating agent** is at its XLink or at MMAX. -/
theorem autolocated (hv : Below T.normalLinks T.base v)
    (hfixed : (T.childAgent v).isFixedType = false) {c : V} (hc : c ∈ T.normalLinks v)
    (hne : a c ≠ .MMAX) : a c = a v := by
  have hmem := normalLinks_subset c hc
  cases hagent : T.childAgent v with
  | standard patternNode items =>
      rw [hagent] at hfixed
      cases hfixed
  | star preRestriction =>
      rw [hagent] at hmem
      cases hmem
  | conjunction preRestriction conjuncts =>
      rw [hagent] at hmem
      exact (conjunction_of_satisfies hsat hlinks hv hagent).1 c hmem
  | disjunction preRestriction disjuncts =>
      rw [hagent] at hmem
      obtain ⟨front, back, rfl, hone⟩ := (disjunction_of_satisfies hsat hlinks hv hagent).1
      rcases List.mem_pair.mp hmem with rfl | rfl
      · rcases hone with ⟨hmmax, _⟩ | ⟨_, heq⟩
        · exact absurd hmmax hne
        · exact heq
      · rcases hone with ⟨_, heq⟩ | ⟨hmmax, _⟩
        · exact heq
        · exact absurd hmmax hne

omit hsafe hdom in
/-- Down from a link to one that is not at MMAX, all are at one XLink. -/
theorem located_eq (hh : Below T.normalLinks T.base h) (hw : T.Located h w) :
    Below T.normalLinks T.base w ∧ (a w ≠ .MMAX → a w = a h) := by
  induction hw with
  | refl => exact ⟨hh, fun _ => rfl⟩
  | tail _ hedge ih =>
      refine ⟨ih.1.tail hedge.2, fun hne => ?_⟩
      have heq := autolocated hsat hlinks ih.1 hedge.1 hedge.2 hne
      rw [heq] at hne
      rw [heq, ih.2 hne]

omit hsafe hdom in
/-- The links that are not at MMAX are a choice of disjuncts. -/
theorem taken_of_satisfies (hh : Below T.normalLinks T.base h) :
    T.Taken h fun v => a v ≠ .MMAX := by
  refine ⟨fun v hv preRestriction conjuncts hagent c hc => ?_,
    fun v hv preRestriction disjuncts hagent => ?_⟩
  · have hbelow := (located_eq hsat hlinks hh hv).1
    show a c ≠ .MMAX ↔ a v ≠ .MMAX
    rw [(conjunction_of_satisfies hsat hlinks hbelow hagent).1 c hc]
  · have hbelow := (located_eq hsat hlinks hh hv).1
    obtain ⟨front, back, hpair, hone⟩ := (disjunction_of_satisfies hsat hlinks hbelow hagent).1
    rcases hone with ⟨hfront, hback⟩ | ⟨hback, hfront⟩
    · refine ⟨back, front, Or.inr hpair, ?_, fun hne => hne hfront⟩
      rw [hback]
    · refine ⟨front, back, Or.inl hpair, ?_, fun hne => hne hback⟩
      rw [hfront]

/-- A generated clause holds of an agent that is not at MMAX. -/
theorem restricts_of_satisfies (hv : Below T.normalLinks T.base v) (hne : a v ≠ .MMAX) :
    T.Restricts db v (a v) := by
  cases hagent : T.childAgent v with
  | standard patternNode items =>
      obtain ⟨⟨node, hnode, hsub⟩, _⟩ :=
        standard_of_satisfies hsafe hsat hlinks hdom hv hagent hne
      intro archetypeNode harchetype
      unfold PatternTree.restriction at harchetype
      rw [hagent] at harchetype
      have heq : patternNode.archetypeNode = archetypeNode :=
        Option.some.inj (Option.filter_eq_some_iff.mp harchetype).1
      rw [hnode, ← heq]
      exact hsub
  | conjunction preRestriction conjuncts =>
      exact (conjunction_of_satisfies hsat hlinks hv hagent).2.resolve_right hne
  | disjunction preRestriction disjuncts =>
      exact (disjunction_of_satisfies hsat hlinks hv hagent).2.resolve_right hne
  | star preRestriction =>
      obtain ⟨e, he, _⟩ := hsat.satisfied v hv
      unfold PatternTree.symbolicNormalLinkedQuery at he
      rw [hagent] at he
      cases he

/-- **A guarded agent that is not at MMAX is in its category.** -/
theorem match_of_guarded (hv : Below T.normalLinks T.base v) (hguarded : T.Guarded db v)
    (hne : a v ≠ .MMAX) :
    PatternTree.isPreRestrictionMatch db (T.childAgent v).archetypeNode (a v) = true := by
  unfold PatternTree.isPreRestrictionMatch
  cases harchetype : (T.childAgent v).archetypeNode with
  | none => rfl
  | some archetypeNode =>
      -- the guard: at the place where `h` is located, the node passes the clauses
      obtain ⟨h, hh, hlocated, hpass⟩ := hguarded archetypeNode harchetype
      have heq := (located_eq hsat hlinks hh hlocated).2 hne
      obtain ⟨y, hrow, hy⟩ := (hdom v hv).resolve_left hne
      obtain ⟨node, hnode⟩ := Option.isSome_iff_exists.mp (db.row_nonnull y hrow)
      have hchild : db.getChildTreePtr (a v) = some node := by
        rw [hy]
        exact hnode
      show (db.getChildTreePtr (a v)).any (db.isSubcategory archetypeNode) = true
      rw [hchild]
      refine hpass y hrow node hnode (fun w => a w ≠ .MMAX) (taken_of_satisfies hsat hlinks hh) hne
        ⟨?_, ?_⟩
      · -- the agents at the XLink have their clauses
        intro w hw htaken category hcategory
        obtain ⟨hbelow, hsame⟩ := located_eq hsat hlinks hh hw
        have hclause := restricts_of_satisfies hsafe hsat hlinks hdom hbelow htaken
          category hcategory
        rw [hsame htaken, ← heq, hchild] at hclause
        exact hclause
      · -- the types of the tree pointers there
        intro p hp hfixed hmem
        cases hagent : T.childAgent p with
        | standard patternNode items =>
            have hpne : a p ≠ .MMAX := by
              intro hmmax
              rw [heq] at hne
              exact hne ((mmax_of_satisfies hsat hlinks hp hagent h (Or.inr hmem)).mpr hmmax)
            obtain ⟨_, hchildren⟩ :=
              standard_of_satisfies hsafe hsat hlinks hdom hp hagent hpne
            obtain ⟨child, hc, hsub⟩ := hchildren h hmem
            rw [← heq, hchild] at hc
            rw [Option.some.inj hc]
            exact hsub
        | conjunction preRestriction conjuncts =>
            rw [hagent] at hfixed
            cases hfixed
        | disjunction preRestriction disjuncts =>
            rw [hagent] at hfixed
            cases hfixed
        | star preRestriction =>
            rw [hagent] at hfixed
            cases hfixed

end

/-! ## §4. Standard agents without members. -/

section

variable [LinearOrder V] [LinearOrder L] [DecidableEq A]
  {T : PatternTree V A D} {db : XTreeDatabase L N A} {isLocalMatchCovariant : D → N → Bool}
  {taken : V → Prop} {v : V} {y : L} {node : N}

/-- No standard agent has a member. -/
def PatternTree.Memberless (T : PatternTree V A D) : Prop :=
  ∀ v patternNode items, T.childAgent v = .standard patternNode items → items = []

omit [LinearOrder V] [DecidableEq A] in
/-- Then the whole pattern is at one XLink. -/
theorem located_of_memberless (hmembers : T.Memberless) (hv : Below T.normalLinks T.base v) :
    T.Located T.base v := by
  have hedge : ∀ p c, c ∈ T.normalLinks p → (T.childAgent p).isFixedType = false := by
    intro p c hc
    cases hagent : T.childAgent p with
    | standard patternNode items =>
        have hlink := normalLinks_subset c hc
        rw [hagent, hmembers p patternNode items hagent] at hlink
        cases hlink
    | conjunction preRestriction conjuncts => rfl
    | disjunction preRestriction disjuncts => rfl
    | star preRestriction => rfl
  induction hv with
  | refl => exact Relation.ReflTransGen.refl
  | tail _ hc ih => exact Relation.ReflTransGen.tail ih ⟨hedge _ _ hc, hc⟩

/-- **Each choice of disjuncts whose clauses a node passes is a solution**, with the agents
taken at the node's link. -/
theorem solution_of_passes (simpleCompare : Option N → Option N → Int) (hsafe : T.TypeSafe db)
    (hmembers : T.Memberless)
    (hcovariant : ∀ data n, isLocalMatchCovariant data n = true) (hy : y ∈ db.rows.keys)
    (hnode : db.childOf y = some node) (hchoice : T.Taken T.base taken)
    (hpasses : T.Passes db T.base taken node) :
    ∃ hypothesisLinks : StdMap V (XLink L),
      T.Solution db isLocalMatchCovariant simpleCompare hypothesisLinks
        ∧ ∀ v, Below T.normalLinks T.base v → taken v →
          hypothesisLinks.lookup v = some (.link y) := by
  classical
  -- the agents taken are at the link, the others at MMAX
  let a : V → XLink L := fun v => if taken v then .link y else .MMAX
  let hypothesisLinks : StdMap V (XLink L) :=
    { lookup := fun v => if v ∈ T.plinks then some (a v) else none
      keys := T.plinks
      mem_keys := by
        intro v
        by_cases hv : v ∈ T.plinks <;> simp [hv] }
  have hlinks : ∀ v, Below T.normalLinks T.base v → hypothesisLinks.lookup v = some (a v) :=
    fun v hv => if_pos (mem_plinks_of_below hv)
  have hdom : ∀ v, InDomain db (a v) := by
    intro v
    by_cases hv : taken v
    · exact Or.inr ⟨y, hy, if_pos hv⟩
    · exact Or.inl (if_neg hv)
  -- each agent taken has its clause, since the node passes it
  have hrestricts : ∀ v, Below T.normalLinks T.base v →
      T.Restricts db v (a v) ∨ a v = .MMAX := by
    intro v hv
    by_cases htaken : taken v
    · refine Or.inl fun archetypeNode harchetype => ?_
      have hclause := hpasses.clauses v (located_of_memberless hmembers hv) htaken archetypeNode
        harchetype
      rw [show a v = .link y from if_pos htaken]
      show (db.childOf y).any (db.isSubcategory archetypeNode) = true
      rw [hnode]
      exact hclause
    · exact Or.inr (if_neg htaken)
  -- agents taken together have the same link
  have hsame : ∀ v w, (taken v ↔ taken w) → a v = a w := by
    intro v w hvw
    show (if taken v then XLink.link y else .MMAX) = if taken w then XLink.link y else .MMAX
    exact if_congr hvw rfl rfl
  -- so each agent's condition holds
  have hholds : ∀ v, Below T.normalLinks T.base v →
      T.AgentHolds db isLocalMatchCovariant a v := by
    intro v hv
    have hlocated := located_of_memberless hmembers hv
    unfold PatternTree.AgentHolds
    cases hagent : T.childAgent v with
    | standard patternNode items =>
        obtain rfl := hmembers v patternNode items hagent
        by_cases htaken : taken v
        · have hsub : db.isSubcategory patternNode.archetypeNode node = true := by
            by_cases htype : patternNode.archetypeNode = T.nodeType
            · rw [htype]
              exact hsafe.node node
            · refine hpasses.clauses v hlocated htaken _ ?_
              refine Option.mem_def.mpr (Option.filter_eq_some_iff.mpr ⟨by rw [hagent]; rfl, ?_⟩)
              unfold PatternTree.shouldGenerateCategoryClause
              rw [hagent]
              simp [Agent.archetypeNode, Agent.isFixedType, htype]
          refine Or.inr ⟨y, hy, node, if_pos htaken, hnode, ?_, ?_⟩
          · simp [PatternTree.isLocalMatch, hsub, hcovariant]
          · have hkinds := hsafe.items v patternNode [] hagent node hsub
            generalize db.itemiseAs patternNode.archetypeNode node = xItems at hkinds ⊢
            cases hkinds
            exact List.Forall₂.nil
        · refine Or.inl ⟨if_neg htaken, fun c hc => ?_⟩
          have hlink := normalLinks_subset c hc
          rw [hagent] at hlink
          cases hlink
    | conjunction preRestriction conjuncts =>
        refine ⟨fun c hc => hsame c v ?_, hrestricts v hv⟩
        exact hchoice.conjunction v hlocated _ _ hagent c hc
    | disjunction preRestriction disjuncts =>
        obtain ⟨c, d, hpair, hc, hd⟩ := hchoice.disjunction v hlocated _ _ hagent
        refine ⟨?_, hrestricts v hv⟩
        rcases hpair with rfl | rfl
        · exact ⟨c, d, rfl, Or.inr ⟨if_neg hd, hsame c v hc⟩⟩
        · exact ⟨d, c, rfl, Or.inl ⟨if_neg hd, hsame c v hc⟩⟩
    | star preRestriction =>
        have hstar := not_star_of_below base_not_star hv
        unfold PatternTree.isStar at hstar
        rw [hagent] at hstar
        cases hstar
  have hne : T.NoEmptySequence := by
    intro v patternNode items hagent
    rw [hmembers v patternNode items hagent]
    exact List.not_mem_nil
  -- the queries are satisfied, and each link is in the domain
  refine ⟨hypothesisLinks, ⟨⟨fun v hv => ⟨a v, hlinks v hv⟩, fun v hv => ?_⟩, ?_⟩, ?_⟩
  · exact (query_iff hsafe.toTyped hne simpleCompare isLocalMatchCovariant
      (not_star_of_below base_not_star hv) (known_of_below hlinks hv) (hdom v)).mpr (hholds v hv)
  · intro v hv x hx
    rw [hlinks v hv] at hx
    rw [← Option.some.inj hx]
    exact hdom v
  · intro v hv htaken
    rw [hlinks v hv]
    exact congrArg some (if_pos htaken)

end

/-! ## §5. The pattern. -/

/-- **LEFT-OUT CLAUSES, EXACT.**  A solution of what an and-rule engine emits assigns to each
agent that is not at MMAX an XLink in the agent's own category if it does so for the agents
that are not guarded: those that left their clause out although neither the type of the tree
pointer nor the agents at the same XLink restrict as much.  Of patterns whose standard agents
have no members and match any data, every solution does if and only if all the agents are
guarded. -/
theorem preRestriction_exact [LinearOrder V] [LinearOrder L] [DecidableEq A]
    (P : BooleanPattern V A D) {b : V} (hb : b ∈ P.plinks) {db : XTreeDatabase L N A}
    (hsafe : (P.engine b hb).TypeSafe db) (isLocalMatchCovariant : D → N → Bool)
    (simpleCompare : Option N → Option N → Int) :
    (∀ hypothesisLinks,
        (P.engine b hb).Solution db isLocalMatchCovariant simpleCompare hypothesisLinks →
          ((∀ v, Below (P.engine b hb).normalLinks b v →
              (P.engine b hb).InCategory db hypothesisLinks v)
            ↔ ∀ v, Below (P.engine b hb).normalLinks b v → ¬ (P.engine b hb).Guarded db v →
                (P.engine b hb).InCategory db hypothesisLinks v))
      ∧ ((P.engine b hb).Memberless → (∀ data n, isLocalMatchCovariant data n = true) →
          ((∀ hypothesisLinks,
              (P.engine b hb).Solution db isLocalMatchCovariant simpleCompare hypothesisLinks →
                ∀ v, Below (P.engine b hb).normalLinks b v →
                  (P.engine b hb).InCategory db hypothesisLinks v)
            ↔ ∀ v, Below (P.engine b hb).normalLinks b v → (P.engine b hb).Guarded db v)) := by
  -- the first half: a guarded agent needs no clause of its own
  have hguarded : ∀ hypothesisLinks,
      (P.engine b hb).Solution db isLocalMatchCovariant simpleCompare hypothesisLinks →
        ∀ v, Below (P.engine b hb).normalLinks b v → (P.engine b hb).Guarded db v →
          (P.engine b hb).InCategory db hypothesisLinks v := by
    intro hypothesisLinks hsolution v hv hguarded x hx hne
    let a : V → XLink L := fun v => (hypothesisLinks.lookup v).getD .MMAX
    have hlinks : ∀ v, Below (P.engine b hb).normalLinks b v →
        hypothesisLinks.lookup v = some (a v) := by
      intro v hv
      obtain ⟨y, hy⟩ := hsolution.assigned v hv
      show hypothesisLinks.lookup v = some ((hypothesisLinks.lookup v).getD .MMAX)
      rw [hy]
      rfl
    have hax : x = a v := Option.some.inj (hx.symm.trans (hlinks v hv))
    rw [hax] at hne ⊢
    exact match_of_guarded hsafe hsolution.toSatisfies hlinks
      (fun w hw => hsolution.inDomain w hw _ (hlinks w hw)) hv hguarded hne
  -- then only the others are left to ask
  refine ⟨fun hypothesisLinks hsolution => ⟨fun hall v hv _ => hall v hv, ?_⟩, ?_⟩
  · intro hunguarded v hv
    by_cases h : (P.engine b hb).Guarded db v
    · exact hguarded hypothesisLinks hsolution v hv h
    · exact hunguarded v hv h
  · -- the second half: where one is not guarded, a choice of disjuncts is a solution
    intro hmembers hcovariant
    refine ⟨fun hall v hv archetypeNode harchetype => ?_,
      fun hall hypothesisLinks hsolution v hv => hguarded _ hsolution v hv (hall v hv)⟩
    refine ⟨b, Below.refl, located_of_memberless hmembers hv,
      fun y hy node hnode taken hchoice htaken hpasses => ?_⟩
    obtain ⟨hypothesisLinks, hsolution, hlookup⟩ :=
      solution_of_passes simpleCompare hsafe hmembers hcovariant hy hnode hchoice hpasses
    have hmatch := hall hypothesisLinks hsolution v hv _ (hlookup v hv htaken) (by simp)
    unfold PatternTree.isPreRestrictionMatch at hmatch
    rw [Option.mem_def.mp harchetype] at hmatch
    have hany : (db.childOf y).any (db.isSubcategory archetypeNode) = true := hmatch
    rw [hnode] at hany
    exact hany

/-- A program of one node.  Category 0 is `Node`'s; the node is of class 2, which is derived
from the intermediate class 1, as is class 3. -/
def oneNode : XTreeDatabase Nat Nat Nat :=
  (flatDatabase ⟨[], 0, rfl⟩).withArchetypes
    (fun archetypeNode node => archetypeNode == 0 || (node == 0 && archetypeNode ≤ 2))
    (fun _ _ => []) (by simp)

/-- A conjunction, restricted, over a standard agent without members. -/
def conjunctionOver (restricted conjunct : Nat) : BooleanPattern Nat Nat Unit where
  base := 0
  childAgent v := if v = 0 then .conjunction ⟨some restricted, some restricted⟩ [1]
    else .standard ⟨conjunct, ()⟩ []
  treePtrType _ := 0
  nodeType := 0
  plinks := {0, 1}
  rank v := 1 - v
  base_mem := by decide
  links_mem v _ c hc := by
    split at hc
    · rw [List.mem_singleton.mp hc]
      decide
    · cases hc
  rank_lt v c hc := by
    split at hc
    next hv =>
      rw [List.mem_singleton.mp hc, hv]
      decide
    next => cases hc
  parent_unique v w c hc hc' := by
    split at hc
    next hv =>
      split at hc'
      next hw => rw [hv, hw]
      next => cases hc'
    next => cases hc
  links_nodup v := by
    split
    · exact List.nodup_singleton 1
    · exact List.nodup_nil
  two_disjuncts v _ _ hagent := by
    split at hagent <;> cases hagent

section

variable (restricted conjunct : Nat)

/-- What the engine that searches for it sees. -/
def conjunctionEngine : PatternTree Nat Nat Unit :=
  (conjunctionOver restricted conjunct).engine 0 (by simp [conjunctionOver])

theorem conjunctionEngine_standard {v : Nat} {patternNode : PatternNode Nat Unit}
    {items : List (PatternItem Nat)}
    (hagent : (conjunctionEngine restricted conjunct).childAgent v = .standard patternNode items) :
    patternNode = ⟨conjunct, ()⟩ ∧ items = [] := by
  cases v with
  | zero => cases hagent
  | succ v =>
      cases hagent
      exact ⟨rfl, rfl⟩

theorem conjunctionEngine_memberless : (conjunctionEngine restricted conjunct).Memberless :=
  fun _ _ _ hagent => (conjunctionEngine_standard restricted conjunct hagent).2

theorem conjunctionEngine_typeSafe : (conjunctionEngine restricted conjunct).TypeSafe oneNode := by
  refine ⟨⟨fun v patternNode items hagent node _ => ?_, rfl⟩, fun _ => rfl, ?_⟩
  · rw [(conjunctionEngine_standard restricted conjunct hagent).2]
    exact List.Forall₂.nil
  · intro v patternNode items hagent node _ i item _ hitem
    rw [(conjunctionEngine_standard restricted conjunct hagent).2] at hitem
    cases hitem

theorem conjunctionEngine_below {v : Nat}
    (hv : Below (conjunctionEngine restricted conjunct).normalLinks 0 v) : v = 0 ∨ v = 1 := by
  induction hv with
  | refl => exact Or.inl rfl
  | tail _ hc ih =>
      have hlink := normalLinks_subset _ hc
      rcases ih with rfl | rfl
      · exact Or.inr (List.mem_singleton.mp hlink)
      · cases hlink

/-- The conjunction's clause is left to its conjunct. -/
theorem conjunctionEngine_restriction :
    (conjunctionEngine restricted conjunct).restriction 0 = none := by
  have hself := isSelfOrChildrenFixedType_of_conjuncts
    (T := conjunctionEngine restricted conjunct) (fun v _ conjuncts hagent => by
      cases v with
      | zero => cases hagent; simp
      | succ v => cases hagent) 2 0 (Nat.lt_succ_self 1) rfl
  have htrivial : (conjunctionEngine restricted conjunct).isNonTrivialPreRestriction 0 = false := by
    unfold PatternTree.isNonTrivialPreRestriction PatternTree.isNonTrivialCommon
    rw [hself]
    rfl
  unfold PatternTree.restriction PatternTree.shouldGenerateCategoryClause
  rw [htrivial]
  show Option.filter _ (some restricted) = none
  simp [conjunctionEngine, BooleanPattern.engine, conjunctionOver, BooleanAgent.searched,
    Agent.archetypeNode, Agent.isFixedType]

/-- All at the node is a solution where the standard agent's category has it. -/
theorem conjunctionEngine_solution (hconjunct : conjunct ≤ 2) :
    ∃ hypothesisLinks : StdMap Nat (XLink Nat),
      (conjunctionEngine restricted conjunct).Solution oneNode (fun _ _ => true) (fun _ _ => 0)
          hypothesisLinks ∧ hypothesisLinks.lookup 0 = some (.link 0) := by
  have hchoice : (conjunctionEngine restricted conjunct).Taken 0 fun _ => True := by
    refine ⟨fun _ _ _ _ _ _ _ => Iff.rfl, fun v _ _ _ hagent => ?_⟩
    cases v <;> cases hagent
  have hpasses : (conjunctionEngine restricted conjunct).Passes oneNode 0 (fun _ => True) 0 := by
    refine ⟨fun w hw _ archetypeNode harchetype => ?_, fun p hp hfixed hmem => ?_⟩
    · rcases conjunctionEngine_below restricted conjunct hw.below with rfl | rfl
      · rw [conjunctionEngine_restriction] at harchetype
        cases harchetype
      · have heq := (Option.filter_eq_some_iff.mp harchetype).1
        rw [← Option.some.inj heq]
        show (conjunct == 0 || (true && decide (conjunct ≤ 2))) = true
        simp [hconjunct]
    · rcases conjunctionEngine_below restricted conjunct hp with rfl | rfl
      · cases hfixed
      · cases normalLinks_subset _ hmem
  obtain ⟨hypothesisLinks, hsolution, hlookup⟩ := solution_of_passes (fun _ _ => 0)
    (conjunctionEngine_typeSafe restricted conjunct)
    (conjunctionEngine_memberless restricted conjunct) (fun _ _ => rfl)
    (show 0 ∈ oneNode.rows.keys by decide) rfl hchoice hpasses
  exact ⟨hypothesisLinks, hsolution, hlookup 0 Below.refl trivial⟩

end

/-- A conjunction that is restricted to the intermediate class may leave its clause to a
standard agent of class 2. -/
theorem preRestriction_exact_conjunctionOver :
    (∀ v, Below (conjunctionEngine 1 2).normalLinks 0 v →
      (conjunctionEngine 1 2).Guarded oneNode v)
      ∧ ∀ hypothesisLinks, (conjunctionEngine 1 2).Solution oneNode (fun _ _ => true)
          (fun _ _ => 0) hypothesisLinks →
        ∀ v, Below (conjunctionEngine 1 2).normalLinks 0 v →
          (conjunctionEngine 1 2).InCategory oneNode hypothesisLinks v := by
  have hguarded : ∀ v, Below (conjunctionEngine 1 2).normalLinks 0 v →
      (conjunctionEngine 1 2).Guarded oneNode v := by
    intro v hv
    rcases conjunctionEngine_below 1 2 hv with rfl | rfl
    · have hcategory : (conjunctionEngine 1 2).restriction 1 = some 2 := rfl
      refine PatternTree.guarded_of_conjunct Below.refl rfl (List.mem_singleton_self 1) hcategory ?_
      intro archetypeNode harchetype node hnode
      rw [← Option.some.inj harchetype]
      have hroot : node = 0 := by
        simpa [oneNode, XTreeDatabase.withArchetypes, XTrees.withArchetypes] using hnode
      rw [hroot]
      rfl
    · exact PatternTree.guarded_of_fixedType (fun _ => rfl) hv rfl
  exact ⟨hguarded, ((preRestriction_exact (conjunctionOver 1 2) (by simp [conjunctionOver])
    (conjunctionEngine_typeSafe 1 2) (fun _ _ => true) (fun _ _ => 0)).2
      (conjunctionEngine_memberless 1 2) (fun _ _ => rfl)).mpr hguarded⟩

/-- **A conjunction restricted to class 3 leaves its clause to a standard agent of the
intermediate class**, and a solution has it at a node of class 2. -/
theorem narrowConjunction_not_matched :
    (conjunctionEngine 3 1).TypeSafe oneNode
      ∧ (conjunctionEngine 3 1).restriction 0 = none
      ∧ ∃ hypothesisLinks, (conjunctionEngine 3 1).Solution oneNode (fun _ _ => true)
          (fun _ _ => 0) hypothesisLinks
        ∧ ¬ (conjunctionEngine 3 1).InCategory oneNode hypothesisLinks 0 := by
  refine ⟨conjunctionEngine_typeSafe 3 1, conjunctionEngine_restriction 3 1, ?_⟩
  obtain ⟨hypothesisLinks, hsolution, hlookup⟩ := conjunctionEngine_solution 3 1 (by decide)
  refine ⟨hypothesisLinks, hsolution, fun hmatch => ?_⟩
  have hcategory := hmatch (.link 0) hlookup (by simp)
  revert hcategory
  decide

end Inferno.Agents
