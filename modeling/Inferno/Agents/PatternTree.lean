/-
  Inferno.Agents.PatternTree
  ──────────────────────────
  Patterns without couplings, of standard, conjunction and disjunction agents, and the
  symbolic query of each agent.

    • `Agent`, `PatternTree`       — an agent at each link, and the links below it,
    • `isNonTrivialPreRestriction` — which agents restrict the category of what they match,
    • `isLocalMatch`               — `Matcher::IsLocalMatch`,
    • `symbolicNormalLinkedQuery`  — the query of the agent at a link.
-/
import Inferno.Agents.Regeneration
import Inferno.Engine.PatternGraph
import Inferno.Lib.TreeAssignment
import Inferno.SYM.Clutch
import Mathlib

namespace Inferno.Agents

open Inferno.Common
open Inferno.DB
open Inferno.SYM
open Inferno.Lib.TreeAssignment

variable {V L A N D : Type}

/-! ## §1. Agents. -/

/-- The fields of `SpecialBase`: an archetype of the pre-restriction, and of the pointer
to it, whose type is given by what it points to. -/
structure PreRestriction (A : Type) where
  archetypeNode : Option A
  archetypeTreePtr : Option A

/-- A pattern node as `Matcher` sees it: its category, and what a derived class compares
besides. -/
structure PatternNode (A D : Type) where
  archetypeNode : A
  data : D

/-- An agent, with the links in its items. -/
inductive Agent (V A D : Type) where
  | standard (patternNode : PatternNode A D) (items : List (PatternItem V))
  | conjunction (preRestriction : PreRestriction A) (conjuncts : List V)
  | disjunction (preRestriction : PreRestriction A) (disjuncts : List V)
  | star (preRestriction : PreRestriction A)

namespace Agent

/-- `dynamic_cast<StarAgent *>(agent)`. -/
def isStar : Agent V A D → Bool
  | .star _ => true
  | _ => false

/-- The links in the agent's items. -/
def links : Agent V A D → List V
  | .standard _ items => items.flatMap PatternItem.links
  | .conjunction _ conjuncts => conjuncts
  | .disjunction _ disjuncts => disjuncts
  | .star _ => []

/-- `GetArchetypeNode`. -/
def archetypeNode : Agent V A D → Option A
  | .standard patternNode _ => some patternNode.archetypeNode
  | .conjunction preRestriction _ => preRestriction.archetypeNode
  | .disjunction preRestriction _ => preRestriction.archetypeNode
  | .star preRestriction => preRestriction.archetypeNode

/-- `GetArchetypeTreePtr`. -/
def archetypeTreePtr : Agent V A D → Option A
  | .standard patternNode _ => some patternNode.archetypeNode
  | .conjunction preRestriction _ => preRestriction.archetypeTreePtr
  | .disjunction preRestriction _ => preRestriction.archetypeTreePtr
  | .star preRestriction => preRestriction.archetypeTreePtr

/-- `IsFixedType`. -/
def isFixedType : Agent V A D → Bool
  | .standard _ _ => true
  | _ => false

end Agent

/-- A pattern tree.  A `PatternLink` is the address of a pointer inside the agent it
belongs to; without couplings each link leads to an agent of its own. -/
structure PatternTree (V A D : Type) where
  base : V
  childAgent : V → Agent V A D
  /-- `typeid( *plink.GetPatternTreePtrInterface() )`, by what it points to. -/
  treePtrType : V → A
  /-- `typeid(Node)`. -/
  nodeType : A
  plinks : Finset V
  rank : V → Nat
  base_mem : base ∈ plinks
  links_mem : ∀ v ∈ plinks, ∀ c ∈ (childAgent v).links, c ∈ plinks
  rank_lt : ∀ v, ∀ c ∈ (childAgent v).links, rank c < rank v
  parent_unique : ∀ v w c, c ∈ (childAgent v).links → c ∈ (childAgent w).links → v = w
  links_nodup : ∀ v, (childAgent v).links.Nodup
  /-- Stars stand in sequences and collections only. -/
  star_place : ∀ v, (childAgent v).isStar = true → v ≠ base ∧
    ∀ w, v ∈ (childAgent w).links → (childAgent w).isFixedType = true
  /-- Nor are they singular items, and a collection has one at most. -/
  star_item : ∀ v patternNode items, childAgent v = .standard patternNode items →
    ∀ item ∈ items, match item with
      | .singular plink => ∀ p ∈ plink, (childAgent p).isStar = false
      | .sequence _ => True
      | .collection pattern => (pattern.filter (fun p => (childAgent p).isStar)).length ≤ 1
  /-- To support more than two disjuncts, the pattern is transformed first. -/
  two_disjuncts : ∀ v preRestriction disjuncts,
    childAgent v = .disjunction preRestriction disjuncts → disjuncts.length = 2

namespace PatternTree

variable (T : PatternTree V A D)

/-- Whether the agent at a link is a star. -/
def isStar (v : V) : Bool := (T.childAgent v).isStar

/-- `GetPatternQuery()->GetNormalLinks()`. -/
def normalLinks (v : V) : List V :=
  (T.childAgent v).links.filter (fun c => !T.isStar c)

/-! ## §2. Pre-restriction. -/

section

variable [DecidableEq A]

/-- `IsSelfOrChildrenFixedType`: of a conjunction, that some child is; of a disjunction,
that each is. -/
def isSelfOrChildrenFixedType (v : V) : Bool :=
  match _h : T.childAgent v with
  | .standard _ _ => true
  | .conjunction _ conjuncts => conjuncts.attach.any (fun c => isSelfOrChildrenFixedType c.1)
  | .disjunction _ disjuncts => disjuncts.attach.all (fun c => isSelfOrChildrenFixedType c.1)
  | .star _ => false
termination_by T.rank v
decreasing_by
  · exact T.rank_lt v c.1 (by rw [_h]; exact c.2)
  · exact T.rank_lt v c.1 (by rw [_h]; exact c.2)

/-- `AgentCommon::IsNonTrivialPreRestriction`: it compares the types of the tree
pointers. -/
def isNonTrivialCommon (v : V) : Bool :=
  if T.isSelfOrChildrenFixedType v then false
  else match (T.childAgent v).archetypeTreePtr with
    | none => false
    | some archetypeTreePtr => T.treePtrType v != archetypeTreePtr

/-- `IsNonTrivialPreRestriction`.  A conjunction leaves the restriction to any child that
restricts, a disjunction only to all of them. -/
def isNonTrivialPreRestriction (v : V) : Bool :=
  match _h : T.childAgent v with
  | .conjunction _ conjuncts =>
      T.isNonTrivialCommon v && !(conjuncts.attach.any (fun c =>
        T.isSelfOrChildrenFixedType c.1 || isNonTrivialPreRestriction c.1))
  | .disjunction _ disjuncts =>
      T.isNonTrivialCommon v && !(disjuncts.attach.all (fun c =>
        T.isSelfOrChildrenFixedType c.1 || isNonTrivialPreRestriction c.1))
  | _ => T.isNonTrivialCommon v
termination_by T.rank v
decreasing_by
  · exact T.rank_lt v c.1 (by rw [_h]; exact c.2)
  · exact T.rank_lt v c.1 (by rw [_h]; exact c.2)

/-- `ShouldGenerateCategoryClause`. -/
def shouldGenerateCategoryClause (v : V) : Bool :=
  match (T.childAgent v).archetypeNode with
  | none => false
  | some archetypeNode =>
      if archetypeNode = T.nodeType then false -- Clause wouldn't restrict
      else (T.childAgent v).isFixedType || T.isNonTrivialPreRestriction v

/-- The category that the agent at a link is restricted to. -/
def restriction (v : V) : Option A :=
  (T.childAgent v).archetypeNode.filter (fun _ => T.shouldGenerateCategoryClause v)

end

/-! ## §3. Queries. -/

section

variable [LinearOrder V] [LinearOrder L] [DecidableEq A]

omit [LinearOrder V] [LinearOrder L] [DecidableEq A] in
theorem length_keyerOperand {keyerPlink : V} :
    [variableExpr (A := A) (L := L) keyerPlink].length = 1 := rfl

/-- `SymbolicPreRestriction`. -/
def symbolicPreRestriction (keyerPlink : V) : Engine.Expression V L A (PatternNode A D) :=
  match T.restriction keyerPlink with
  | some archetypeNode => 
      .predicate ⟨.isInCategory archetypeNode, [variableExpr keyerPlink], length_keyerOperand⟩
  | none => .constant true

/-- `keyer_expr == mmax_expr`. -/
def isMMAX (plink : V) : Engine.Expression V L A (PatternNode A D) :=
  isEqual (variableExpr plink) (.symbolConstant .MMAX)

/-- `SymbolicPreRestriction(keyer_plink) | (keyer_expr==mmax_expr)`. -/
def preRestrictionOrMMAX (keyerPlink : V) : Engine.Expression V L A (PatternNode A D) :=
  Engine.orTidied (T.symbolicPreRestriction keyerPlink) (isMMAX keyerPlink)

/-- `mmax_rewriter`. -/
def mmaxRewriter : ClutchRewriter (PredicateOperator (SymbolExpression V L A) A (PatternNode A D))
    V where
  vars := Engine.predicateVariables
  isDisengager := isMMAX

/-- `PreRestrictedAgent::SymbolicNormalLinkedQueryMMed`, of a standard agent. -/
def symbolicNormalLinkedQueryMMed (patternNode : PatternNode A D) (plan : StandardPlan V)
    (keyerPlink : V) : Engine.Expression V L A (PatternNode A D) :=
  (T.symbolicPreRestriction keyerPlink).and
    (symbolicNormalLinkedQueryPRed patternNode.archetypeNode patternNode plan keyerPlink)

/-- `AutolocatingAgent::SymbolicNormalLinkedQuery`; a conjunction adds nothing in
`SymbolicAutolocatingQuery`. -/
def symbolicNormalLinkedQueryAutolocating (conjuncts : List V) (keyerPlink : V) :
    Engine.Expression V L A (PatternNode A D) :=
  let myExpr := BooleanExpression.constant true
  let myExpr := myExpr.andAll (conjuncts.map (fun plink =>
    isEqual (variableExpr keyerPlink) (variableExpr plink)))
  let myExpr := myExpr.and (.constant true)
  myExpr.and (T.preRestrictionOrMMAX keyerPlink)

/-- `DisjunctionAgent::SymbolicNormalLinkedQuery`; `none` is its assertion that there are
two disjuncts. -/
def symbolicNormalLinkedQueryDisjunction (disjuncts : List V) (keyerPlink : V) :
    Option (Engine.Expression V L A (PatternNode A D)) :=
  match disjuncts with
  | [front, back] =>
      let isKeyer plink := isEqual (variableExpr plink) (variableExpr keyerPlink)
      let mainExpr := Engine.orTidied ((isMMAX front).and (isKeyer back))
        ((isMMAX back).and (isKeyer front))
      some (mainExpr.and (T.preRestrictionOrMMAX keyerPlink))
  | _ => none

/-- `SymbolicNormalLinkedQuery` of the agent at a link; a standard agent's is
`DefaultMMAXAgent`'s.  A star has no normal link, and is not asked. -/
def symbolicNormalLinkedQuery (keyerPlink : V) :
    Option (Engine.Expression V L A (PatternNode A D)) :=
  match T.childAgent keyerPlink with
  | .standard patternNode items => do
      let plan ← StandardPlan.constructPlan T.isStar false items
      some (mmaxRewriter.applyDistributed
        (T.symbolicNormalLinkedQueryMMed patternNode plan keyerPlink))
  | .conjunction _ conjuncts => some (T.symbolicNormalLinkedQueryAutolocating conjuncts keyerPlink)
  | .disjunction _ disjuncts => T.symbolicNormalLinkedQueryDisjunction disjuncts keyerPlink
  | .star _ => none

/-- `Matcher::IsLocalMatch`, with the `IsLocalMatchCovariant` of the pattern node. -/
def isLocalMatch (db : XTreeDatabase L N A) (isLocalMatchCovariant : D → N → Bool)
    (patternNode : PatternNode A D) : Option N → Bool
  | none => false
  | some node =>
      if db.isSubcategory patternNode.archetypeNode node then
        isLocalMatchCovariant patternNode.data node
      else false

/-- What the predicates ask, of patterns with these nodes. -/
def kit (db : XTreeDatabase L N A) (simpleCompare : Option N → Option N → Int)
    (isLocalMatchCovariant : D → N → Bool) : PredicateKit (XLink L) A (PatternNode A D) :=
  databaseKit db simpleCompare (isLocalMatch db isLocalMatchCovariant)

end

end PatternTree

end Inferno.Agents
