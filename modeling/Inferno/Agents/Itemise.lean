/-
  Inferno.Agents.Itemise
  ──────────────────────
  `node/itemise.hpp`: the items of a node class, in the order in which the implicit copy
  assignment of the class assigns them.

    • `ClassHierarchy`    — classes with their bases and their own items,
    • `caught`            — what the assignment meets: the items of each base in turn, and
                            then the class's own,
    • `itemise`           — `ItemiseImpl`, which keeps the first of what it meets twice,
    • `NodeClasses`       — a hierarchy in which nothing is met twice,
    • `itemise_sublist`   — then a class has its bases' items, in their order,
    • `infernoClasses`    — the hierarchy of `tree/`.
-/
import Mathlib.Data.List.Nodup
import Mathlib.Data.List.Flatten
import Mathlib.Logic.Relation

namespace Inferno.Agents

/-! ## §1. Classes and their items. -/

/-- `TreePtr<>`, or `Sequence<>` and `Collection<>`. -/
inductive ItemKind where
  | singular | container
  deriving DecidableEq, Repr

/-- The node classes: each names its direct bases and its own items in order.  A base is
complete before a class derives from it, which `rank` says. -/
structure ClassHierarchy (C M : Type) where
  bases : C → List C
  own : C → List M
  kind : M → ItemKind
  rank : C → Nat
  rank_lt : ∀ c, ∀ b ∈ bases c, rank b < rank c

namespace ClassHierarchy

variable {C M : Type} (H : ClassHierarchy C M)

/-- What `operator=` of a class assigns.  The number bounds the depth of the bases. -/
def caughtWithin : Nat → C → List M
  | 0, _ => []
  | depth + 1, c => (H.bases c).flatMap (caughtWithin depth) ++ H.own c

/-- The elements that `d = s` assigns, in order. -/
def caught (c : C) : List M := H.caughtWithin (H.rank c + 1) c

theorem caughtWithin_eq (c : C) : ∀ depth, H.rank c < depth →
    H.caughtWithin depth c = H.caught c := by
  induction hr : H.rank c using Nat.strongRecOn generalizing c with
  | _ r ih =>
      intro depth hdepth
      have hbases : ∀ depth', r ≤ depth' →
          (H.bases c).flatMap (H.caughtWithin depth') = (H.bases c).flatMap H.caught := by
        intro depth' hd
        refine List.flatMap_congr fun b hb => ?_
        have hlt : H.rank b < r := hr ▸ H.rank_lt c b hb
        exact ih (H.rank b) hlt b rfl depth' (by omega)
      cases depth with
      | zero => omega
      | succ depth =>
          unfold caught
          show (H.bases c).flatMap (H.caughtWithin depth) ++ H.own c
            = (H.bases c).flatMap (H.caughtWithin (H.rank c)) ++ H.own c
          rw [hbases depth (by omega), hbases (H.rank c) (by omega)]

theorem caught_eq (c : C) : H.caught c = (H.bases c).flatMap H.caught ++ H.own c := by
  show (H.bases c).flatMap (H.caughtWithin (H.rank c)) ++ H.own c = _
  congr 1
  refine List.flatMap_congr fun b hb => ?_
  exact H.caughtWithin_eq b _ (H.rank_lt c b hb)

section

variable [DecidableEq C] [DecidableEq M]

/-- `Element::operator=`: "don't insert if in there already". -/
def catchElement (v : List M) (m : M) : List M := if m ∈ v then v else v ++ [m]

/-- `ItemiseImpl`. -/
def itemise (c : C) : List M := (H.caught c).foldl catchElement []

/-- The `dynamic_cast` to a class, of an object of the class `c`.  The number bounds the
depth of the bases. -/
def castsWithin (arch : C) : Nat → C → Bool
  | 0, _ => false
  | depth + 1, c => c = arch || (H.bases c).any (castsWithin arch depth)

/-- `IsSubcategory`: objects of the class `c` are of the class `arch`. -/
def isSubcategory (arch c : C) : Bool := H.castsWithin arch (H.rank c + 1) c

end

/-- The class `c` is `arch` or derives from it. -/
def Derives (arch c : C) : Prop := Relation.ReflTransGen (fun d b => b ∈ H.bases d) c arch

section

variable {H} [DecidableEq C] [DecidableEq M]

omit [DecidableEq M] in
theorem castsWithin_iff {arch c : C} : ∀ depth, H.rank c < depth →
    (H.castsWithin arch depth c = true ↔ H.Derives arch c) := by
  induction hr : H.rank c using Nat.strongRecOn generalizing c with
  | _ r ih =>
      intro depth hdepth
      cases depth with
      | zero => omega
      | succ depth =>
          show (decide (c = arch) || (H.bases c).any (H.castsWithin arch depth)) = true ↔ _
          rw [Bool.or_eq_true, decide_eq_true_eq, List.any_eq_true]
          have hbase : ∀ b ∈ H.bases c, H.castsWithin arch depth b = true ↔ H.Derives arch b := by
            intro b hb
            have hlt : H.rank b < r := hr ▸ H.rank_lt c b hb
            exact ih (H.rank b) hlt rfl depth (by omega)
          constructor
          · rintro (rfl | ⟨b, hb, hcast⟩)
            · exact Relation.ReflTransGen.refl
            · exact Relation.ReflTransGen.head hb ((hbase b hb).mp hcast)
          · intro h
            rcases Relation.ReflTransGen.cases_head h with heq | ⟨b, hb, hrest⟩
            · exact Or.inl heq
            · exact Or.inr ⟨b, hb, (hbase b hb).mpr hrest⟩

omit [DecidableEq M] in
theorem isSubcategory_iff {arch c : C} : H.isSubcategory arch c = true ↔ H.Derives arch c :=
  castsWithin_iff _ (Nat.lt_succ_self _)

omit [DecidableEq C] [DecidableEq M] in
theorem rank_le_of_derives {arch c : C} (h : H.Derives arch c) : H.rank arch ≤ H.rank c := by
  induction h with
  | refl => exact Nat.le_refl _
  | tail _ hb ih => exact Nat.le_trans (Nat.le_of_lt (H.rank_lt _ _ hb)) ih

omit [DecidableEq M] in
/-- Two classes that derive from each other are the same one. -/
theorem derives_antisymm {c d : C} (h : H.Derives c d) (h' : H.Derives d c) : c = d := by
  rcases Relation.ReflTransGen.cases_head h with heq | ⟨b, hb, hrest⟩
  · exact heq.symm
  · have hlt := H.rank_lt d b hb
    have hle : H.rank c ≤ H.rank b := rank_le_of_derives hrest
    have hle' : H.rank d ≤ H.rank c := rank_le_of_derives h'
    omega

omit [DecidableEq C] [DecidableEq M] in
theorem caught_sublist {arch c : C} (h : H.Derives arch c) :
    (H.caught arch).Sublist (H.caught c) := by
  induction h using Relation.ReflTransGen.head_induction_on with
  | refl => exact List.Sublist.refl _
  | @head d _ hb _ ih =>
      rw [H.caught_eq d]
      refine (ih.trans ?_).trans (List.sublist_append_left _ _)
      have hone := (List.singleton_sublist.mpr hb).flatMap H.caught
      rwa [List.flatMap_singleton] at hone

theorem foldl_catchElement {l v : List M} (h : (v ++ l).Nodup) :
    l.foldl catchElement v = v ++ l := by
  induction l generalizing v with
  | nil => exact (List.append_nil v).symm
  | cons m l ih =>
      have hm : m ∉ v := by
        intro hmem
        exact (List.nodup_append.mp h).2.2 m hmem m List.mem_cons_self rfl
      have hcatch : catchElement v m = v ++ [m] := if_neg hm
      rw [List.foldl_cons, hcatch, ih (by rwa [List.append_assoc]), List.append_assoc]
      rfl

end

end ClassHierarchy

/-! ## §2. Hierarchies in which a class meets each item once. -/

/-- Node classes that inherit no item twice. -/
structure NodeClasses (C M : Type) extends ClassHierarchy C M where
  once : ∀ c, (toClassHierarchy.caught c).Nodup

namespace NodeClasses

variable {C M : Type} [DecidableEq C] [DecidableEq M] {H : NodeClasses C M} {arch c : C}

omit [DecidableEq C] in
theorem itemise_eq (c : C) : H.itemise c = H.caught c :=
  ClassHierarchy.foldl_catchElement (v := []) (H.once c)

omit [DecidableEq C] in
theorem itemise_nodup (c : C) : (H.itemise c).Nodup := by
  rw [itemise_eq]
  exact H.once c

omit [DecidableEq C] in
/-- **The items of a base are those of the class in the same order**, with others among
them. -/
theorem itemise_sublist (h : H.Derives arch c) : (H.itemise arch).Sublist (H.itemise c) := by
  rw [itemise_eq, itemise_eq]
  exact ClassHierarchy.caught_sublist h

end NodeClasses

/-! ## §3. The classes of `tree/`. -/

/-- The classes that declare items or inherit some from two bases, and
`SpecificIdentifier`.  A class in between that does neither has the items of its base. -/
inductive NodeClass where
  | declScope | idValuePair | mapArgumentation | seqArgumentation | memberInitialiser
  | membInitSeq | view | instance_ | member | base | labelDeclaration | callableParams
  | callableParamsReturn | array | indirection | integral | floating | typeDeclaration
  | typedef | record | inheritanceRecord | nonCommutativeOperator | commutativeOperator
  | conditionalOperator
  | subscript | arrayInitialiser | new | delete | lookup | cast | goSub | call
  | constructInitialiser | funcOnType | sequentialScope | return_ | goto | if_ | breakable
  | while_ | do_ | for_ | switch | rangeCase | case_ | macroField | macroStatement | include_
  | scDynamicFunction | notify | notifyTimed | terminationFunction | stateLabel
  | specificIdentifier
  deriving DecidableEq, Repr

/-- Their items, each with the name of the class that declares it. -/
inductive NodeMember where
  | declScopeMembers | idValuePairKey | idValuePairValue | mapArgumentationArguments
  | seqArgumentationArguments | memberInitialiserMemberId | memberInitialiserInitialiser
  | membInitSeqMembInits | viewType | viewConstancy | instanceType | instanceIdentifier
  | instanceInitialiser | instanceConstancy | memberVirt | memberAccess | baseAccess | baseRecord
  | labelDeclarationIdentifier | callableParamsParams | callableParamsReturnReturnType
  | arrayElement | arraySize | indirectionDestination | indirectionConstancy | integralWidth
  | floatingSemantics | typeDeclarationIdentifier | typedefType
  | inheritanceRecordBases | nonCommutativeOperatorOperands | commutativeOperatorOperands
  | conditionalOperatorCondition | conditionalOperatorExprThen | conditionalOperatorExprElse
  | subscriptDestination | subscriptIndex | arrayInitialiserElements | newType
  | newPlacementArgumentation | newConstructorId | newConstructorArgumentation | newGlobal
  | deletePointer | deleteArray | deleteGlobal | lookupObject | lookupMember | castOperand
  | castType | goSubCallee | callArgumentation | constructInitialiserConstructorId
  | constructInitialiserArgumentation | funcOnTypeArgument | sequentialScopeStatements
  | returnReturnValue | gotoDestination | ifCondition | ifBody | ifBodyElse | breakableBody
  | whileCondition | doCondition | forInitialisation | forCondition | forIncrement
  | switchCondition | rangeCaseValueLo | rangeCaseValueHi | caseValue | macroFieldIdentifier
  | macroFieldArguments | macroFieldInitialiser | macroStatementIdentifier
  | macroStatementArguments | includeFilename | scDynamicFunctionEvent | notifyEvent
  | notifyTimedTime | terminationFunctionCode | stateLabelState
  deriving DecidableEq, Repr

namespace NodeClass

/-- The bases with items. -/
def bases : NodeClass → List NodeClass
  | .member => [.instance_, .membInitSeq]
  | .callableParamsReturn => [.callableParams]
  | .typedef => [.typeDeclaration]
  | .record => [.typeDeclaration, .declScope]
  | .inheritanceRecord => [.record]
  | .call => [.goSub]
  | .sequentialScope => [.declScope]
  | .while_ => [.breakable]
  | .do_ => [.breakable]
  | .for_ => [.breakable]
  | .switch => [.breakable]
  | .macroField => [.membInitSeq]
  | .notifyTimed => [.notify]
  | .stateLabel => [.labelDeclaration]
  | _ => []

/-- The items that a class declares. -/
def own : NodeClass → List NodeMember
  | .declScope => [.declScopeMembers]
  | .idValuePair => [.idValuePairKey, .idValuePairValue]
  | .mapArgumentation => [.mapArgumentationArguments]
  | .seqArgumentation => [.seqArgumentationArguments]
  | .memberInitialiser => [.memberInitialiserMemberId, .memberInitialiserInitialiser]
  | .membInitSeq => [.membInitSeqMembInits]
  | .view => [.viewType, .viewConstancy]
  | .instance_ => [.instanceType, .instanceIdentifier, .instanceInitialiser, .instanceConstancy]
  | .member => [.memberVirt, .memberAccess]
  | .base => [.baseAccess, .baseRecord]
  | .labelDeclaration => [.labelDeclarationIdentifier]
  | .callableParams => [.callableParamsParams]
  | .callableParamsReturn => [.callableParamsReturnReturnType]
  | .array => [.arrayElement, .arraySize]
  | .indirection => [.indirectionDestination, .indirectionConstancy]
  | .integral => [.integralWidth]
  | .floating => [.floatingSemantics]
  | .typeDeclaration => [.typeDeclarationIdentifier]
  | .typedef => [.typedefType]
  | .inheritanceRecord => [.inheritanceRecordBases]
  | .nonCommutativeOperator => [.nonCommutativeOperatorOperands]
  | .commutativeOperator => [.commutativeOperatorOperands]
  | .conditionalOperator =>
      [.conditionalOperatorCondition, .conditionalOperatorExprThen, .conditionalOperatorExprElse]
  | .subscript => [.subscriptDestination, .subscriptIndex]
  | .arrayInitialiser => [.arrayInitialiserElements]
  | .new =>
      [.newType, .newPlacementArgumentation, .newConstructorId, .newConstructorArgumentation,
        .newGlobal]
  | .delete => [.deletePointer, .deleteArray, .deleteGlobal]
  | .lookup => [.lookupObject, .lookupMember]
  | .cast => [.castOperand, .castType]
  | .goSub => [.goSubCallee]
  | .call => [.callArgumentation]
  | .constructInitialiser =>
      [.constructInitialiserConstructorId, .constructInitialiserArgumentation]
  | .funcOnType => [.funcOnTypeArgument]
  | .sequentialScope => [.sequentialScopeStatements]
  | .return_ => [.returnReturnValue]
  | .goto => [.gotoDestination]
  | .if_ => [.ifCondition, .ifBody, .ifBodyElse]
  | .breakable => [.breakableBody]
  | .while_ => [.whileCondition]
  | .do_ => [.doCondition]
  | .for_ => [.forInitialisation, .forCondition, .forIncrement]
  | .switch => [.switchCondition]
  | .rangeCase => [.rangeCaseValueLo, .rangeCaseValueHi]
  | .case_ => [.caseValue]
  | .macroField => [.macroFieldIdentifier, .macroFieldArguments, .macroFieldInitialiser]
  | .macroStatement => [.macroStatementIdentifier, .macroStatementArguments]
  | .include_ => [.includeFilename]
  | .scDynamicFunction => [.scDynamicFunctionEvent]
  | .notify => [.notifyEvent]
  | .notifyTimed => [.notifyTimedTime]
  | .terminationFunction => [.terminationFunctionCode]
  | .stateLabel => [.stateLabelState]
  | _ => []

def rank : NodeClass → Nat
  | .inheritanceRecord => 2
  | .member | .callableParamsReturn | .typedef | .record | .call | .sequentialScope
  | .while_ | .do_ | .for_ | .switch | .macroField | .notifyTimed | .stateLabel => 1
  | _ => 0

end NodeClass

def NodeMember.kind : NodeMember → ItemKind
  | .declScopeMembers | .mapArgumentationArguments | .seqArgumentationArguments
  | .membInitSeqMembInits | .callableParamsParams | .inheritanceRecordBases
  | .nonCommutativeOperatorOperands | .commutativeOperatorOperands | .arrayInitialiserElements
  | .sequentialScopeStatements | .macroFieldArguments | .macroStatementArguments => .container
  | _ => .singular

/-- The hierarchy of `cpptree.hpp`, `sctree.hpp` and `localtree.hpp`. -/
def nodeHierarchy : ClassHierarchy NodeClass NodeMember where
  bases := NodeClass.bases
  own := NodeClass.own
  kind := NodeMember.kind
  rank := NodeClass.rank
  rank_lt := by
    intro c
    cases c <;> decide

/-- None of these classes inherits an item twice. -/
def infernoClasses : NodeClasses NodeClass NodeMember where
  toClassHierarchy := nodeHierarchy
  once := by
    intro c
    cases c <;> decide

example : infernoClasses.itemise .member =
    [.instanceType, .instanceIdentifier, .instanceInitialiser, .instanceConstancy,
      .membInitSeqMembInits, .memberVirt, .memberAccess] := by
  decide

end Inferno.Agents
