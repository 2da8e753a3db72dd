import Llast.Emission

/-!
# Types of the emitted instructions

The generator compares data types in one place only, at the operands of a Binary,
and it compares what `dataType()` says of the tree.  The instructions are built from
what lies on the value stack.  `kindsAfter` follows the types of the values through a
walk; the emitted code and the folded operations are well typed exactly if they fit
wherever they are used.
-/

namespace Llast

open Llast.EventRun
open Llast.CodeGenVisitor

/-! ## Well typed instructions -/

/-- The operands have the types their operation needs. -/
def Operation.WellTyped (returnType : Option LlvmType) : Operation → Prop
  | .alloca _ _ => True
  | .load _ => True
  | .store value pointer => value.type = pointer.allocatedType
  | .binary opcode lhs rhs =>
      lhs.type = opcode.operandType ∧ rhs.type = opcode.operandType
  | .ret value => returnType = some value.type

instance (returnType : Option LlvmType) :
    (operation : Operation) → Decidable (operation.WellTyped returnType)
  | .alloca _ _ => .isTrue trivial
  | .load _ => .isTrue trivial
  | .store value pointer =>
      inferInstanceAs (Decidable (value.type = pointer.allocatedType))
  | .binary opcode lhs rhs =>
      inferInstanceAs (Decidable
        (lhs.type = opcode.operandType ∧ rhs.type = opcode.operandType))
  | .ret value => inferInstanceAs (Decidable (returnType = some value.type))

/-- The return type of the function a block belongs to. -/
def LlvmModule.returnTypeOf (owner : LlvmModule) (block : Nat) :
    Option LlvmType := do
  let basicBlock ← owner.blocks[block]?
  let function ← owner.functions[basicBlock.parent]?
  return function.returnType

/-- Every instruction of the module is well typed. -/
def LlvmModule.WellTyped (owner : LlvmModule) : Prop :=
  ∀ instruction ∈ owner.instructions,
    instruction.operation.WellTyped (owner.returnTypeOf instruction.parent)

instance (owner : LlvmModule) : Decidable owner.WellTyped :=
  inferInstanceAs (Decidable (∀ instruction ∈ owner.instructions, _))

/-- New functions and blocks do not change the blocks that are there. -/
theorem LlvmModule.returnTypeOf_append {owner next : LlvmModule}
    {functions : List LlvmFunction} {blocks : List BasicBlock} {block : Nat}
    {type : LlvmType}
    (functionsEq : next.functions = owner.functions ++ functions)
    (blocksEq : next.blocks = owner.blocks ++ blocks)
    (known : owner.returnTypeOf block = some type) :
    next.returnTypeOf block = some type := by
  simp only [LlvmModule.returnTypeOf, Option.bind_eq_bind,
    Option.bind_eq_some_iff] at known ⊢
  rcases known with ⟨basicBlock, place, function, entry, typed⟩
  refine ⟨basicBlock, ?_, function, ?_, typed⟩
  · rw [blocksEq, List.getElem?_append_left]
    · exact place
    · exact (List.getElem?_eq_some_iff.mp place).1
  · rw [functionsEq, List.getElem?_append_left]
    · exact entry
    · exact (List.getElem?_eq_some_iff.mp entry).1

/-! ## Folded operations -/

namespace CodeGenVisitor

/-- The operation of a Binary, if it is folded. -/
def foldedOperations (opcode : Opcode) (lhs rhs : Value) : List Operation :=
  if lhs.isConstant && rhs.isConstant then [.binary opcode lhs rhs] else []

/-- What a callback that completes hands to LLVM's folder in this state. -/
def folded (visitor : CodeGenVisitor) : Callback → List Operation
  | .visitedBinary _ operation rValueExpr =>
      match visitor.valueStack_, rValueExpr.dataType with
      | rValue :: lValue :: _, .ok dataType =>
          match opcodeOf dataType operation with
          | some opcode => foldedOperations opcode lValue rValue
          | none => []
      | _, _ => []
  | _ => []

end CodeGenVisitor

/-- What the callback hands to LLVM's folder when a walk gets to it is well typed. -/
def Site.FoldsWellTyped (past : List Site) (site : Site) : Prop :=
  ∀ visitor, run codeGen.performAt past {} = .ok () visitor →
    ∀ operation ∈ visitor.folded site.callback, operation.WellTyped none

/-! ## The kinds of the values on the stack -/

/-- What is known of a value before it is computed. -/
structure Kind where
  type : LlvmType
  constant : Bool
deriving DecidableEq, Repr

/-- The kind of a value. -/
def Value.kind (value : Value) : Kind where
  type := value.type
  constant := value.isConstant

/-- The type of the variable a name stands for at a place. -/
def resolvedType (path : Path) (name : String) : LlvmType :=
  match (enclosingBlocks path).find? fun block => block.2.Declares name with
  | some block =>
      match block.2.variables.find? fun var => var.name = name with
      | some var => llvmType var.dataType
      | none => .void
  | none => .void

/-- The type both operands of a Binary are used at. -/
def operandType (rValue : Expr) : LlvmType :=
  match rValue.dataType with
  | .ok dataType => llvmType dataType
  | .error _ => .void

/-- The kind of what an operation at a type makes of its operands. -/
def Kind.operate (type : LlvmType) (lhs rhs : Kind) : Kind where
  type :=
    if lhs.constant && rhs.constant then
      if lhs.type = type ∧ rhs.type = type then type else .unspecified
    else
      lhs.type
  constant := lhs.constant && rhs.constant

/-- Operands of the operation's type make a value of this type. -/
theorem Kind.operate_of_fit {type : LlvmType} {lhs rhs : Kind}
    (left : lhs.type = type) (right : rhs.type = type) :
    lhs.operate type rhs = ⟨type, lhs.constant && rhs.constant⟩ := by
  simp [Kind.operate, left, right]

theorem CodeGenVisitor.operated_kind (visitor : CodeGenVisitor) (opcode : Opcode)
    (lhs rhs : Value) :
    (visitor.operated opcode lhs rhs).1.kind =
      lhs.kind.operate opcode.operandType rhs.kind := by
  cases lhs <;> cases rhs <;> rfl

/-- The kind of the value a callback pushes, given those on the stack. -/
def Site.kind (site : Site) (kinds : List Kind) : Kind :=
  match site.callback, kinds with
  | .visitLiteralInt32 _, _ => ⟨.int32, true⟩
  | .visitLiteralFloat _, _ => ⟨.float, true⟩
  | .visitVariableRef var, _ => ⟨resolvedType site.path var.name, false⟩
  | .visitedBinary _ _ rValueExpr, rValue :: lValue :: _ =>
      lValue.operate (operandType rValueExpr) rValue
  | _, _ => ⟨.void, false⟩

/-- The kinds of the values on the stack after some callbacks. -/
def kindsAfter (past : List Site) : List Kind :=
  past.foldl (Site.onStack Site.kind) []

theorem operandType_of_opcodeOf {rValue : Expr} {dataType : DataType}
    {operation : OperationKind} {opcode : Opcode}
    (typed : rValue.dataType = .ok dataType)
    (chosen : opcodeOf dataType operation = some opcode) :
    operandType rValue = opcode.operandType := by
  rw [operandType, typed]
  exact llvmType_of_getType (getType_of_opcodeOf chosen)

/-- The types at which a callback uses the values it takes, the topmost first. -/
def Site.usedAt (site : Site) : List LlvmType :=
  match site.callback with
  | .visitedAssignVariable var _ => [resolvedType site.path var.name]
  | .visitedBinary _ _ rValueExpr =>
      [operandType rValueExpr, operandType rValueExpr]
  | .visitedReturn _ =>
      ((enclosingFunction site.path).map fun func =>
        llvmType func.returnType).toList
  | _ => []

/-- The values a callback takes have the types at which it uses them. -/
def Site.KindsFit (site : Site) (kinds : List Kind) : Prop :=
  site.usedAt <+: kinds.map Kind.type

instance (site : Site) (kinds : List Kind) : Decidable (site.KindsFit kinds) :=
  inferInstanceAs (Decidable (site.usedAt <+: kinds.map Kind.type))

/-- The values a callback takes have the types at which it uses them. -/
def Site.WellKinded (past : List Site) (site : Site) : Prop :=
  site.KindsFit (kindsAfter past)

instance (past : List Site) (site : Site) : Decidable (site.WellKinded past) :=
  inferInstanceAs (Decidable (site.KindsFit (kindsAfter past)))

/-- A callback that uses no value fits. -/
theorem Site.kindsFit_of_usesNone {site : Site} (uses : site.usedAt = [])
    (kinds : List Kind) : site.KindsFit kinds := by
  rw [Site.KindsFit, uses]
  exact List.nil_prefix

/-! ## Variables have the types of their declarations -/

/-- In a Block that was entered a name is declared once. -/
theorem CreatedOnEntry.distinct {past : List Site} {path : Path}
    {scope : Scope} {name : String} {inst : AllocaInst}
    (created : CreatedOnEntry past path scope name inst) :
    (scope.variables.map Variable.name).Nodup := by
  obtain ⟨before, expressions, after, entry, inside, code, split, reaches,
    completes, appended, member⟩ := created
  have performs : Performs entry (.visitingBlock scope expressions) inside :=
    performs_of_visitingBlock completes
  cases performs with
  | visitingBlock expressions faultless =>
      exact (declarationFault_eq_none_iff.mp faultless).1
  | silent visitor notOverridden => exact notOverridden.elim

theorem ResolvesTo.allocatedType {past : List Site} {path : Path}
    {name : String} {inst : AllocaInst}
    (resolves : ResolvesTo past (enclosingBlocks path) name inst) :
    inst.allocatedType = resolvedType path name := by
  rcases resolves with
    ⟨inner, place, scope, outer, split, missing, ⟨var, member, named, typed⟩, created⟩
  have block :
      (enclosingBlocks path).find? (fun block => block.2.Declares name) =
        some (place, scope) := by
    rw [split, List.find?_append]
    have skipped :
        inner.find? (fun block => block.2.Declares name) = none := by
      rw [List.find?_eq_none]
      intro other inside
      simpa using missing other inside
    have declares : scope.Declares name := ⟨var, member, named⟩
    rw [skipped, List.find?_cons]
    simp [declares]
  have declaration :
      scope.variables.find? (fun var => var.name = name) = some var := by
    rw [← named]
    exact find?_of_distinct created.distinct member
  simp only [resolvedType, block, declaration, typed]

theorem Framed.allocatedType {past : List Site} {path : Path}
    {scopes : List AllocaScope} {frames : List Frame}
    (framed : Framed past (enclosingBlocks path) scopes frames)
    {name : String} {inst : AllocaInst}
    (found : findAlloca name scopes = some inst) :
    inst.allocatedType = resolvedType path name :=
  (framed.resolvesTo found).allocatedType

/-- The kinds computed from the tree are those of the values. -/
theorem Module.kinds_of_run {owner : Module} {past future : List Site}
    {visitor : CodeGenVisitor} (split : owner.sites = past ++ future)
    (reaches : run codeGen.performAt past {} = .ok () visitor) :
    visitor.valueStack_.map Value.kind = kindsAfter past := by
  have related : List.Forall₂ (fun value kind => value.kind = kind)
      visitor.valueStack_ (kindsAfter past) := by
    refine @Module.valueStack_related owner Kind
      (fun _ value kind => value.kind = kind) Site.kind
      (fun _ _ _ _ same => same) ?_ past future visitor split reaches
    intro past site before after value rest kinds reached performs pushes
      stack same
    rcases reached.framed with ⟨frames, framed⟩
    rcases site with ⟨path, callback⟩
    cases performs with
    | visitLiteralInt32 visitor literal =>
        cases stack
        rfl
    | visitLiteralFloat visitor literal =>
        cases stack
        rfl
    | visitVariableRef found =>
        cases stack
        simp [Value.kind, Site.kind, Value.type, Value.isConstant,
          framed.allocatedType found]
    | visitedAssignVariable valueExpr found values =>
        cases stack
        rfl
    | visitedBinary left right chosen values =>
        rename_i opcode lValue rValue below
        have type := operandType_of_opcodeOf right chosen
        rw [values] at same
        cases same with
        | cons top others =>
            cases others with
            | cons next others =>
                subst top
                subst next
                cases stack
                show (before.operated opcode lValue rValue).1.kind =
                  lValue.kind.operate (operandType _) rValue.kind
                rw [operated_kind, type]
    | silent visitor notOverridden =>
        cases callback <;>
          first
            | exact notOverridden.elim
            | exact absurd pushes Bool.false_ne_true
    | _ => exact absurd pushes Bool.false_ne_true
  rw [← List.forall₂_eq_eq_eq, List.forall₂_map_left_iff]
  exact related

theorem Module.Reaches.kinds {owner : Module} {past : List Site}
    {site : Site} {visitor : CodeGenVisitor}
    (reached : owner.Reaches past site visitor) :
    visitor.valueStack_.map Value.kind = kindsAfter past := by
  rcases reached.occurs with ⟨future, split⟩
  exact Module.kinds_of_run split reached.reaches

/-! ## The block of the open function -/

/-- The function that is open after some callbacks. -/
def functionAfter (past : List Site) : Option Function :=
  (past.foldl Surroundings.follow (Path.surroundings [])).function

theorem Module.functionAfter_eq {owner : Module} {past future : List Site}
    {site : Site} (split : owner.sites = past ++ site :: future) :
    functionAfter past = site.openFunction := by
  rw [functionAfter, owner.surroundings_eq split]
  rfl

/-- The current block belongs to a function with the open function's type. -/
def CodeGenVisitor.InFunction (visitor : CodeGenVisitor) (func : Function) :
    Prop :=
  visitor.module_.returnTypeOf visitor.block_ = some (llvmType func.returnType)

theorem CodeGenVisitor.Emits.returnTypeOf {before after : CodeGenVisitor}
    {operations : List Operation} (emits : Emits before after operations)
    (block : Nat) :
    after.module_.returnTypeOf block = before.module_.returnTypeOf block := by
  simp only [LlvmModule.returnTypeOf, emits.functions, emits.blocks]

theorem CodeGenVisitor.inFunction_entered {visitor : CodeGenVisitor}
    {func : Function} {returnType : LlvmType} {owner : LlvmModule}
    {index : Nat} (mapped : getType func.returnType = .ok returnType)
    (inserts :
      visitor.module_.getOrInsertFunction func.name returnType =
        (owner, .function index)) :
    (visitor.entered owner index).InFunction func := by
  rcases LlvmModule.getOrInsertFunction_entry inserts with ⟨blocks, -, -, entry⟩
  simp [InFunction, LlvmModule.returnTypeOf, entered, entry,
    llvmType_of_getType mapped]

theorem Module.inFunction_of_run {owner : Module} {past future : List Site}
    {visitor : CodeGenVisitor} (split : owner.sites = past ++ future)
    (reaches : run codeGen.performAt past {} = .ok () visitor) :
    ∀ func, functionAfter past = some func → visitor.InFunction func := by
  refine owner.reached_induction (motive := fun past visitor =>
    ∀ func, functionAfter past = some func → visitor.InFunction func)
    ?_ ?_ split reaches
  · intro func absent
    cases absent
  intro past site before after reached performs known func opened
  rw [functionAfter, List.foldl_append, List.foldl_cons, List.foldl_nil]
    at opened
  rcases site with ⟨path, callback⟩
  by_cases moves : callback.Moves
  · rcases performs.of_moves moves with ⟨other, rfl⟩ | ⟨other, rfl, rfl⟩
    · rcases performs.of_visitingFunction with
        ⟨returnType, owner, index, mapped, inserts, rfl⟩
      cases opened
      exact inFunction_entered mapped inserts
    · -- the module is entered before any function is open
      rcases reached.occurs with ⟨future, occurs⟩
      rw [Module.past_of_visitingModule occurs] at opened
      cases opened
  · have emits := performs.emits moves
    have same : functionAfter past = some func := by
      cases callback <;>
        first | exact absurd trivial moves | exact opened | cases opened
    have holds := known func same
    rw [InFunction, emits.returnTypeOf, emits.block]
    exact holds

/-! ## The emitted code -/

section Emission

variable {owner : Module} {past : List Site} {site : Site}
variable {before after : CodeGenVisitor}
variable (reached : owner.Reaches past site before)

include reached

/-- The block of an emitting callback belongs to its function. -/
theorem Module.Reaches.inFunction (inner : ¬ site.callback.Outer)
    (present : site.callback ≠ .nullArgument) :
    ∃ func, enclosingFunction site.path = some func ∧
      before.InFunction func := by
  rcases reached.occurs with ⟨future, split⟩
  have member : site ∈ owner.sites := by simp [split]
  rcases Module.enclosingFunction_of_inner member inner present with
    ⟨func, around⟩
  have opened : functionAfter past = some func := by
    rw [Module.functionAfter_eq split, Site.openFunction_of_inner inner, around]
  exact ⟨func, around,
    Module.inFunction_of_run split reached.reaches func opened⟩

/-- What a callback hands to LLVM is well typed exactly if what it uses fits. -/
theorem Module.Reaches.wellTyped_iff {func : Function}
    (around : enclosingFunction site.path = some func)
    (performs : Performs before site.callback after) :
    ((∀ operation ∈ before.operations site.callback,
        operation.WellTyped (some (llvmType func.returnType))) ∧
      site.FoldsWellTyped past) ↔ site.WellKinded past := by
  have kinds := reached.kinds
  have folds : site.FoldsWellTyped past ↔
      ∀ operation ∈ before.folded site.callback, operation.WellTyped none := by
    constructor
    · exact fun wellTyped => wellTyped before reached.reaches
    · intro wellTyped visitor reaches
      rw [reached.reaches] at reaches
      cases reaches
      exact wellTyped
  rw [folds]
  rcases reached.framed with ⟨frames, framed⟩
  rcases site with ⟨path, callback⟩
  cases performs with
  | visitingBlock expressions faultless =>
      simp [operations, folded, Site.WellKinded, Operation.WellTyped,
        Site.KindsFit, Site.usedAt]
  | visitedAssignVariable valueExpr found stack =>
      rw [stack] at kinds
      simp [operations, folded, found, stack, Site.WellKinded, Site.KindsFit,
        Site.usedAt, ← kinds, Operation.WellTyped, Value.kind,
        framed.allocatedType found, eq_comm]
  | visitedBinary left right chosen stack =>
      rename_i opcode lValue rValue rest
      rw [stack] at kinds
      simp only [operations, folded, stack, right, chosen, Site.WellKinded,
        Site.KindsFit, Site.usedAt, ← kinds, List.map_cons, Value.kind,
        operandType_of_opcodeOf right chosen, binaryOperations,
        foldedOperations]
      -- the operation is either folded or inserted
      cases constant : lValue.isConstant && rValue.isConstant <;>
        simp [Operation.WellTyped, and_comm, eq_comm]
  | visitVariableRef found =>
      simp [operations, folded, found, Site.WellKinded, Operation.WellTyped,
        Site.KindsFit, Site.usedAt]
  | visitedReturn valueExpr stack =>
      rw [stack] at kinds
      simp [operations, folded, stack, Site.WellKinded, Site.KindsFit,
        Site.usedAt, ← kinds, Operation.WellTyped, Value.kind, around]
  | silent visitor notOverridden =>
      cases callback <;>
        first
          | exact notOverridden.elim
          | simp [operations, folded, Site.WellKinded, Site.KindsFit,
              Site.usedAt]
  | _ =>
      simp [operations, folded, Site.WellKinded, Site.KindsFit, Site.usedAt]

end Emission

/-- Everything in the module belongs to a function, and fits or does not. -/
structure TypedSoFar (past : List Site) (visitor : CodeGenVisitor) : Prop where
  belongs : ∀ instruction ∈ visitor.module_.instructions,
    ∃ type, visitor.module_.returnTypeOf instruction.parent = some type
  wellTyped_iff :
    visitor.module_.WellTyped ∧ Throughout Site.FoldsWellTyped past ↔
      Throughout Site.WellKinded past

theorem TypedSoFar.step_of_inner {owner : Module} {past : List Site}
    {site : Site} {before after : CodeGenVisitor}
    (reached : owner.Reaches past site before)
    (performs : Performs before site.callback after)
    (inner : ¬ site.callback.Outer) (typed : TypedSoFar past before) :
    TypedSoFar (past ++ [site]) after := by
  have present : site.callback ≠ .nullArgument := by
    intro missing
    rw [missing] at performs
    cases performs with
    | silent visitor notOverridden => exact notOverridden.elim
  rcases reached.inFunction inner present with ⟨func, around, inFunction⟩
  have emits := performs.emits (Callback.not_moves_of_not_outer inner)
  have fits := reached.wellTyped_iff around performs
  have returnType : ∀ instruction ∈ placed before.context_.nextAddress
      before.block_ (before.operations site.callback),
      before.module_.returnTypeOf instruction.parent =
        some (llvmType func.returnType) := by
    intro instruction member
    rw [parent_of_mem_placed member]
    exact inFunction
  constructor
  · intro instruction member
    rw [emits.returnTypeOf]
    rw [emits.instructions] at member
    rcases List.mem_append.mp member with member | member
    · exact typed.belongs instruction member
    · exact ⟨_, returnType instruction member⟩
  · have emitted : (∀ instruction ∈ placed before.context_.nextAddress
        before.block_ (before.operations site.callback),
          instruction.operation.WellTyped
            (before.module_.returnTypeOf instruction.parent)) ↔
        ∀ operation ∈ before.operations site.callback,
          operation.WellTyped (some (llvmType func.returnType)) := by
      constructor
      · intro wellTyped operation member
        rw [← map_operation_placed before.context_.nextAddress before.block_
          (before.operations site.callback)] at member
        rcases List.mem_map.mp member with ⟨instruction, inside, rfl⟩
        rw [← returnType instruction inside]
        exact wellTyped instruction inside
      · intro wellTyped instruction member
        rw [returnType instruction member]
        apply wellTyped
        rw [← map_operation_placed before.context_.nextAddress before.block_
          (before.operations site.callback)]
        exact List.mem_map_of_mem member
    rw [throughout_append_singleton, throughout_append_singleton,
      ← typed.wellTyped_iff, ← fits, LlvmModule.WellTyped, emits.instructions,
      List.forall_mem_append]
    simp only [emits.returnTypeOf, emitted]
    exact and_and_and_comm

theorem Site.wellKinded_of_outer {past : List Site} {site : Site}
    (outer : site.callback.Outer) : site.WellKinded past := by
  rcases site with ⟨path, callback⟩
  cases callback <;>
    first | exact outer.elim | exact Site.kindsFit_of_usesNone rfl _

theorem Site.foldsWellTyped_of_outer {past : List Site} {site : Site}
    (outer : site.callback.Outer) : site.FoldsWellTyped past := by
  intro visitor _ operation member
  rcases site with ⟨path, callback⟩
  cases callback <;> first | exact outer.elim | cases member

/-- Entering a function leaves the blocks that are there as they are. -/
theorem TypedSoFar.enter {past : List Site} {site : Site}
    {before : CodeGenVisitor} {func : Function} {returnType : LlvmType}
    {owner : LlvmModule} {index : Nat} (typed : TypedSoFar past before)
    (inserts :
      before.module_.getOrInsertFunction func.name returnType =
        (owner, .function index))
    (outer : site.callback.Outer) :
    TypedSoFar (past ++ [site]) (before.entered owner index) := by
  rcases LlvmModule.getOrInsertFunction_entry inserts with
    ⟨blocks, instructions, ⟨functions, appended⟩, -⟩
  have keeps : ∀ instruction ∈ before.module_.instructions,
      (before.entered owner index).module_.returnTypeOf instruction.parent =
        before.module_.returnTypeOf instruction.parent := by
    intro instruction member
    rcases typed.belongs instruction member with ⟨type, known⟩
    have grown : (before.entered owner index).module_.blocks =
        before.module_.blocks ++ [⟨"functionBody", index⟩] := by
      rw [← blocks]
      rfl
    rw [known]
    exact LlvmModule.returnTypeOf_append appended grown known
  have same : (before.entered owner index).module_.instructions =
      before.module_.instructions := instructions
  constructor
  · intro instruction member
    rw [same] at member
    rw [keeps instruction member]
    exact typed.belongs instruction member
  · rw [throughout_append_singleton, throughout_append_singleton,
      ← typed.wellTyped_iff]
    simp only [Site.wellKinded_of_outer outer,
      Site.foldsWellTyped_of_outer outer, and_true, LlvmModule.WellTyped, same]
    apply and_congr_left'
    apply forall₂_congr
    intro instruction member
    rw [keeps instruction member]

theorem Module.typedSoFar_of_run {owner : Module} {past future : List Site}
    {visitor : CodeGenVisitor} (split : owner.sites = past ++ future)
    (reaches : run codeGen.performAt past {} = .ok () visitor) :
    TypedSoFar past visitor := by
  refine owner.reached_induction (motive := TypedSoFar) ?_ ?_ split reaches
  · exact ⟨by simp, by simp [LlvmModule.WellTyped, throughout_nil]⟩
  intro past site before after reached performs typed
  by_cases inner : site.callback.Outer
  · rcases site with ⟨path, callback⟩
    by_cases moves : callback.Moves
    · rcases performs.of_moves moves with ⟨func, rfl⟩ | ⟨other, rfl, rfl⟩
      · rcases performs.of_visitingFunction with
          ⟨returnType, llvmOwner, index, -, inserts, rfl⟩
        exact typed.enter inserts inner
      · rcases reached.occurs with ⟨future, occurs⟩
        rw [Module.past_of_visitingModule occurs]
        refine ⟨by simp, ?_⟩
        simp only [LlvmModule.WellTyped, List.not_mem_nil, false_imp_iff,
          implies_true, true_and]
        have kinded : Throughout Site.WellKinded
            ([] ++ [⟨[], .visitingNode (.module owner)⟩]) :=
          throughout_nil.append_singleton (Site.wellKinded_of_outer trivial)
        have folds : Throughout Site.FoldsWellTyped
            ([] ++ [⟨[], .visitingNode (.module owner)⟩]) :=
          throughout_nil.append_singleton (Site.foldsWellTyped_of_outer trivial)
        exact iff_of_true
          (folds.append_singleton (Site.foldsWellTyped_of_outer inner))
          (kinded.append_singleton (Site.wellKinded_of_outer inner))
    · have emits := performs.emits moves
      have nothing : before.operations callback = [] := by
        cases callback <;> first | rfl | exact inner.elim
      rw [nothing] at emits
      constructor
      · rw [emits.instructions, placed, List.append_nil]
        simpa only [emits.returnTypeOf] using typed.belongs
      · rw [throughout_append_singleton, throughout_append_singleton,
          ← typed.wellTyped_iff]
        simp only [Site.wellKinded_of_outer inner,
          Site.foldsWellTyped_of_outer inner, and_true, LlvmModule.WellTyped,
          emits.instructions, placed, List.append_nil, emits.returnTypeOf]
  · exact typed.step_of_inner reached performs inner

/--
If the walk of a module completes, all emitted instructions and all folded operations
are well typed exactly if at every callback the values on the stack have the types at
which the callback uses them.
-/
theorem well_typed_iff_kinds_fit (owner : Module) {final : CodeGenVisitor}
    (completes : walkTree codeGen owner {} = .ok () final) :
    (final.module_.WellTyped ∧
        ∀ past site future, owner.sites = past ++ site :: future →
          site.FoldsWellTyped past) ↔
      ∀ past site future, owner.sites = past ++ site :: future →
        site.WellKinded past := by
  rw [walkTree_eq_run] at completes
  have typed :=
    Module.typedSoFar_of_run (List.append_nil owner.sites).symm completes
  exact typed.wellTyped_iff

/-- `int f() { int x; x = 1.0f; return x; }`. -/
def floatIntoInt32 : Module :=
  let bb := ((BlockBuilder.addVariable {} ⟨0, "x", .int32⟩).addExpression
    (.assignVariable ⟨0, "x", .int32⟩ (.literalFloat 0x3f800000))).addExpression
      (.return (.variableRef ⟨0, "x", .int32⟩))
  let fb : FunctionBuilder :=
    { name_ := "f", returnType_ := .int32, blockBuilder_ := bb }
  (ModuleBuilder.addFunction { name_ := "floatIntoInt32" }
    (some (fb.build .insertion .insertion))).build

/-- A float is stored into an `i32` and nothing is thrown. -/
theorem floatIntoInt32_is_accepted :
    ∃ final, walkTree codeGen floatIntoInt32 {} = .ok () final ∧
      ¬ final.module_.WellTyped := by
  have completed :
      completedWith (fun final => decide ¬ final.module_.WellTyped)
        (walkTree codeGen floatIntoInt32 {}) = true := by
    decide +kernel
  rcases exists_of_completedWith completed with ⟨final, completes, illTyped⟩
  exact ⟨final, completes, of_decide_eq_true illTyped⟩

/-- `int f() { int x; x = 1 + 2; return x * 3; }`. -/
def int32Throughout : Module :=
  let x : Variable := ⟨0, "x", .int32⟩
  let sum : Expr := .binary (.literalInt32 1) .add (.literalInt32 2)
  let bb := ((BlockBuilder.addVariable {} x).addExpression
    (.assignVariable x sum)).addExpression
      (.return (.binary (.variableRef x) .mul (.literalInt32 3)))
  let fb : FunctionBuilder :=
    { name_ := "f", returnType_ := .int32, blockBuilder_ := bb }
  (ModuleBuilder.addFunction { name_ := "int32Throughout" }
    (some (fb.build .insertion .insertion))).build

theorem well_typed_iff_int32Throughout :
    ∃ final, walkTree codeGen int32Throughout {} = .ok () final ∧
      final.module_.WellTyped ∧
        ∀ past site future, int32Throughout.sites = past ++ site :: future →
          site.FoldsWellTyped past := by
  have completes : faultOf (walkTree codeGen int32Throughout {}) = none := by
    decide +kernel
  have kindsFit : Throughout Site.WellKinded int32Throughout.sites := by
    decide +kernel
  rcases ends_iff.mpr completes with ⟨final, completes⟩
  exact ⟨final, completes,
    (well_typed_iff_kinds_fit int32Throughout completes).mpr kindsFit⟩

end Llast
