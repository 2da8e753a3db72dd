import Llast.CodeGenVisitor

/-!
# What each callback of the generator does

One equation for each callback and each way it can end.  Everything that is
said about runs of the generator rests on these equations; the bodies of the
callbacks are not unfolded again.
-/

namespace Llast.CodeGenVisitor

/-! ## Nodes -/

/-- What leaving a node below some other node leaves of the value stack. -/
def discarded {Entry : Type} (node : Node) (values : List Entry) :
    List Entry :=
  if node.nodeKind = some .block then values.tail else values

theorem visitedNode_eq {node top parent : Node} {ancestry : List Node}
    {visitor : CodeGenVisitor}
    (inside : visitor.ancestryStack_ = top :: parent :: ancestry) :
    visitedNode node visitor =
      .ok () { visitor with
        ancestryStack_ := parent :: ancestry
        valueStack_ := discarded node visitor.valueStack_ } := by
  rcases visitor with ⟨context, owner, function, block, scopes, values, nodes⟩
  subst inside
  rw [visitedNode, bind_of_ok (by rfl)]
  by_cases isBlock : node.nodeKind = some .block
  · cases values with
    | nil => simp [discarded, isBlock]; rfl
    | cons value rest => simp [discarded, isBlock]; rfl
  · simp [discarded, isBlock]; rfl

theorem visitedNode_empty {node : Node} {visitor : CodeGenVisitor}
    (empty : visitor.ancestryStack_ = []) :
    visitedNode node visitor = .error (.undefined .emptyStack) visitor := by
  rcases visitor with ⟨context, owner, function, block, scopes, values, nodes⟩
  subst empty
  rfl

/-- Leaving the outermost node discards nothing. -/
theorem visitedNode_outermost {node top : Node} {visitor : CodeGenVisitor}
    (outermost : visitor.ancestryStack_ = [top]) :
    visitedNode node visitor =
      .ok () { visitor with ancestryStack_ := [] } := by
  rcases visitor with ⟨context, owner, function, block, scopes, values, nodes⟩
  subst outermost
  rw [visitedNode, bind_of_ok (by rfl)]
  simp
  rfl

/-! ## Variables -/

theorem lookupVariable_of_some {name : String} {visitor : CodeGenVisitor}
    {inst : AllocaInst}
    (found : findAlloca name visitor.allocaScopeStack_ = some inst) :
    lookupVariable name visitor = .ok inst visitor := by
  rw [lookupVariable, bind_of_ok (by rfl), found]
  rfl

theorem lookupVariable_of_none {name : String} {visitor : CodeGenVisitor}
    (missing : findAlloca name visitor.allocaScopeStack_ = none) :
    lookupVariable name visitor =
      .error (.thrown (notDefined name)) visitor := by
  rw [lookupVariable, bind_of_ok (by rfl), missing]
  rfl

theorem visitVariableRef_of_some {var : Variable} {visitor : CodeGenVisitor}
    {inst : AllocaInst}
    (found : findAlloca var.name visitor.allocaScopeStack_ = some inst) :
    visitVariableRef var visitor =
      .ok () { visitor.inserted (.load inst) with
        valueStack_ :=
          .instruction visitor.context_.nextAddress inst.allocatedType ::
            visitor.valueStack_ } := by
  rw [visitVariableRef, bind_of_ok (lookupVariable_of_some found)]
  rfl

theorem visitVariableRef_of_none {var : Variable} {visitor : CodeGenVisitor}
    (missing : findAlloca var.name visitor.allocaScopeStack_ = none) :
    visitVariableRef var visitor =
      .error (.thrown (notDefined var.name)) visitor := by
  rw [visitVariableRef]
  exact bind_of_error (lookupVariable_of_none missing)

theorem popValue_cons {visitor : CodeGenVisitor} {value : Value}
    {rest : List Value} (stack : visitor.valueStack_ = value :: rest) :
    popValue visitor = .ok value { visitor with valueStack_ := rest } := by
  rcases visitor with ⟨context, owner, function, block, scopes, values, nodes⟩
  subst stack
  rfl

theorem popValue_nil {visitor : CodeGenVisitor}
    (stack : visitor.valueStack_ = []) :
    popValue visitor = .error (.undefined .emptyStack) visitor := by
  rcases visitor with ⟨context, owner, function, block, scopes, values, nodes⟩
  subst stack
  rfl

theorem visitedAssignVariable_of_none {var : Variable} {valueExpr : Expr}
    {visitor : CodeGenVisitor}
    (missing : findAlloca var.name visitor.allocaScopeStack_ = none) :
    visitedAssignVariable var valueExpr visitor =
      .error (.thrown (notDefined var.name)) visitor := by
  rw [visitedAssignVariable]
  exact bind_of_error (lookupVariable_of_none missing)

theorem visitedAssignVariable_of_nil {var : Variable} {valueExpr : Expr}
    {visitor : CodeGenVisitor} {inst : AllocaInst}
    (found : findAlloca var.name visitor.allocaScopeStack_ = some inst)
    (stack : visitor.valueStack_ = []) :
    visitedAssignVariable var valueExpr visitor =
      .error (.undefined .emptyStack) visitor := by
  rw [visitedAssignVariable, bind_of_ok (lookupVariable_of_some found)]
  exact bind_of_error (popValue_nil stack)

/-- An assignment leaves the store instruction where the value was. -/
theorem visitedAssignVariable_of_cons {var : Variable} {valueExpr : Expr}
    {visitor : CodeGenVisitor} {inst : AllocaInst} {value : Value}
    {rest : List Value}
    (found : findAlloca var.name visitor.allocaScopeStack_ = some inst)
    (stack : visitor.valueStack_ = value :: rest) :
    visitedAssignVariable var valueExpr visitor =
      .ok () { visitor.inserted (.store value inst) with
        valueStack_ :=
          .instruction visitor.context_.nextAddress .void :: rest } := by
  rw [visitedAssignVariable, bind_of_ok (lookupVariable_of_some found),
    bind_of_ok (popValue_cons stack)]
  rfl

/-! ## Returns and literals -/

theorem visitedReturn_of_nil {valueExpr : Expr} {visitor : CodeGenVisitor}
    (stack : visitor.valueStack_ = []) :
    visitedReturn valueExpr visitor =
      .error (.undefined .emptyStack) visitor := by
  rw [visitedReturn]
  exact bind_of_error (popValue_nil stack)

theorem visitedReturn_of_cons {valueExpr : Expr} {visitor : CodeGenVisitor}
    {value : Value} {rest : List Value}
    (stack : visitor.valueStack_ = value :: rest) :
    visitedReturn valueExpr visitor =
      .ok () { visitor.inserted (.ret value) with valueStack_ := rest } := by
  rw [visitedReturn, bind_of_ok (popValue_cons stack)]
  rfl

theorem visitLiteralInt32_eq (value : BitVec 32) (visitor : CodeGenVisitor) :
    visitLiteralInt32 value visitor =
      .ok () { visitor with
        valueStack_ := .constant (.int value) :: visitor.valueStack_ } :=
  rfl

theorem visitLiteralFloat_eq (value : BitVec 32) (visitor : CodeGenVisitor) :
    visitLiteralFloat value visitor =
      .ok () { visitor with
        valueStack_ := .constant (.float value) :: visitor.valueStack_ } :=
  rfl

/-! ## Operations -/

/-- The opcode `createOperation` chooses, when it has one for the type. -/
def opcodeOf : DataType → OperationKind → Option Opcode
  | .int32, .add => some .add
  | .int32, .sub => some .sub
  | .int32, .mul => some .mul
  | .int32, .div => some .sdiv
  | .float, .add => some .fadd
  | .float, .sub => some .fsub
  | .float, .mul => some .fmul
  | .float, .div => some .fdiv
  | _, _ => none

theorem opcodeOf_eq_none_iff {dataType : DataType} {op : OperationKind} :
    opcodeOf dataType op = none ↔
      dataType ≠ .int32 ∧ dataType ≠ .float := by
  cases dataType <;> cases op <;> decide

/-- An opcode works on the type the data type is mapped to. -/
theorem getType_of_opcodeOf {dataType : DataType} {op : OperationKind}
    {opcode : Opcode} (chosen : opcodeOf dataType op = some opcode) :
    getType dataType = .ok opcode.operandType := by
  cases dataType <;> cases op <;> cases chosen <;> rfl

theorem createOperation_eq (lValue rValue : Value) (op : OperationKind)
    (dataType : DataType) :
    createOperation lValue rValue op dataType =
      match opcodeOf dataType op with
      | some opcode => createBinary opcode lValue rValue
      | none => throw (.thrown .unhandledSwitchCase) := by
  cases dataType <;> cases op <;> rfl

/-- The value of an operation, and the visitor once the operation was built. -/
def operated (visitor : CodeGenVisitor) (opcode : Opcode) (lhs rhs : Value) :
    Value × CodeGenVisitor :=
  match lhs, rhs with
  | .constant left, .constant right =>
      (.constant (.binary opcode left right), visitor)
  | lhs, rhs =>
      (.instruction visitor.context_.nextAddress lhs.type,
        visitor.inserted (.binary opcode lhs rhs))

theorem createBinary_eq (opcode : Opcode) (lhs rhs : Value)
    (visitor : CodeGenVisitor) :
    createBinary opcode lhs rhs visitor =
      .ok (visitor.operated opcode lhs rhs).1
        (visitor.operated opcode lhs rhs).2 := by
  cases lhs <;> cases rhs <;> rfl

/-- Operands without a data type make `visitedBinary` undefined. -/
theorem visitedBinary_of_undefined {lValueExpr rValueExpr : Expr}
    {operation : OperationKind} {behaviour : Undefined}
    {visitor : CodeGenVisitor}
    (undefined :
      lValueExpr.dataType = .error behaviour ∨
        (∃ lType, lValueExpr.dataType = .ok lType) ∧
          rValueExpr.dataType = .error behaviour) :
    visitedBinary lValueExpr operation rValueExpr visitor =
      .error (.undefined behaviour) visitor := by
  rw [visitedBinary]
  rcases undefined with left | ⟨⟨lType, left⟩, right⟩
  · rw [left]
    rfl
  · rw [left, right]
    rfl

theorem visitedBinary_of_mismatch {lValueExpr rValueExpr : Expr}
    {operation : OperationKind} {lType rType : DataType}
    {visitor : CodeGenVisitor}
    (left : lValueExpr.dataType = .ok lType)
    (right : rValueExpr.dataType = .ok rType) (different : lType ≠ rType) :
    visitedBinary lValueExpr operation rValueExpr visitor =
      .error (.thrown dataTypeMismatch) visitor := by
  rw [visitedBinary, left, bind_of_ok (by rfl), right, bind_of_ok (by rfl),
    if_pos different]
  rfl

section SameType

variable {lValueExpr rValueExpr : Expr} {operation : OperationKind}
variable {dataType : DataType} {visitor : CodeGenVisitor}
variable (left : lValueExpr.dataType = .ok dataType)
variable (right : rValueExpr.dataType = .ok dataType)

include left right

/-- With operands of one type, the stack is read before anything can throw. -/
theorem visitedBinary_of_sameType :
    visitedBinary lValueExpr operation rValueExpr visitor =
      (do
        let rValue ← popValue
        let lValue ← popValue
        let result ← createOperation lValue rValue operation dataType
        pushValue result : Generate Unit) visitor := by
  rw [visitedBinary, left, bind_of_ok (by rfl), right, bind_of_ok (by rfl),
    if_neg (not_not_intro rfl), Expr.dataType, right]
  rfl

theorem visitedBinary_of_few (operation : OperationKind)
    (stack : visitor.valueStack_.length < 2) :
    ∃ final,
      visitedBinary lValueExpr operation rValueExpr visitor =
        .error (.undefined .emptyStack) final := by
  rw [visitedBinary_of_sameType left right]
  rcases values : visitor.valueStack_ with _ | ⟨value, _ | ⟨next, rest⟩⟩
  · exact ⟨visitor, bind_of_error (popValue_nil values)⟩
  · rw [bind_of_ok (popValue_cons values)]
    exact ⟨_, bind_of_error (popValue_nil rfl)⟩
  · rw [values, List.length_cons, List.length_cons] at stack
    omega

theorem visitedBinary_of_unhandled {lValue rValue : Value}
    {rest : List Value}
    (stack : visitor.valueStack_ = rValue :: lValue :: rest)
    (unhandled : opcodeOf dataType operation = none) :
    visitedBinary lValueExpr operation rValueExpr visitor =
      .error (.thrown .unhandledSwitchCase)
        { visitor with valueStack_ := rest } := by
  rw [visitedBinary_of_sameType left right,
    bind_of_ok (popValue_cons stack), bind_of_ok (popValue_cons rfl),
    createOperation_eq, unhandled]
  rfl

theorem visitedBinary_of_opcode {lValue rValue : Value} {rest : List Value}
    {opcode : Opcode}
    (stack : visitor.valueStack_ = rValue :: lValue :: rest)
    (chosen : opcodeOf dataType operation = some opcode) :
    visitedBinary lValueExpr operation rValueExpr visitor =
      .ok () { (visitor.operated opcode lValue rValue).2 with
        valueStack_ :=
          (visitor.operated opcode lValue rValue).1 :: rest } := by
  rw [visitedBinary_of_sameType left right,
    bind_of_ok (popValue_cons stack), bind_of_ok (popValue_cons rfl),
    createOperation_eq, chosen, bind_of_ok (createBinary_eq ..)]
  cases lValue <;> cases rValue <;> rfl

end SameType

/-! ## Blocks -/

/-- `getType` where it does not throw. -/
def llvmType (dataType : DataType) : LlvmType :=
  (getType dataType).toOption.getD .void

theorem llvmType_of_getType {dataType : DataType} {type : LlvmType}
    (mapped : getType dataType = .ok type) : llvmType dataType = type := by
  rw [llvmType, mapped]
  rfl

/-- What the first declaration to fail throws, after the names in `seen`. -/
def declarationFault : List Variable → List String → Option Exception
  | [], _ => none
  | var :: rest, seen =>
      if var.name ∈ seen then
        some (alreadyDefined var.name)
      else
        match getType var.dataType with
        | .error exception => some exception
        | .ok _ => declarationFault rest (var.name :: seen)

/-- The scope filled with allocas from an address on. -/
def declaredScope : List Variable → Nat → AllocaScope → AllocaScope
  | [], _, scope => scope
  | var :: rest, address, scope =>
      declaredScope rest (address + 1)
        ((var.name, ⟨address, llvmType var.dataType⟩) :: scope)

/-- The alloca instructions of a declaration list. -/
def declaredCode : List Variable → Nat → Nat → List Instruction
  | [], _, _ => []
  | var :: rest, address, block =>
      ⟨address, block, .alloca (llvmType var.dataType) var.name⟩ ::
        declaredCode rest (address + 1) block

/-- The visitor after the loop of `visitingBlock` has run to its end. -/
def declared (visitor : CodeGenVisitor) (vars : List Variable)
    (topScope : AllocaScope) (outer : List AllocaScope) : CodeGenVisitor :=
  { visitor with
    context_ :=
      { nextAddress := visitor.context_.nextAddress + vars.length }
    module_ := { visitor.module_ with
      instructions := visitor.module_.instructions ++
        declaredCode vars visitor.context_.nextAddress visitor.block_ }
    allocaScopeStack_ :=
      declaredScope vars visitor.context_.nextAddress topScope :: outer }

theorem lookup_isSome_iff {scope : AllocaScope} {name : String} :
    (scope.lookup name).isSome ↔ name ∈ scope.map Prod.fst := by
  induction scope with
  | nil => simp
  | cons entry rest ih =>
      rw [List.lookup_cons, List.map_cons, List.mem_cons]
      by_cases same : name = entry.1
      · simp [same]
      · have different : (name == entry.1) = false := by simp [same]
        simp [different, same, ih]

theorem declareVariable_of_seen {var : Variable} {visitor : CodeGenVisitor}
    {topScope : AllocaScope} {outer : List AllocaScope}
    (scopes : visitor.allocaScopeStack_ = topScope :: outer)
    (seen : var.name ∈ topScope.map Prod.fst) :
    declareVariable var visitor =
      .error (.thrown (alreadyDefined var.name)) visitor := by
  rw [declareVariable, bind_of_ok (by rfl), scopes]
  simp only [lookup_isSome_iff, seen, if_true]
  rfl

theorem declareVariable_of_unmapped {var : Variable}
    {visitor : CodeGenVisitor} {topScope : AllocaScope}
    {outer : List AllocaScope} {exception : Exception}
    (scopes : visitor.allocaScopeStack_ = topScope :: outer)
    (fresh : var.name ∉ topScope.map Prod.fst)
    (unmapped : getType var.dataType = .error exception) :
    declareVariable var visitor = .error (.thrown exception) visitor := by
  rw [declareVariable, bind_of_ok (by rfl), scopes]
  simp only [lookup_isSome_iff, fresh, if_false, unmapped]
  rfl

theorem declareVariable_of_mapped {var : Variable} {visitor : CodeGenVisitor}
    {topScope : AllocaScope} {outer : List AllocaScope} {type : LlvmType}
    (scopes : visitor.allocaScopeStack_ = topScope :: outer)
    (fresh : var.name ∉ topScope.map Prod.fst)
    (mapped : getType var.dataType = .ok type) :
    declareVariable var visitor =
      .ok () (visitor.declared [var] topScope outer) := by
  rcases visitor with ⟨context, owner, function, block, stack, values, nodes⟩
  subst scopes
  rw [declareVariable, bind_of_ok (by rfl)]
  simp only [lookup_isSome_iff, fresh, if_false, mapped, declared,
    declaredScope, declaredCode, llvmType_of_getType mapped]
  rfl

theorem declared_scopes (visitor : CodeGenVisitor) (var : Variable)
    (topScope : AllocaScope) (outer : List AllocaScope) :
    (visitor.declared [var] topScope outer).allocaScopeStack_ =
      ((var.name, ⟨visitor.context_.nextAddress, llvmType var.dataType⟩) ::
        topScope) :: outer :=
  rfl

/-- Declaring a list is declaring its head and then its tail. -/
theorem declared_cons (visitor : CodeGenVisitor) (var : Variable)
    (rest : List Variable) (topScope : AllocaScope)
    (outer : List AllocaScope) :
    (visitor.declared [var] topScope outer).declared rest
        ((var.name, ⟨visitor.context_.nextAddress, llvmType var.dataType⟩) ::
          topScope) outer =
      visitor.declared (var :: rest) topScope outer := by
  simp only [declared, declaredScope, declaredCode, List.length_cons,
    List.length_nil, List.append_assoc, List.singleton_append,
    Nat.zero_add, Nat.add_assoc, Nat.add_comm 1]

theorem declareVariables_of_none {vars : List Variable}
    {visitor : CodeGenVisitor} {topScope : AllocaScope}
    {outer : List AllocaScope}
    (scopes : visitor.allocaScopeStack_ = topScope :: outer)
    (faultless : declarationFault vars (topScope.map Prod.fst) = none) :
    declareVariables vars visitor =
      .ok () (visitor.declared vars topScope outer) := by
  induction vars generalizing visitor topScope with
  | nil =>
      rcases visitor with
        ⟨context, owner, function, block, stack, values, nodes⟩
      subst scopes
      simp only [declared, declaredScope, declaredCode, List.append_nil,
        List.length_nil, Nat.add_zero]
      rfl
  | cons var rest ih =>
      by_cases seen : var.name ∈ topScope.map Prod.fst
      · simp [declarationFault, seen] at faultless
      · cases mapped : getType var.dataType with
        | error exception =>
            simp [declarationFault, seen, mapped] at faultless
        | ok type =>
            simp only [declarationFault, seen, if_false, mapped] at faultless
            have next := ih (visitor.declared_scopes var topScope outer) faultless
            rw [declareVariables,
              bind_of_ok (declareVariable_of_mapped scopes seen mapped),
              next, declared_cons]

theorem declareVariables_of_some {vars : List Variable}
    {visitor : CodeGenVisitor} {topScope : AllocaScope}
    {outer : List AllocaScope} {exception : Exception}
    (scopes : visitor.allocaScopeStack_ = topScope :: outer)
    (faulty :
      declarationFault vars (topScope.map Prod.fst) = some exception) :
    ∃ final,
      declareVariables vars visitor = .error (.thrown exception) final := by
  induction vars generalizing visitor topScope with
  | nil => simp [declarationFault] at faulty
  | cons var rest ih =>
      by_cases seen : var.name ∈ topScope.map Prod.fst
      · simp only [declarationFault, seen, if_true, Option.some.injEq]
          at faulty
        subst faulty
        exact ⟨_, bind_of_error (declareVariable_of_seen scopes seen)⟩
      · cases mapped : getType var.dataType with
        | error thrown =>
            simp only [declarationFault, seen, if_false, mapped,
              Option.some.injEq] at faulty
            subst faulty
            exact ⟨_,
              bind_of_error (declareVariable_of_unmapped scopes seen mapped)⟩
        | ok type =>
            simp only [declarationFault, seen, if_false, mapped] at faulty
            rw [declareVariables,
              bind_of_ok (declareVariable_of_mapped scopes seen mapped)]
            exact ih (visitor.declared_scopes var topScope outer) faulty

theorem visitingBlock_of_none {scope : Scope} {expressions : List Expr}
    {visitor : CodeGenVisitor}
    (faultless : declarationFault scope.variables [] = none) :
    visitingBlock scope expressions visitor =
      .ok () (visitor.declared scope.variables []
        visitor.allocaScopeStack_) := by
  rw [visitingBlock, bind_of_ok (by rfl)]
  exact declareVariables_of_none rfl faultless

theorem visitingBlock_of_some {scope : Scope} {expressions : List Expr}
    {visitor : CodeGenVisitor} {exception : Exception}
    (faulty : declarationFault scope.variables [] = some exception) :
    ∃ final,
      visitingBlock scope expressions visitor =
        .error (.thrown exception) final := by
  rw [visitingBlock, bind_of_ok (by rfl)]
  exact declareVariables_of_some rfl faulty

theorem visitedBlock_eq {scope : Scope} {expressions : List Expr}
    {visitor : CodeGenVisitor} {topScope : AllocaScope}
    {outer : List AllocaScope}
    (scopes : visitor.allocaScopeStack_ = topScope :: outer) :
    visitedBlock scope expressions visitor =
      .ok () { visitor with allocaScopeStack_ := outer } := by
  rcases visitor with ⟨context, owner, function, block, stack, values, nodes⟩
  subst scopes
  rfl

theorem visitedBlock_empty {scope : Scope} {expressions : List Expr}
    {visitor : CodeGenVisitor} (empty : visitor.allocaScopeStack_ = []) :
    visitedBlock scope expressions visitor =
      .error (.undefined .emptyStack) visitor := by
  rcases visitor with ⟨context, owner, function, block, stack, values, nodes⟩
  subst empty
  rfl

/-! ## Modules and functions -/

theorem visitingFunction_of_unmapped {func : Function}
    {visitor : CodeGenVisitor} {exception : Exception}
    (unmapped : getType func.returnType = .error exception) :
    visitingFunction func visitor = .error (.thrown exception) visitor := by
  rw [visitingFunction, unmapped]
  rfl

theorem visitingFunction_of_bitCast {func : Function}
    {visitor : CodeGenVisitor} {returnType : LlvmType}
    {owner : LlvmModule} {index : Nat}
    (mapped : getType func.returnType = .ok returnType)
    (casts :
      visitor.module_.getOrInsertFunction func.name returnType =
        (owner, .bitCast index)) :
    visitingFunction func visitor =
      .error (.undefined .badCast) visitor := by
  rw [visitingFunction, mapped, bind_of_ok (by rfl), bind_of_ok (by rfl), casts]
  rfl

/-- The visitor once the block of a function was created. -/
def entered (visitor : CodeGenVisitor) (owner : LlvmModule) (index : Nat) :
    CodeGenVisitor :=
  { visitor with
    module_ := { owner with
      blocks := owner.blocks ++ [⟨"functionBody", index⟩] }
    function_ := index
    block_ := owner.blocks.length }

theorem visitingFunction_of_function {func : Function}
    {visitor : CodeGenVisitor} {returnType : LlvmType}
    {owner : LlvmModule} {index : Nat}
    (mapped : getType func.returnType = .ok returnType)
    (inserts :
      visitor.module_.getOrInsertFunction func.name returnType =
        (owner, .function index)) :
    visitingFunction func visitor = .ok () (visitor.entered owner index) := by
  rw [visitingFunction, mapped, bind_of_ok (by rfl), bind_of_ok (by rfl), inserts]
  rfl

/-! ## Completed callbacks -/

/--
All that a callback of the generator can do when it completes: `Performs before
callback after`.
-/
inductive Performs : CodeGenVisitor → Callback → CodeGenVisitor → Prop where
  | visitingNode (visitor node) :
      Performs visitor (.visitingNode node)
        { visitor with ancestryStack_ := node :: visitor.ancestryStack_ }
  | visitedNode {visitor : CodeGenVisitor} {top parent : Node}
      {ancestry : List Node} (node)
      (inside : visitor.ancestryStack_ = top :: parent :: ancestry) :
      Performs visitor (.visitedNode node)
        { visitor with
          ancestryStack_ := parent :: ancestry
          valueStack_ := discarded node visitor.valueStack_ }
  | visitedOutermost {visitor : CodeGenVisitor} {top : Node} (node)
      (outermost : visitor.ancestryStack_ = [top]) :
      Performs visitor (.visitedNode node)
        { visitor with ancestryStack_ := [] }
  | visitingBlock {visitor : CodeGenVisitor} {scope : Scope} (expressions)
      (faultless : declarationFault scope.variables [] = none) :
      Performs visitor (.visitingBlock scope expressions)
        (visitor.declared scope.variables [] visitor.allocaScopeStack_)
  | visitedBlock {visitor : CodeGenVisitor} {topScope : AllocaScope}
      {outer : List AllocaScope} (scope expressions)
      (scopes : visitor.allocaScopeStack_ = topScope :: outer) :
      Performs visitor (.visitedBlock scope expressions)
        { visitor with allocaScopeStack_ := outer }
  | visitedAssignVariable {visitor : CodeGenVisitor} {var : Variable}
      {inst : AllocaInst} {value : Value} {rest : List Value} (valueExpr)
      (found : findAlloca var.name visitor.allocaScopeStack_ = some inst)
      (stack : visitor.valueStack_ = value :: rest) :
      Performs visitor (.visitedAssignVariable var valueExpr)
        { visitor.inserted (.store value inst) with
          valueStack_ :=
            .instruction visitor.context_.nextAddress .void :: rest }
  | visitedBinary {visitor : CodeGenVisitor} {lValueExpr rValueExpr : Expr}
      {operation : OperationKind} {dataType : DataType} {opcode : Opcode}
      {lValue rValue : Value} {rest : List Value}
      (left : lValueExpr.dataType = .ok dataType)
      (right : rValueExpr.dataType = .ok dataType)
      (chosen : opcodeOf dataType operation = some opcode)
      (stack : visitor.valueStack_ = rValue :: lValue :: rest) :
      Performs visitor (.visitedBinary lValueExpr operation rValueExpr)
        { (visitor.operated opcode lValue rValue).2 with
          valueStack_ := (visitor.operated opcode lValue rValue).1 :: rest }
  | visitLiteralInt32 (visitor value) :
      Performs visitor (.visitLiteralInt32 value)
        { visitor with
          valueStack_ := .constant (.int value) :: visitor.valueStack_ }
  | visitLiteralFloat (visitor value) :
      Performs visitor (.visitLiteralFloat value)
        { visitor with
          valueStack_ := .constant (.float value) :: visitor.valueStack_ }
  | visitVariableRef {visitor : CodeGenVisitor} {var : Variable}
      {inst : AllocaInst}
      (found : findAlloca var.name visitor.allocaScopeStack_ = some inst) :
      Performs visitor (.visitVariableRef var)
        { visitor.inserted (.load inst) with
          valueStack_ :=
            .instruction visitor.context_.nextAddress inst.allocatedType ::
              visitor.valueStack_ }
  | visitedReturn {visitor : CodeGenVisitor} {value : Value}
      {rest : List Value} (valueExpr)
      (stack : visitor.valueStack_ = value :: rest) :
      Performs visitor (.visitedReturn valueExpr)
        { visitor.inserted (.ret value) with valueStack_ := rest }
  | visitingFunction {visitor : CodeGenVisitor} {func : Function}
      {returnType : LlvmType} {owner : LlvmModule} {index : Nat}
      (mapped : getType func.returnType = .ok returnType)
      (inserts :
        visitor.module_.getOrInsertFunction func.name returnType =
          (owner, .function index)) :
      Performs visitor (.visitingFunction func) (visitor.entered owner index)
  | visitingModule (visitor owner) :
      Performs visitor (.visitingModule owner)
        { visitor with module_ := { name := owner.name } }
  | silent {callback : Callback} (visitor)
      (notOverridden : callback.Silent) :
      Performs visitor callback visitor

theorem perform_of_silent {callback : Callback} {visitor : CodeGenVisitor}
    (notOverridden : callback.Silent) :
    codeGen.perform callback visitor = .ok () visitor := by
  cases callback <;> first | exact notOverridden.elim | rfl

theorem performs_of_visitedNode {node : Node} {visitor next : CodeGenVisitor}
    (completes : visitedNode node visitor = .ok () next) :
    Performs visitor (.visitedNode node) next := by
  rcases nodes : visitor.ancestryStack_ with
    _ | ⟨top, _ | ⟨parent, ancestry⟩⟩
  · rw [visitedNode_empty nodes] at completes
    cases completes
  · rw [visitedNode_outermost nodes] at completes
    cases completes
    exact .visitedOutermost node nodes
  · rw [visitedNode_eq nodes] at completes
    cases completes
    exact .visitedNode node nodes

theorem performs_of_visitingBlock {scope : Scope} {expressions : List Expr}
    {visitor next : CodeGenVisitor}
    (completes : visitingBlock scope expressions visitor = .ok () next) :
    Performs visitor (.visitingBlock scope expressions) next := by
  cases faults : declarationFault scope.variables [] with
  | none =>
      rw [visitingBlock_of_none faults] at completes
      cases completes
      exact .visitingBlock expressions faults
  | some exception =>
      rcases visitingBlock_of_some faults with ⟨final, fails⟩
      rw [fails] at completes
      cases completes

theorem performs_of_visitedAssignVariable {var : Variable} {valueExpr : Expr}
    {visitor next : CodeGenVisitor}
    (completes : visitedAssignVariable var valueExpr visitor = .ok () next) :
    Performs visitor (.visitedAssignVariable var valueExpr) next := by
  cases found : findAlloca var.name visitor.allocaScopeStack_ with
  | none =>
      rw [visitedAssignVariable_of_none found] at completes
      cases completes
  | some inst =>
      cases stack : visitor.valueStack_ with
      | nil =>
          rw [visitedAssignVariable_of_nil found stack] at completes
          cases completes
      | cons value rest =>
          rw [visitedAssignVariable_of_cons found stack] at completes
          cases completes
          exact .visitedAssignVariable valueExpr found stack

theorem performs_of_visitedBinary {lValueExpr rValueExpr : Expr}
    {operation : OperationKind} {visitor next : CodeGenVisitor}
    (completes :
      visitedBinary lValueExpr operation rValueExpr visitor = .ok () next) :
    Performs visitor (.visitedBinary lValueExpr operation rValueExpr)
      next := by
  cases left : lValueExpr.dataType with
  | error behaviour =>
      rw [visitedBinary_of_undefined (.inl left)] at completes
      cases completes
  | ok lType =>
      cases right : rValueExpr.dataType with
      | error behaviour =>
          rw [visitedBinary_of_undefined (.inr ⟨⟨lType, left⟩, right⟩)]
            at completes
          cases completes
      | ok rType =>
          by_cases same : lType = rType
          · subst same
            rcases stack : visitor.valueStack_ with
              _ | ⟨rValue, _ | ⟨lValue, rest⟩⟩
            · have few : visitor.valueStack_.length < 2 := by simp [stack]
              rcases visitedBinary_of_few left right operation few with
                ⟨final, fails⟩
              rw [fails] at completes
              cases completes
            · have few : visitor.valueStack_.length < 2 := by simp [stack]
              rcases visitedBinary_of_few left right operation few with
                ⟨final, fails⟩
              rw [fails] at completes
              cases completes
            · cases chosen : opcodeOf lType operation with
              | none =>
                  rw [visitedBinary_of_unhandled left right stack chosen]
                    at completes
                  cases completes
              | some opcode =>
                  rw [visitedBinary_of_opcode left right stack chosen]
                    at completes
                  cases completes
                  exact .visitedBinary left right chosen stack
          · rw [visitedBinary_of_mismatch left right same] at completes
            cases completes

theorem performs_of_visitVariableRef {var : Variable}
    {visitor next : CodeGenVisitor}
    (completes : visitVariableRef var visitor = .ok () next) :
    Performs visitor (.visitVariableRef var) next := by
  cases found : findAlloca var.name visitor.allocaScopeStack_ with
  | none =>
      rw [visitVariableRef_of_none found] at completes
      cases completes
  | some inst =>
      rw [visitVariableRef_of_some found] at completes
      cases completes
      exact .visitVariableRef found

theorem performs_of_visitedReturn {valueExpr : Expr}
    {visitor next : CodeGenVisitor}
    (completes : visitedReturn valueExpr visitor = .ok () next) :
    Performs visitor (.visitedReturn valueExpr) next := by
  cases stack : visitor.valueStack_ with
  | nil =>
      rw [visitedReturn_of_nil stack] at completes
      cases completes
  | cons value rest =>
      rw [visitedReturn_of_cons stack] at completes
      cases completes
      exact .visitedReturn valueExpr stack

theorem performs_of_visitedBlock {scope : Scope} {expressions : List Expr}
    {visitor next : CodeGenVisitor}
    (completes : visitedBlock scope expressions visitor = .ok () next) :
    Performs visitor (.visitedBlock scope expressions) next := by
  cases scopes : visitor.allocaScopeStack_ with
  | nil =>
      rw [visitedBlock_empty scopes] at completes
      cases completes
  | cons topScope outer =>
      rw [visitedBlock_eq scopes] at completes
      cases completes
      exact .visitedBlock scope expressions scopes

theorem performs_of_visitingFunction {func : Function}
    {visitor next : CodeGenVisitor}
    (completes : visitingFunction func visitor = .ok () next) :
    Performs visitor (.visitingFunction func) next := by
  cases mapped : getType func.returnType with
  | error exception =>
      rw [visitingFunction_of_unmapped mapped] at completes
      cases completes
  | ok returnType =>
      rcases inserts :
        visitor.module_.getOrInsertFunction func.name returnType with
        ⟨owner, index | index⟩
      · rw [visitingFunction_of_function mapped inserts] at completes
        cases completes
        exact .visitingFunction mapped inserts
      · rw [visitingFunction_of_bitCast mapped inserts] at completes
        cases completes

/-- A callback completes exactly by doing what `Performs` lists. -/
theorem perform_eq_ok_iff {callback : Callback}
    {visitor next : CodeGenVisitor} :
    codeGen.perform callback visitor = .ok () next ↔
      Performs visitor callback next := by
  constructor
  · intro completes
    cases callback with
    | nullArgument => cases completes
    | visitingNode node =>
        cases completes
        exact .visitingNode visitor node
    | visitedNode node => exact performs_of_visitedNode completes
    | visitingBlock scope expressions =>
        exact performs_of_visitingBlock completes
    | visitedBlock scope expressions =>
        exact performs_of_visitedBlock completes
    | visitedBinary lValue operation rValue =>
        exact performs_of_visitedBinary completes
    | visitLiteralInt32 value =>
        cases completes
        exact .visitLiteralInt32 visitor value
    | visitLiteralFloat value =>
        cases completes
        exact .visitLiteralFloat visitor value
    | visitedReturn valueExpr => exact performs_of_visitedReturn completes
    | visitVariableRef var => exact performs_of_visitVariableRef completes
    | visitedAssignVariable var valueExpr =>
        exact performs_of_visitedAssignVariable completes
    | visitingFunction func => exact performs_of_visitingFunction completes
    | visitingModule owner =>
        cases completes
        exact .visitingModule visitor owner
    | visitingConditional | visitedConditional | visitingBinary
    | visitingReturn | visitingAssignVariable | visitedFunction
    | visitedModule =>
        cases completes
        exact .silent visitor trivial
  · intro performs
    cases performs with
    | visitingNode node => rfl
    | visitedNode node inside => exact visitedNode_eq inside
    | visitedOutermost node outermost =>
        exact visitedNode_outermost outermost
    | visitingBlock expressions faultless =>
        change CodeGenVisitor.visitingBlock _ expressions visitor = _
        exact visitingBlock_of_none faultless
    | visitedBlock scope expressions scopes =>
        change CodeGenVisitor.visitedBlock scope expressions visitor = _
        exact visitedBlock_eq scopes
    | visitedAssignVariable valueExpr found stack =>
        change CodeGenVisitor.visitedAssignVariable _ valueExpr visitor = _
        exact visitedAssignVariable_of_cons found stack
    | visitedBinary left right chosen stack =>
        exact visitedBinary_of_opcode left right stack chosen
    | visitLiteralInt32 value => rfl
    | visitLiteralFloat value => rfl
    | visitVariableRef found => exact visitVariableRef_of_some found
    | visitedReturn valueExpr stack =>
        change CodeGenVisitor.visitedReturn valueExpr visitor = _
        exact visitedReturn_of_cons stack
    | visitingFunction mapped inserts =>
        exact visitingFunction_of_function mapped inserts
    | visitingModule owner => rfl
    | silent _ notOverridden => exact perform_of_silent notOverridden

/-- What entering a function did. -/
theorem Performs.of_visitingFunction {func : Function}
    {before after : CodeGenVisitor}
    (performs : Performs before (.visitingFunction func) after) :
    ∃ returnType owner index,
      getType func.returnType = .ok returnType ∧
        before.module_.getOrInsertFunction func.name returnType =
          (owner, .function index) ∧
          after = before.entered owner index := by
  cases performs with
  | visitingFunction mapped inserts => exact ⟨_, _, _, mapped, inserts, rfl⟩
  | silent visitor notOverridden => exact notOverridden.elim

/-- Leaving a node does not touch the LLVM module. -/
theorem Performs.module_of_visitedNode {node : Node}
    {before after : CodeGenVisitor}
    (performs : Performs before (.visitedNode node) after) :
    after.module_ = before.module_ := by
  cases performs with
  | visitedNode => rfl
  | visitedOutermost => rfl
  | silent visitor notOverridden => exact notOverridden.elim

/-! ## Declared names -/

/-- Where names are distinct a variable is found by its name. -/
theorem find?_of_distinct {vars : List Variable} {var : Variable}
    (distinct : (vars.map Variable.name).Nodup) (member : var ∈ vars) :
    vars.find? (fun other => other.name = var.name) = some var := by
  cases found : vars.find? fun other => other.name = var.name with
  | none => simpa using List.find?_eq_none.mp found var member
  | some other =>
      have named : other.name = var.name := by simpa using List.find?_some found
      exact congrArg some (List.inj_on_of_nodup_map distinct
        (List.mem_of_find?_eq_some found) member named)

/-- A declaration list is accepted when its names are new and its types mapped. -/
theorem declarationFault_eq_none_iff {vars : List Variable}
    {seen : List String} :
    declarationFault vars seen = none ↔
      (vars.map Variable.name).Nodup ∧
        (∀ var ∈ vars, var.name ∉ seen) ∧
          ∀ var ∈ vars, getType var.dataType = .ok (llvmType var.dataType) := by
  induction vars generalizing seen with
  | nil => simp [declarationFault]
  | cons var rest ih =>
      rw [declarationFault]
      by_cases known : var.name ∈ seen
      · simp [known]
      · cases mapped : getType var.dataType with
        | error exception => simp [known, mapped]
        | ok type =>
            simp only [known, if_false, ih, llvmType_of_getType mapped,
              List.map_cons, List.nodup_cons, List.mem_map, List.mem_cons,
              forall_eq_or_imp, mapped, not_false_eq_true, true_and, not_or]
            constructor
            · rintro ⟨distinct, fresh, types⟩
              refine ⟨⟨?_, distinct⟩, fun next member => (fresh next member).2,
                types⟩
              rintro ⟨next, member, same⟩
              exact (fresh next member).1 same
            · rintro ⟨⟨fresh, distinct⟩, others, types⟩
              refine ⟨distinct, fun next member => ⟨?_, others next member⟩,
                types⟩
              exact fun same => fresh ⟨next, member, same⟩

theorem declaredScope_keys (vars : List Variable) (address : Nat)
    (scope : AllocaScope) :
    (declaredScope vars address scope).map Prod.fst =
      (vars.map Variable.name).reverse ++ scope.map Prod.fst := by
  induction vars generalizing address scope with
  | nil => rfl
  | cons var rest ih => simp [declaredScope, ih]

/-- What a name stands for in a scope was declared in it or was there before. -/
theorem lookup_declaredScope_at {vars : List Variable} {address : Nat}
    {scope : AllocaScope} {name : String} {inst : AllocaInst}
    (found : (declaredScope vars address scope).lookup name = some inst) :
    (∃ earlier var later, vars = earlier ++ var :: later ∧ var.name = name ∧
      inst = ⟨address + earlier.length, llvmType var.dataType⟩) ∨
      scope.lookup name = some inst := by
  induction vars generalizing address scope with
  | nil => exact .inr found
  | cons var rest ih =>
      rcases ih found with ⟨earlier, next, later, split, named, created⟩ | earlier
      · refine .inl ⟨var :: earlier, next, later, ?_, named, ?_⟩
        · rw [split, List.cons_append]
        · rw [created, List.length_cons, Nat.add_assoc, Nat.add_comm 1]
      · rw [List.lookup_cons] at earlier
        by_cases same : name = var.name
        · simp only [same, beq_self_eq_true, Option.some.injEq] at earlier
          exact .inl ⟨[], var, rest, rfl, same.symm, earlier.symm⟩
        · have different : (name == var.name) = false := by simp [same]
          rw [different] at earlier
          exact .inr earlier

theorem declaredCode_append (first second : List Variable)
    (address block : Nat) :
    declaredCode (first ++ second) address block =
      declaredCode first address block ++
        declaredCode second (address + first.length) block := by
  induction first generalizing address with
  | nil => rfl
  | cons var rest ih =>
      rw [List.cons_append, declaredCode, ih, declaredCode, List.cons_append,
        List.length_cons, Nat.add_assoc, Nat.add_comm 1]

theorem lookup_declaredScope {vars : List Variable} {address block : Nat}
    {scope : AllocaScope} {name : String} {inst : AllocaInst}
    (found : (declaredScope vars address scope).lookup name = some inst) :
    (∃ var ∈ vars, var.name = name ∧
      inst.allocatedType = llvmType var.dataType ∧
        ⟨inst.address, block, .alloca inst.allocatedType name⟩ ∈
          declaredCode vars address block) ∨
      scope.lookup name = some inst := by
  rcases lookup_declaredScope_at found with
    ⟨earlier, var, later, split, rfl, rfl⟩ | before
  · refine .inl ⟨var, by simp [split], rfl, rfl, ?_⟩
    rw [split, declaredCode_append]
    exact List.mem_append_right _ List.mem_cons_self
  · exact .inr before

/-! ## Names in a stack of scopes -/

theorem findAlloca_eq_none_iff {name : String} {scopes : List AllocaScope} :
    findAlloca name scopes = none ↔
      ∀ scope ∈ scopes, name ∉ scope.map Prod.fst := by
  induction scopes with
  | nil => simp [findAlloca]
  | cons scope outer ih =>
      rw [findAlloca]
      cases found : scope.lookup name with
      | none =>
          have missing : name ∉ scope.map Prod.fst := by
            rw [← lookup_isSome_iff, found]
            simp
          simp only [ih, List.mem_cons, forall_eq_or_imp, missing,
            not_false_eq_true, true_and]
      | some inst =>
          have present : name ∈ scope.map Prod.fst := by
            rw [← lookup_isSome_iff, found]
            rfl
          simp only [List.mem_cons, forall_eq_or_imp, present, not_true_eq_false,
            false_and, reduceCtorEq]

/-- The innermost scope that holds a name decides what it stands for. -/
theorem findAlloca_eq_some {name : String} {scopes : List AllocaScope}
    {inst : AllocaInst} (found : findAlloca name scopes = some inst) :
    ∃ inner scope outer,
      scopes = inner ++ scope :: outer ∧
        (∀ other ∈ inner, name ∉ other.map Prod.fst) ∧
          scope.lookup name = some inst := by
  induction scopes with
  | nil => cases found
  | cons scope outer ih =>
      rw [findAlloca] at found
      cases here : scope.lookup name with
      | some other =>
          rw [here] at found
          cases found
          exact ⟨[], scope, outer, rfl, by simp, here⟩
      | none =>
          rw [here] at found
          rcases ih found with ⟨inner, holder, rest, split, missing, holds⟩
          refine ⟨scope :: inner, holder, rest, ?_, ?_, holds⟩
          · rw [split, List.cons_append]
          · intro other member
            rcases List.mem_cons.mp member with rfl | member
            · rw [← lookup_isSome_iff, here]
              simp
            · exact missing other member

end Llast.CodeGenVisitor
