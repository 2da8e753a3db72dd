import Llast.Linkage
import Llast.Representation
import Llast.StructuredFunctions
import Llast.TypeSoundness

/-!
# Compiler correctness

For functions that are built of statements, the code that is generated computes what
the interpreter says.  A statement may leave values behind and leaving a Block drops
a value, whatever it is; but a pure expression puts its value on top of whatever is
there and is consumed at once, so that no operand is ever dropped.
-/

namespace Llast

open Llast.EventRun
open Llast.CodeGenVisitor

/-! ## Opening and closing a node -/

/-- The visitor once a node was opened. -/
def CodeGenVisitor.visiting (visitor : CodeGenVisitor) (node : Node) :
    CodeGenVisitor :=
  { visitor with ancestryStack_ := node :: visitor.ancestryStack_ }

theorem codeGen_visitingNode (node : Node) (visitor : CodeGenVisitor) :
    codeGen.visitingNode node visitor = .ok () (visitor.visiting node) :=
  rfl

/-- A node that was opened can be closed; only a Block drops a value then. -/
theorem visitedNode_leaves (node : Node) {top : Node} {ancestry : List Node}
    {visitor : CodeGenVisitor}
    (nodes : visitor.ancestryStack_ = top :: ancestry) :
    ∃ values,
      codeGen.visitedNode node visitor =
        .ok () { visitor with
          ancestryStack_ := ancestry
          valueStack_ := values } ∧
        (node.nodeKind ≠ some .block → values = visitor.valueStack_) := by
  cases ancestry with
  | nil => exact ⟨_, visitedNode_outermost nodes, fun _ => rfl⟩
  | cons parent outer =>
      refine ⟨_, visitedNode_eq nodes, fun noBlock => ?_⟩
      rw [discarded, if_neg noBlock]

/-- A node is walked by opening it, doing what is between, and closing it. -/
theorem walk_node {expr : Expr} {start last : CodeGenVisitor}
    (inside : Generate Unit)
    (walked : walk codeGen expr = (do
      codeGen.visitingNode (.expr expr)
      inside
      codeGen.visitedNode (.expr expr)))
    (completes : inside (start.visiting (.expr expr)) = .ok () last)
    (nodes : last.ancestryStack_ = .expr expr :: start.ancestryStack_) :
    ∃ values,
      walk codeGen expr start =
        .ok () { last with
          ancestryStack_ := start.ancestryStack_
          valueStack_ := values } ∧
        (expr.nodeKind ≠ some .block → values = last.valueStack_) := by
  rcases visitedNode_leaves (.expr expr) nodes with ⟨values, leaves, same⟩
  refine ⟨values, ?_, same⟩
  rw [walked, bind_of_ok (codeGen_visitingNode _ _), bind_of_ok completes]
  exact leaves

/-- The stacks do not matter for what was emitted. -/
theorem CodeGenVisitor.Emits.restack {before after : CodeGenVisitor}
    {operations : List Operation} (emits : Emits before after operations)
    (scopes laterScopes : List AllocaScope) (values laterValues : List Value)
    (nodes laterNodes : List Node) :
    Emits
      { before with
        allocaScopeStack_ := scopes
        valueStack_ := values
        ancestryStack_ := nodes }
      { after with
        allocaScopeStack_ := laterScopes
        valueStack_ := laterValues
        ancestryStack_ := laterNodes }
      operations :=
  ⟨emits.name, emits.functions, emits.blocks, emits.instructions,
    emits.nextAddress, emits.function, emits.block⟩

/-! ## Declared names are found -/

/-- The names a scope declares have allocas of the types they are declared with. -/
def Covers (scopes : List Scope) (frames : List AllocaScope) : Prop :=
  List.Forall₂
    (fun scope frame => ∀ name,
      (frame.lookup name).map AllocaInst.allocatedType =
        (scope.variables.find? fun var => var.name = name).map fun var =>
          llvmType var.dataType)
    scopes frames

theorem Covers.findAlloca {scopes : List Scope} {frames : List AllocaScope}
    (covers : Covers scopes frames) {name : String} {dataType : DataType}
    (declared : declaredType name scopes = some dataType) :
    ∃ inst, CodeGenVisitor.findAlloca name frames = some inst ∧
      inst.allocatedType = llvmType dataType := by
  induction covers with
  | nil => cases declared
  | cons first others ih =>
      rename_i scope frame scopes frames
      rw [CodeGenVisitor.findAlloca]
      rw [declaredType] at declared
      have here := first name
      cases found : scope.variables.find? fun var => var.name = name with
      | some var =>
          rw [found] at declared here
          cases declared
          rcases Option.map_eq_some_iff.mp here with ⟨inst, holds, typed⟩
          rw [holds]
          exact ⟨inst, rfl, typed⟩
      | none =>
          rw [found] at declared here
          rw [Option.map_eq_none_iff.mp here]
          exact ih declared

/-! ## Expressions -/

variable (arith : FloatArith)

/-- The value is a constant or was computed before the next address. -/
def Value.Older (nextAddress : Nat) : Value → Prop
  | .constant _ => True
  | .instruction address _ => address < nextAddress

/-- The operations compute the value of the expression, and write nothing else. -/
def Computes (start : CodeGenVisitor) (frames : List AllocaScope)
    (expr : Expr) (operations : List Operation) (value : Value) : Prop :=
  ∀ (machine : Machine) (env : Environment) (datum : Datum),
    List.Forall₂ (FrameHolds machine.memory) frames env →
      expr.evaluate arith env = some datum →
        ∃ after : Machine,
          machine.proceed arith (placed start.context_.nextAddress
            start.block_ operations) = some after ∧
            after.memory = machine.memory ∧
              (∀ address < start.context_.nextAddress,
                after.registers address = machine.registers address) ∧
                after.read arith value = some datum

/-- The value has the type that the data type of the expression stands for. -/
def Value.TypedAs (expr : Expr) (value : Value) : Prop :=
  ∀ dataType, expr.dataType = .ok dataType → value.type = llvmType dataType

/-- The walk of an expression pushes its value, and the code computes it. -/
structure Evaluates (frames : List AllocaScope) (expr : Expr)
    (start final : CodeGenVisitor) (operations : List Operation)
    (value : Value) : Prop where
  walks : walk codeGen expr start = .ok () final
  emits : Emits start final operations
  scopes : final.allocaScopeStack_ = start.allocaScopeStack_
  values : final.valueStack_ = value :: start.valueStack_
  nodes : final.ancestryStack_ = start.ancestryStack_
  older : value.Older final.context_.nextAddress
  typed : value.TypedAs expr
  computes : Computes arith start frames expr operations value

/-- A node other than a Block whose callbacks push its value. -/
theorem Evaluates.node {frames : List AllocaScope} {expr : Expr}
    {start pushed : CodeGenVisitor} (inside : Generate Unit)
    {operations : List Operation} {value : Value}
    (walked : walk codeGen expr = (do
      codeGen.visitingNode (.expr expr)
      inside
      codeGen.visitedNode (.expr expr)))
    (noBlock : expr.nodeKind ≠ some .block)
    (pushes : inside (start.visiting (.expr expr)) = .ok () pushed)
    (emits : Emits (start.visiting (.expr expr)) pushed operations)
    (scopes : pushed.allocaScopeStack_ = start.allocaScopeStack_)
    (values : pushed.valueStack_ = value :: start.valueStack_)
    (nodes : pushed.ancestryStack_ =
      .expr expr :: start.ancestryStack_)
    (older : value.Older pushed.context_.nextAddress)
    (typed : value.TypedAs expr)
    (computes : Computes arith start frames expr operations value) :
    ∃ final operations value,
      Evaluates arith frames expr start final operations value := by
  rcases walk_node inside walked pushes nodes with ⟨left, walks, same⟩
  rw [same noBlock] at walks
  exact ⟨_, _, _, walks, emits.restack _ _ _ _ _ _, scopes, values, rfl, older,
    typed, computes⟩

/-- A constant is worth what the literal evaluates to. -/
theorem computes_constant {start : CodeGenVisitor}
    {frames : List AllocaScope} {expr : Expr} {known : Constant}
    (worth : ∀ env : Environment, expr.evaluate arith env =
      known.compute arith) :
    Computes arith start frames expr [] (.constant known) := by
  intro machine env datum holds evaluates
  rw [worth] at evaluates
  exact ⟨machine, rfl, rfl, fun _ _ => rfl, evaluates⟩

/-- On numeric operands an opcode computes what its operation means. -/
theorem DataType.Numeric.opcodeOf {dataType : DataType}
    (numeric : dataType.Numeric) (operation : OperationKind) :
    ∃ opcode, CodeGenVisitor.opcodeOf dataType operation = some opcode ∧
      opcode.compute arith = operation.compute arith dataType := by
  rcases numeric with rfl | rfl <;> cases operation <;> exact ⟨_, rfl, rfl⟩

/-- Whether it is folded or not, an operation computes its result. -/
theorem proceed_binaryOperations {machine : Machine} (last : CodeGenVisitor)
    {opcode : Opcode} {lValue rValue : Value} {lhs rhs datum : Datum}
    (lType : lValue.type = opcode.operandType)
    (rType : rValue.type = opcode.operandType)
    (left : machine.read arith lValue = some lhs)
    (right : machine.read arith rValue = some rhs)
    (result : opcode.compute arith lhs rhs = some datum) :
    ∃ after : Machine,
      machine.proceed arith (placed last.context_.nextAddress last.block_
        (binaryOperations opcode lValue rValue)) = some after ∧
        after.memory = machine.memory ∧
          (∀ address < last.context_.nextAddress,
            after.registers address = machine.registers address) ∧
            after.read arith (last.operated opcode lValue rValue).1 =
              some datum := by
  have written : machine.step arith
      ⟨last.context_.nextAddress, last.block_, .binary opcode lValue rValue⟩ =
        some (machine.setRegister last.context_.nextAddress datum) := by
    simp [Machine.step, lType, rType, left, right, result]
  have emitted : machine.proceed arith (placed last.context_.nextAddress
      last.block_ [.binary opcode lValue rValue]) =
        some (machine.setRegister last.context_.nextAddress datum) := by
    simp [placed, Machine.proceed, written]
  have kept : ∀ address < last.context_.nextAddress,
      (machine.setRegister last.context_.nextAddress datum).registers address =
        machine.registers address :=
    fun address older => Function.update_of_ne older.ne ..
  cases lValue with
  | instruction address type =>
      exact ⟨_, emitted, rfl, kept, Function.update_self ..⟩
  | constant leftKnown =>
      cases rValue with
      | instruction address type =>
          exact ⟨_, emitted, rfl, kept, Function.update_self ..⟩
      | constant rightKnown =>
          -- two constants are folded
          have left : leftKnown.compute arith = some lhs := left
          have right : rightKnown.compute arith = some rhs := right
          refine ⟨machine, rfl, rfl, fun _ _ => rfl, ?_⟩
          change Constant.compute arith (.binary opcode _ _) = _
          simp [Constant.compute, left, right,
            Opcode.fold_of_compute arith result]

/-- Operands of the opcode's type make a value of this type. -/
theorem CodeGenVisitor.operated_type (visitor : CodeGenVisitor)
    {opcode : Opcode} {lValue rValue : Value}
    (lType : lValue.type = opcode.operandType)
    (rType : rValue.type = opcode.operandType) :
    (visitor.operated opcode lValue rValue).1.type = opcode.operandType := by
  have kind := visitor.operated_kind opcode lValue rValue
  have left : lValue.kind.type = opcode.operandType := lType
  have right : rValue.kind.type = opcode.operandType := rType
  rw [Kind.operate_of_fit left right] at kind
  exact congrArg Kind.type kind

theorem CodeGenVisitor.operated_older (visitor : CodeGenVisitor)
    (opcode : Opcode) (lValue rValue : Value) :
    (visitor.operated opcode lValue rValue).1.Older
      (visitor.operated opcode lValue rValue).2.context_.nextAddress := by
  cases lValue <;> cases rValue <;>
    first | exact trivial | exact Nat.lt_succ_self _

theorem Value.Older.read_eq {nextAddress : Nat} {value : Value}
    (older : value.Older nextAddress) {machine after : Machine}
    (kept : ∀ address < nextAddress,
      after.registers address = machine.registers address) :
    after.read arith value = machine.read arith value := by
  cases value with
  | constant known => rfl
  | instruction address type => exact kept address older

/-- The code of two operands, followed by the operation. -/
theorem Computes.binary {start middle last : CodeGenVisitor}
    {frames : List AllocaScope} {lValueExpr rValueExpr : Expr}
    {first second : List Operation} {lValue rValue : Value}
    {operation : OperationKind} {opcode : Opcode} {dataType : DataType}
    (left : Computes arith start frames lValueExpr first lValue)
    (right : Computes arith middle frames rValueExpr second rValue)
    (one : Emits start middle first) (two : Emits middle last second)
    (older : lValue.Older middle.context_.nextAddress)
    (lType : lValue.type = opcode.operandType)
    (rType : rValue.type = opcode.operandType)
    (typed : rValueExpr.dataType = .ok dataType)
    (meaning : opcode.compute arith = operation.compute arith dataType) :
    Computes arith start frames (.binary lValueExpr operation rValueExpr)
      (first ++ (second ++ binaryOperations opcode lValue rValue))
      (last.operated opcode lValue rValue).1 := by
  intro machine env datum holds evaluates
  simp only [Expr.evaluate, Option.bind_eq_bind, Option.bind_eq_some_iff]
    at evaluates
  rcases evaluates with ⟨lhs, leftValue, rhs, rightValue, type, typeEq, result⟩
  rw [typed] at typeEq
  cases typeEq
  rw [← meaning] at result
  rcases left machine env lhs holds leftValue with
    ⟨afterLeft, leftCode, leftMemory, leftKept, leftRead⟩
  rw [← leftMemory] at holds
  rcases right afterLeft env rhs holds rightValue with
    ⟨afterRight, rightCode, rightMemory, rightKept, rightRead⟩
  rw [← older.read_eq arith rightKept] at leftRead
  rcases proceed_binaryOperations arith last lType rType leftRead rightRead
      result with
    ⟨after, code, memory, kept, read⟩
  have begins := one.nextAddress_le
  have goesOn := two.nextAddress_le
  refine ⟨after, ?_, memory.trans (rightMemory.trans leftMemory), ?_, read⟩
  · rw [placed_append, placed_append, Machine.proceed_append arith leftCode,
      ← one.nextAddress, ← one.block, Machine.proceed_append arith rightCode,
      ← two.nextAddress, ← two.block, code]
  · intro address older
    rw [kept address (older.trans_le (begins.trans goesOn)),
      rightKept address (older.trans_le begins), leftKept address older]

/-- The code of a variable reads its cell. -/
theorem computes_load {start : CodeGenVisitor} {frames : List AllocaScope}
    {var : Variable} {inst : AllocaInst}
    (found : CodeGenVisitor.findAlloca var.name frames = some inst) :
    Computes arith start frames (.variableRef var) [.load inst]
      (.instruction start.context_.nextAddress inst.allocatedType) := by
  intro machine env datum holds evaluates
  rcases read_represented holds evaluates with ⟨other, otherFound, cell⟩
  rw [found] at otherFound
  cases otherFound
  refine ⟨machine.setRegister start.context_.nextAddress datum, ?_, rfl,
    fun address older => Function.update_of_ne older.ne .., ?_⟩
  · simp [placed, Machine.proceed, Machine.step, cell]
  · exact Function.update_self ..

theorem evaluates_variableRef {frames outer : List AllocaScope}
    {var : Variable} {inst : AllocaInst} {start : CodeGenVisitor}
    (same : start.allocaScopeStack_ = frames ++ outer)
    (found : CodeGenVisitor.findAlloca var.name frames = some inst)
    (typed : inst.allocatedType = llvmType var.dataType) :
    ∃ final operations value,
      Evaluates arith frames (.variableRef var) start final operations value := by
  have known : CodeGenVisitor.findAlloca var.name
      (start.visiting (.expr (.variableRef var))).allocaScopeStack_ =
        some inst := by
    change CodeGenVisitor.findAlloca var.name start.allocaScopeStack_ = _
    rw [same]
    exact findAlloca_append found outer
  have loads := Performs.emits (.visitVariableRef known) id
  simp only [operations, known] at loads
  exact Evaluates.node arith (visitVariableRef var) rfl
    (by simp [Expr.nodeKind]) (visitVariableRef_of_some known) loads rfl rfl rfl
    (Nat.lt_succ_self _)
    (fun dataType isTyped => by
      cases isTyped
      exact typed)
    (computes_load arith found)

/-- The operands of an operation are evaluated one after the other. -/
theorem Evaluates.binary {frames : List AllocaScope}
    {lValueExpr rValueExpr : Expr} {operation : OperationKind}
    {start middle last : CodeGenVisitor} {first second : List Operation}
    {lValue rValue : Value} {dataType : DataType}
    (left : Evaluates arith frames lValueExpr
      (start.visiting (.expr (.binary lValueExpr operation rValueExpr)))
      middle first lValue)
    (right : Evaluates arith frames rValueExpr middle last second rValue)
    (leftType : lValueExpr.dataType = .ok dataType)
    (rightType : rValueExpr.dataType = .ok dataType)
    (numeric : dataType.Numeric) :
    ∃ final operations value,
      Evaluates arith frames (.binary lValueExpr operation rValueExpr)
        start final operations value := by
  rcases numeric.opcodeOf arith operation with ⟨opcode, chosen, meaning⟩
  have used := llvmType_of_getType (getType_of_opcodeOf chosen)
  have lType := (left.typed dataType leftType).trans used
  have rType := (right.typed dataType rightType).trans used
  have stack : last.valueStack_ = rValue :: lValue :: start.valueStack_ := by
    rw [right.values, left.values]
    rfl
  let pushed : CodeGenVisitor :=
    { (last.operated opcode lValue rValue).2 with
      valueStack_ :=
        (last.operated opcode lValue rValue).1 :: start.valueStack_ }
  have performs :
      Performs last (.visitedBinary lValueExpr operation rValueExpr) pushed :=
    .visitedBinary leftType rightType chosen stack
  have emits := performs.emits id
  simp only [operations, stack, rightType, chosen] at emits
  rcases last.operated_stacks opcode lValue rValue with ⟨scopesEq, nodesEq⟩
  have one : Emits start middle first := left.emits.restack _ _ _ _ _ _
  have leftComputes : Computes arith start frames lValueExpr first lValue :=
    left.computes
  let inside : Generate Unit := do
    codeGen.visitingBinary lValueExpr operation rValueExpr
    walk codeGen lValueExpr
    walk codeGen rValueExpr
    codeGen.visitedBinary lValueExpr operation rValueExpr
  let node := Node.expr (.binary lValueExpr operation rValueExpr)
  have silent : codeGen.visitingBinary lValueExpr operation rValueExpr
      (start.visiting node) = .ok () (start.visiting node) := rfl
  have pushes : inside (start.visiting node) = .ok () pushed :=
    (bind_of_ok silent).trans ((bind_of_ok left.walks).trans
      ((bind_of_ok right.walks).trans (perform_eq_ok_iff.mpr performs)))
  exact Evaluates.node arith inside
    (by simp only [walk, inside, bind_assoc]) (by simp [Expr.nodeKind])
    pushes ((one.trans (right.emits.trans emits)).restack _ _ _ _ _ _)
    (scopesEq.trans (right.scopes.trans left.scopes)) rfl
    (nodesEq.trans (right.nodes.trans left.nodes))
    (last.operated_older opcode lValue rValue)
    (fun other isTyped => by
      rw [Expr.dataType, rightType] at isTyped
      cases isTyped
      rw [last.operated_type lType rType, used])
    (leftComputes.binary arith right.computes one right.emits left.older lType
      rType rightType meaning)

/--
A pure expression is walked without failing, on top of any stack, and its code
computes its value.
-/
theorem Expr.Evaluable.evaluates {scopes : List Scope} {expr : Expr}
    (evaluable : expr.Evaluable scopes) {frames outer : List AllocaScope}
    (covers : Covers scopes frames) {start : CodeGenVisitor}
    (same : start.allocaScopeStack_ = frames ++ outer) :
    ∃ final operations value,
      Evaluates arith frames expr start final operations value := by
  induction evaluable generalizing start with
  | literalInt32 literal =>
      exact Evaluates.node arith (visitLiteralInt32 literal) rfl
        (by simp [Expr.nodeKind]) (visitLiteralInt32_eq literal _)
        ((Emits.refl start).restack _ _ _ _ _ _) rfl rfl rfl trivial
        (fun _ typed => by cases typed; rfl)
        (computes_constant arith fun _ => rfl)
  | literalFloat literal =>
      exact Evaluates.node arith (visitLiteralFloat literal) rfl
        (by simp [Expr.nodeKind]) (visitLiteralFloat_eq literal _)
        ((Emits.refl start).restack _ _ _ _ _ _) rfl rfl rfl trivial
        (fun _ typed => by cases typed; rfl)
        (computes_constant arith fun _ => rfl)
  | variableRef declared =>
      rcases covers.findAlloca declared with ⟨inst, found, typed⟩
      exact evaluates_variableRef arith same found typed
  | binary operation left right leftType rightType numeric leftIH rightIH =>
      rename_i lValueExpr rValueExpr dataType
      have opened : (start.visiting (.expr (.binary lValueExpr operation
          rValueExpr))).allocaScopeStack_ = frames ++ outer := same
      rcases leftIH opened with ⟨middle, first, lValue, left⟩
      rcases rightIH (left.scopes.trans opened) with
        ⟨last, second, rValue, right⟩
      exact left.binary arith right leftType rightType numeric

/-! ## Statements -/

/-- The operations do in memory what the statements do to the environment. -/
def Transforms (start final : CodeGenVisitor) (frames : List AllocaScope)
    (operations : List Operation)
    (meaning : Environment → Option Outcome) : Prop :=
  ∀ (machine : Machine) (env next : Environment),
    Represents start.context_.nextAddress frames machine env →
      meaning env = some (.continues next) →
        ∃ after : Machine,
          machine.proceed arith (placed start.context_.nextAddress
            start.block_ operations) = some after ∧
            Represents final.context_.nextAddress frames after next

/--
The walk of some statements is completed, with the scopes and the nodes as they
were, and the code does what the statements mean.
-/
structure Executes (frames : List AllocaScope) (walked : Generate Unit)
    (meaning : Environment → Option Outcome)
    (start final : CodeGenVisitor) (operations : List Operation) : Prop where
  walks : walked start = .ok () final
  emits : Emits start final operations
  scopes : final.allocaScopeStack_ = start.allocaScopeStack_
  nodes : final.ancestryStack_ = start.ancestryStack_
  transforms : Transforms arith start final frames operations meaning

theorem Evaluates.executes {frames : List AllocaScope} {scopes : List Scope}
    {expr : Expr} {start final : CodeGenVisitor}
    {operations : List Operation} {value : Value}
    (evaluates : Evaluates arith frames expr start final operations value)
    (evaluable : expr.Evaluable scopes) :
    Executes arith frames (walk codeGen expr) (expr.interpret arith)
      start final operations where
  walks := evaluates.walks
  emits := evaluates.emits
  scopes := evaluates.scopes
  nodes := evaluates.nodes
  transforms := by
    intro machine env next represents means
    have means : expr.interpret arith env = some (.continues next) := means
    rw [evaluable.interpret, Option.bind_eq_some_iff] at means
    rcases means with ⟨datum, evaluated, same⟩
    cases same
    rcases evaluates.computes machine env datum represents.frames evaluated with
      ⟨after, code, memory, -, -⟩
    exact ⟨after, code,
      represents.later evaluates.emits.nextAddress_le memory⟩

/-- A node with one child, whose value is consumed by one instruction. -/
theorem Evaluates.consumed {frames : List AllocaScope} {expr valueExpr : Expr}
    {start middle last : CodeGenVisitor} {operations : List Operation}
    {operation : Operation} {value : Value}
    (evaluates : Evaluates arith frames valueExpr
      (start.visiting (.expr expr)) middle operations value)
    {closing : Callback} (opening : Callback) (silent : opening.Silent)
    (walked : walk codeGen expr = (do
      codeGen.visitingNode (.expr expr)
      codeGen.perform opening
      walk codeGen valueExpr
      codeGen.perform closing
      codeGen.visitedNode (.expr expr)))
    (performs : Performs middle closing last)
    (emits : Emits middle last [operation])
    (scopes : last.allocaScopeStack_ = middle.allocaScopeStack_)
    (nodes : last.ancestryStack_ = middle.ancestryStack_) :
    ∃ final, walk codeGen expr start = .ok () final ∧
      Emits start middle operations ∧ Emits middle final [operation] ∧
        final.allocaScopeStack_ = start.allocaScopeStack_ ∧
          final.ancestryStack_ = start.ancestryStack_ := by
  let inside : Generate Unit := do
    codeGen.perform opening
    walk codeGen valueExpr
    codeGen.perform closing
  have completes : inside (start.visiting (.expr expr)) = .ok () last :=
    (bind_of_ok (perform_of_silent silent)).trans
      ((bind_of_ok evaluates.walks).trans (perform_eq_ok_iff.mpr performs))
  rcases walk_node inside (by simp only [walked, inside, bind_assoc]) completes
      (nodes.trans evaluates.nodes) with
    ⟨values, walks, -⟩
  exact ⟨_, walks, evaluates.emits.restack _ _ _ _ _ _,
    emits.restack _ _ _ _ _ _, scopes.trans evaluates.scopes, rfl⟩

/-- The code of an assigned value, followed by the store. -/
theorem Computes.assign {start middle final : CodeGenVisitor}
    {frames : List AllocaScope} {var : Variable} {valueExpr : Expr}
    {operations : List Operation} {value : Value} {inst : AllocaInst}
    (computes : Computes arith start frames valueExpr operations value)
    (typed : value.type = inst.allocatedType)
    (emits : Emits start middle operations)
    (stores : Emits middle final [.store value inst])
    (found : findAlloca var.name frames = some inst) :
    Transforms arith start final frames
      (operations ++ [.store value inst])
      (Expr.interpret arith · (.assignVariable var valueExpr)) := by
  intro machine env next represents means
  simp only [Expr.interpret, Option.bind_eq_bind, Option.bind_eq_some_iff]
    at means
  rcases means with ⟨datum, evaluated, assigned, assigns, same⟩
  cases same
  rcases computes machine env datum represents.frames evaluated with
    ⟨after, code, memory, -, read⟩
  rcases assign_represented represents.frames represents.distinct assigns with
    ⟨other, otherFound, ⟨old, cell⟩, member, holds⟩
  rw [found] at otherFound
  cases otherFound
  refine ⟨after.setCell inst.address datum, ?_, ?_, represents.distinct, ?_⟩
  · rw [placed_append, Machine.proceed_append arith code]
    simp [placed, Machine.proceed, Machine.step, typed, read, memory, cell]
  · change List.Forall₂ (FrameHolds (Function.update after.memory _ _)) _ _
    rw [memory]
    exact holds
  · intro address inside
    have older := represents.older address inside
    exact older.trans_le (emits.nextAddress_le.trans stores.nextAddress_le)

/-- An assignment stores its value. -/
theorem Evaluates.assign {frames outer : List AllocaScope} {var : Variable}
    {valueExpr : Expr} {start middle : CodeGenVisitor}
    {operations : List Operation} {value : Value} {inst : AllocaInst}
    (evaluates : Evaluates arith frames valueExpr
      (start.visiting (.expr (.assignVariable var valueExpr))) middle
      operations value)
    (same : start.allocaScopeStack_ = frames ++ outer)
    (found : findAlloca var.name frames = some inst)
    (typed : value.type = inst.allocatedType) :
    ∃ final operations,
      Executes arith frames (walk codeGen (.assignVariable var valueExpr))
        (Expr.interpret arith · (.assignVariable var valueExpr))
        start final operations := by
  have known :
      findAlloca var.name middle.allocaScopeStack_ = some inst := by
    rw [evaluates.scopes]
    change findAlloca var.name start.allocaScopeStack_ = _
    rw [same]
    exact findAlloca_append found outer
  let stored : CodeGenVisitor :=
    { middle.inserted (.store value inst) with
      valueStack_ := .instruction middle.context_.nextAddress .void ::
        start.valueStack_ }
  have performs :
      Performs middle (.visitedAssignVariable var valueExpr) stored :=
    .visitedAssignVariable valueExpr known evaluates.values
  have stores := performs.emits id
  simp only [CodeGenVisitor.operations, known, evaluates.values] at stores
  rcases evaluates.consumed arith (.visitingAssignVariable var valueExpr)
      trivial rfl performs stores rfl rfl with
    ⟨final, walks, emits, closes, scopes, nodes⟩
  exact ⟨final, _, walks, emits.trans closes, scopes, nodes,
    Computes.assign arith evaluates.computes typed emits closes found⟩

/-! ## Blocks -/

/-- The visitor once a Block was opened and its variables were declared. -/
def CodeGenVisitor.inBlock (visitor : CodeGenVisitor) (scope : Scope)
    (expressions : List Expr) : CodeGenVisitor :=
  (visitor.visiting (.expr (.block scope expressions))).declared
    scope.variables [] visitor.allocaScopeStack_

theorem Scope.Numeric.declarationFault {scope : Scope}
    (numeric : scope.Numeric) :
    CodeGenVisitor.declarationFault scope.variables [] = none := by
  rw [declarationFault_eq_none_iff]
  refine ⟨numeric.built.distinctNames, fun _ _ => List.not_mem_nil, ?_⟩
  intro var member
  rcases numeric.numeric var member with same | same <;> rw [same] <;> rfl

theorem Covers.enter {scopes : List Scope} {frames : List AllocaScope}
    (covers : Covers scopes frames) {scope : Scope} (numeric : scope.Numeric)
    (nextAddress : Nat) :
    Covers (scope :: scopes)
      (declaredScope scope.variables nextAddress [] :: frames) := by
  refine .cons (fun name => ?_) covers
  cases here : (declaredScope scope.variables nextAddress []).lookup name with
  | none =>
      have undeclared := lookup_declaredScope_eq_none_iff.mp here
      have missing : scope.variables.find? (fun var => var.name = name) = none := by
        rw [List.find?_eq_none]
        intro var member named
        exact undeclared ⟨var, member, of_decide_eq_true named⟩
      rw [missing]
      rfl
  | some inst =>
      rcases @lookup_declaredScope _ _ 0 _ _ _ here with
        ⟨var, member, rfl, typed, -⟩ | absent
      · rw [find?_of_distinct numeric.built.distinctNames member]
        exact congrArg some typed
      · cases absent

/-- A Block is walked by entering it, walking its expressions and leaving it. -/
theorem walk_block {scope : Scope} {expressions : List Expr}
    (numeric : scope.Numeric) {start last : CodeGenVisitor}
    {operations : List Operation}
    (walked : walkEach codeGen expressions (start.inBlock scope expressions) =
      .ok () last)
    (emits : Emits (start.inBlock scope expressions) last operations)
    (scopes : last.allocaScopeStack_ =
      (start.inBlock scope expressions).allocaScopeStack_)
    (nodes : last.ancestryStack_ =
      (start.inBlock scope expressions).ancestryStack_) :
    ∃ final, walk codeGen (.block scope expressions) start = .ok () final ∧
      Emits start final (scope.allocas ++ operations) ∧
        final.allocaScopeStack_ = start.allocaScopeStack_ ∧
          final.ancestryStack_ = start.ancestryStack_ ∧
            final.context_ = last.context_ := by
  let node := Node.expr (.block scope expressions)
  have enters : Performs (start.visiting node)
      (.visitingBlock scope expressions) (start.inBlock scope expressions) :=
    .visitingBlock expressions numeric.declarationFault
  let left : CodeGenVisitor :=
    { last with allocaScopeStack_ := start.allocaScopeStack_ }
  have leaves : Performs last (.visitedBlock scope expressions) left :=
    .visitedBlock scope expressions scopes
  let inside : Generate Unit := do
    codeGen.visitingBlock scope expressions
    walkEach codeGen expressions
    codeGen.visitedBlock scope expressions
  have completes : inside (start.visiting node) = .ok () left :=
    (bind_of_ok (perform_eq_ok_iff.mpr enters)).trans
      ((bind_of_ok walked).trans (perform_eq_ok_iff.mpr leaves))
  rcases walk_node inside (by simp only [walk, inside, bind_assoc]) completes
      nodes with
    ⟨values, walks, -⟩
  exact ⟨_, walks, ((enters.emits id).trans emits).restack _ _ _ _ _ _, rfl,
    rfl, rfl⟩

/-- The code of a Block makes its cells and then does what its statements do. -/
theorem Executes.block {frames : List AllocaScope} {scope : Scope}
    {statements : List Expr} (numeric : scope.Numeric)
    {start last : CodeGenVisitor} {operations : List Operation}
    (inside : Executes arith
      (declaredScope scope.variables start.context_.nextAddress [] :: frames)
      (walkEach codeGen statements) (interpretEach arith · statements)
      (start.inBlock scope statements) last operations) :
    ∃ final operations,
      Executes arith frames (walk codeGen (.block scope statements))
        (Expr.interpret arith · (.block scope statements))
        start final operations := by
  rcases walk_block numeric inside.walks inside.emits inside.scopes inside.nodes with
    ⟨final, walks, emits, scopes, nodes, context⟩
  refine ⟨final, _, walks, emits, scopes, nodes, ?_⟩
  intro machine env next represents means
  simp only [Expr.interpret, Option.bind_eq_bind, Option.bind_eq_some_iff]
    at means
  rcases means with ⟨outcome, inner, ends⟩
  cases outcome with
  | returned datum => cases ends
  | continues innerEnv =>
      cases ends
      rcases represents.enter arith scope start.block_ with
        ⟨entered, allocates, inBlock⟩
      rcases inside.transforms entered _ innerEnv inBlock inner with
        ⟨after, code, represented⟩
      refine ⟨after, ?_, ?_⟩
      · rw [placed_append, Machine.proceed_append arith allocates,
          scope.length_allocas]
        exact code
      · rw [context]
        exact represented.leave

/-! ## Statements one after another -/

/-- What holds of the statements of a list holds of the list. -/
theorem executes_each {frames outer : List AllocaScope}
    {statements : List Expr}
    (each : ∀ statement ∈ statements, ∀ start : CodeGenVisitor,
      start.allocaScopeStack_ = frames ++ outer →
        ∃ final operations,
          Executes arith frames (walk codeGen statement)
            (Expr.interpret arith · statement) start final operations)
    {start : CodeGenVisitor}
    (same : start.allocaScopeStack_ = frames ++ outer) :
    ∃ final operations,
      Executes arith frames (walkEach codeGen statements)
        (interpretEach arith · statements) start final operations := by
  induction statements generalizing start with
  | nil =>
      refine ⟨start, [], rfl, .refl start, rfl, rfl, ?_⟩
      intro machine env next represents means
      cases means
      exact ⟨machine, rfl, represents⟩
  | cons statement rest ih =>
      rcases each statement List.mem_cons_self start same with
        ⟨middle, first, one⟩
      obtain ⟨final, second, two⟩ := ih
        (fun later member => each later (List.mem_cons_of_mem _ member))
        (one.scopes.trans same)
      refine ⟨final, first ++ second, ?_, one.emits.trans two.emits,
        two.scopes.trans one.scopes, two.nodes.trans one.nodes, ?_⟩
      · rw [walkEach]
        exact (bind_of_ok one.walks).trans two.walks
      · intro machine env next represents means
        simp only [interpretEach, Option.bind_eq_bind,
          Option.bind_eq_some_iff] at means
        rcases means with ⟨outcome, inner, remaining⟩
        cases outcome with
        | returned datum => cases remaining
        | continues middleEnv =>
            rcases one.transforms machine env middleEnv represents inner with
              ⟨between, firstCode, represented⟩
            rcases two.transforms between middleEnv next represented remaining with
              ⟨after, secondCode, represented⟩
            refine ⟨after, ?_, represented⟩
            rw [placed_append, Machine.proceed_append arith firstCode,
              ← one.emits.nextAddress, ← one.emits.block, secondCode]

/-- A statement is walked without failing, and its code does what it means. -/
theorem Expr.Runs.executes {scopes : List Scope} {statement : Expr}
    (runs : statement.Runs scopes) {frames outer : List AllocaScope}
    (covers : Covers scopes frames) {start : CodeGenVisitor}
    (same : start.allocaScopeStack_ = frames ++ outer) :
    ∃ final operations,
      Executes arith frames (walk codeGen statement)
        (Expr.interpret arith · statement) start final operations := by
  induction runs generalizing frames start with
  | value evaluable =>
      rcases evaluable.evaluates arith covers same with
        ⟨final, operations, value, evaluates⟩
      exact ⟨final, operations, evaluates.executes arith evaluable⟩
  | assignVariable declared evaluable assigned =>
      rename_i scopes var valueExpr
      rcases covers.findAlloca declared with ⟨inst, found, typed⟩
      have opened : (start.visiting
          (.expr (.assignVariable var valueExpr))).allocaScopeStack_ =
            frames ++ outer := same
      rcases evaluable.evaluates arith covers opened with
        ⟨middle, operations, value, evaluates⟩
      exact evaluates.assign arith same found
        ((evaluates.typed _ assigned).trans typed.symm)
  | block numeric each ih =>
      rename_i scopes scope statements
      let frame := declaredScope scope.variables start.context_.nextAddress []
      have opened : (start.inBlock scope statements).allocaScopeStack_ =
          (frame :: frames) ++ outer :=
        congrArg (frame :: ·) same
      obtain ⟨last, operations, inside⟩ := executes_each arith
        (fun statement member later sameLater =>
          ih statement member (covers.enter numeric _) sameLater) opened
      exact inside.block arith numeric

/-! ## Bodies -/

/-- Wherever execution goes on, it returns what the body returns. -/
def Delivers (returnType : DataType) (start : CodeGenVisitor)
    (frames : List AllocaScope) (operations : List Operation)
    (meaning : Environment → Option Outcome) : Prop :=
  ∀ (machine : Machine) (env : Environment) (datum : Datum)
    (rest : List Instruction),
    Represents start.context_.nextAddress frames machine env →
      meaning env = some (.returned datum) →
        machine.execute arith (llvmType returnType)
          (placed start.context_.nextAddress start.block_ operations ++ rest) =
            some datum

/-- The walk of a body is completed, and its code returns what the body returns. -/
structure Compiles (returnType : DataType) (frames : List AllocaScope)
    (walked : Generate Unit) (meaning : Environment → Option Outcome)
    (start final : CodeGenVisitor) (operations : List Operation) : Prop where
  walks : walked start = .ok () final
  emits : Emits start final operations
  scopes : final.allocaScopeStack_ = start.allocaScopeStack_
  nodes : final.ancestryStack_ = start.ancestryStack_
  delivers : Delivers arith returnType start frames operations meaning

/-- A Return returns the value of its expression. -/
theorem Evaluates.return {frames : List AllocaScope} {valueExpr : Expr}
    {start middle : CodeGenVisitor} {operations : List Operation}
    {value : Value}
    (evaluates : Evaluates arith frames valueExpr
      (start.visiting (.expr (.return valueExpr))) middle operations value)
    {returnType : DataType} (returned : valueExpr.dataType = .ok returnType) :
    ∃ final operations,
      Compiles arith returnType frames (walk codeGen (.return valueExpr))
        (Expr.interpret arith · (.return valueExpr))
        start final operations := by
  let left : CodeGenVisitor :=
    { middle.inserted (.ret value) with valueStack_ := start.valueStack_ }
  have performs : Performs middle (.visitedReturn valueExpr) left :=
    .visitedReturn valueExpr evaluates.values
  have rets := performs.emits id
  simp only [CodeGenVisitor.operations, evaluates.values] at rets
  rcases evaluates.consumed arith (.visitingReturn valueExpr) trivial rfl
      performs rets rfl rfl with
    ⟨final, walks, emits, closes, scopes, nodes⟩
  refine ⟨final, _, walks, emits.trans closes, scopes, nodes, ?_⟩
  intro machine env datum rest represents means
  simp only [Expr.interpret, Option.bind_eq_bind, Option.bind_eq_some_iff]
    at means
  rcases means with ⟨known, evaluated, same⟩
  cases same
  rcases evaluates.computes machine env datum represents.frames evaluated with
    ⟨after, code, -, -, read⟩
  have code : machine.proceed arith (placed start.context_.nextAddress
      start.block_ operations) = some after := code
  rw [placed_append, List.append_assoc, Machine.execute_append arith _ code]
  exact (if_pos (evaluates.typed returnType returned)).trans read

theorem walkEach_append (first : List Expr) (last : Expr) :
    walkEach codeGen (first ++ [last]) = (do
      walkEach codeGen first
      walk codeGen last) := by
  induction first with
  | nil =>
      change (do
        walk codeGen last
        pure () : Visit CodeGenVisitor Unit) = _
      rw [bind_pure_unit, walkEach, pure_bind]
  | cons head rest ih =>
      rw [List.cons_append, walkEach, ih, walkEach, bind_assoc]

/-- Statements and a body after them, together in one Block. -/
theorem Compiles.block {returnType : DataType} {frames : List AllocaScope}
    {scopes : List Scope} {scope : Scope} {statements : List Expr} {tail : Expr}
    (numeric : scope.Numeric)
    (each : ∀ statement ∈ statements, statement.Runs (scope :: scopes))
    {start middle last : CodeGenVisitor} {first second : List Operation}
    (one : Executes arith
      (declaredScope scope.variables start.context_.nextAddress [] :: frames)
      (walkEach codeGen statements) (interpretEach arith · statements)
      (start.inBlock scope (statements ++ [tail])) middle first)
    (two : Compiles arith returnType
      (declaredScope scope.variables start.context_.nextAddress [] :: frames)
      (walk codeGen tail) (Expr.interpret arith · tail) middle last second) :
    ∃ final operations,
      Compiles arith returnType frames
        (walk codeGen (.block scope (statements ++ [tail])))
        (Expr.interpret arith · (.block scope (statements ++ [tail])))
        start final operations := by
  have walked : walkEach codeGen (statements ++ [tail])
      (start.inBlock scope (statements ++ [tail])) = .ok () last := by
    rw [walkEach_append]
    exact (bind_of_ok one.walks).trans two.walks
  rcases walk_block numeric walked (one.emits.trans two.emits)
      (two.scopes.trans one.scopes) (two.nodes.trans one.nodes) with
    ⟨final, walks, emits, scopesEq, nodesEq, -⟩
  refine ⟨final, _, walks, emits, scopesEq, nodesEq, ?_⟩
  intro machine env datum rest represents means
  simp only [Expr.interpret, Option.bind_eq_bind, Option.bind_eq_some_iff]
    at means
  rcases means with ⟨outcome, inside, ends⟩
  cases outcome with
  | continues next => cases ends
  | returned value =>
      cases ends
      obtain ⟨next, statementsMean, tailMeans⟩ := interpretEach_append arith
        (fun statement member env outcome =>
          (each statement member).continues arith) inside
      rcases represents.enter arith scope start.block_ with
        ⟨afterAllocas, allocates, inBlock⟩
      rcases one.transforms afterAllocas _ next inBlock statementsMean with
        ⟨between, code, represented⟩
      have delivered :=
        two.delivers between next datum rest represented tailMeans
      have code : afterAllocas.proceed arith
          (placed (start.context_.nextAddress + scope.variables.length)
            start.block_ first) = some between := code
      rw [one.emits.nextAddress, one.emits.block] at delivered
      rw [placed_append, List.append_assoc,
        Machine.execute_append arith _ allocates, scope.length_allocas,
        placed_append, List.append_assoc, Machine.execute_append arith _ code]
      exact delivered

/-- A body is walked without failing, and its code returns what it returns. -/
theorem Expr.Returns.compiles {returnType : DataType} {scopes : List Scope}
    {body : Expr} (returns : body.Returns returnType scopes)
    {frames outer : List AllocaScope} (covers : Covers scopes frames)
    {start : CodeGenVisitor}
    (same : start.allocaScopeStack_ = frames ++ outer) :
    ∃ final operations,
      Compiles arith returnType frames (walk codeGen body)
        (Expr.interpret arith · body) start final operations := by
  induction returns generalizing frames start with
  | «return» evaluable returned =>
      rename_i scopes valueExpr
      have opened : (start.visiting
          (.expr (.return valueExpr))).allocaScopeStack_ =
            frames ++ outer := same
      rcases evaluable.evaluates arith covers opened with
        ⟨middle, operations, value, evaluates⟩
      exact evaluates.return arith returned
  | block numeric each tailReturns ih =>
      rename_i scopes scope statements tail
      let frame := declaredScope scope.variables start.context_.nextAddress []
      have opened :
          (start.inBlock scope (statements ++ [tail])).allocaScopeStack_ =
            (frame :: frames) ++ outer :=
        congrArg (frame :: ·) same
      have inner := covers.enter numeric start.context_.nextAddress
      obtain ⟨middle, first, one⟩ := executes_each arith
        (fun statement member later sameLater =>
          (each statement member).executes arith inner sameLater) opened
      rcases ih inner (one.scopes.trans opened) with ⟨last, second, two⟩
      exact Compiles.block arith numeric each one two

/-! ## Functions -/

theorem DataType.Numeric.getType {dataType : DataType}
    (numeric : dataType.Numeric) :
    CodeGenVisitor.getType dataType = .ok (llvmType dataType) := by
  rcases numeric with rfl | rfl <;> rfl

/--
A function that is made of statements is walked without failing, in whatever state
earlier functions have left the generator, and executing the code that is emitted
into its block returns what the interpreter says.
-/
theorem compiled_function_computes (arith : FloatArith) {func : Function}
    (structured : func.Structured) (start : CodeGenVisitor)
    {owner : LlvmModule} {index : Nat}
    (inserts : start.module_.getOrInsertFunction func.name
      (llvmType func.returnType) = (owner, .function index)) :
    ∃ final code,
      walkFunction codeGen (some func) start = .ok () final ∧
        final.module_.instructions = start.module_.instructions ++ code ∧
          (∀ instruction ∈ code,
            instruction.parent = start.module_.blocks.length) ∧
            ∀ datum, func.interpret arith = some datum →
              Machine.execute arith (llvmType func.returnType) {} code =
                some datum := by
  have numeric := structured.numeric (by simp)
  let opened := start.opened func owner index
  obtain ⟨last, operations, compiled⟩ := structured.compiles arith .nil
    (show opened.allocaScopeStack_ = [] ++ start.allocaScopeStack_ from rfl)
  rcases visitedNode_leaves (.function func) compiled.nodes with
    ⟨values, leaves, -⟩
  let final : CodeGenVisitor :=
    { last with
      ancestryStack_ := start.ancestryStack_
      valueStack_ := values }
  have remaining : run codeGen.performAt (func.remainingSites [])
      opened = .ok () final := by
    refine (run_append_eq_ok_iff _).mpr ⟨last, ?_, ?_⟩
    · rw [← walk_eq_run]
      exact compiled.walks
    · exact (run_cons_eq_ok_iff _).mpr ⟨last, rfl, by
        rw [run_singleton]
        exact leaves⟩
  rcases LlvmModule.getOrInsertFunction_entry inserts with
    ⟨blocks, instructions, -⟩
  refine ⟨final, placed start.context_.nextAddress owner.blocks.length
    operations, ?_, ?_, ?_, ?_⟩
  · rw [walkFunction_eq_run codeGen func []]
    exact run_function_eq_ok_iff.mpr
      ⟨_, owner, index, numeric.getType, inserts, remaining⟩
  · rw [← instructions]
    exact compiled.emits.instructions
  · intro instruction member
    rw [parent_of_mem_placed member, blocks]
  · intro datum returns
    have delivered := compiled.delivers {} [] datum []
      ⟨.nil, List.nodup_nil, by simp [cells]⟩
      (func.interpret_eq_some arith returns)
    rw [List.append_nil] at delivered
    exact delivered

/-- `int f() { int x; x = 6; { float x; x = 1.5f; x; } return x * 7; }`. -/
def restoredFunction : Function :=
  let outerX : Variable := ⟨0, "x", .int32⟩
  let innerX : Variable := ⟨1, "x", .float⟩
  let inner : BlockBuilder :=
    ((BlockBuilder.addVariable {} innerX).addExpression
      (.assignVariable innerX (.literalFloat 0x3fc00000))).addExpression
      (.variableRef innerX)
  let outer : BlockBuilder :=
    (((BlockBuilder.addVariable {} outerX).addExpression
      (.assignVariable outerX (.literalInt32 6))).addExpression
      (inner.build .insertion)).addExpression
      (.return (.binary (.variableRef outerX) .mul (.literalInt32 7)))
  let fb : FunctionBuilder :=
    { name_ := "f", returnType_ := .int32, blockBuilder_ := outer }
  fb.build .insertion .insertion

theorem restoredFunction_structured : restoredFunction.Structured := by
  have outerScope :
      (ScopeBuilder.build (ScopeBuilder.addVariable .new ⟨0, "x", .int32⟩)
        .insertion).Numeric :=
    { built := ⟨[⟨0, "x", .int32⟩], .insertion, rfl⟩
      numeric := by
        intro var member
        rw [List.mem_singleton.mp member]
        exact .inl rfl }
  have innerScope :
      (ScopeBuilder.build (ScopeBuilder.addVariable .new ⟨1, "x", .float⟩)
        .insertion).Numeric :=
    { built := ⟨[⟨1, "x", .float⟩], .insertion, rfl⟩
      numeric := by
        intro var member
        rw [List.mem_singleton.mp member]
        exact .inr rfl }
  show Expr.Returns .int32 [] (.block _ ([_, _] ++ [_]))
  refine .block outerScope (List.forall_mem_cons.mpr
    ⟨?assigns, List.forall_mem_singleton.mpr ?inner⟩) ?returns
  case assigns =>
    exact .assignVariable rfl (.literalInt32 6) rfl
  case inner =>
    exact .block innerScope (List.forall_mem_cons.mpr
      ⟨.assignVariable rfl (.literalFloat 0x3fc00000) rfl,
        List.forall_mem_singleton.mpr (.value (.variableRef rfl))⟩)
  case returns =>
    exact .return (.binary .mul (.variableRef rfl) (.literalInt32 7) rfl rfl
      (.inl rfl)) rfl

/-- A generator in which an earlier function has left a value. -/
def CodeGenVisitor.withLeftover : CodeGenVisitor :=
  { module_ := { name := "m" }, valueStack_ := [.constant (.int 5)] }

/-- The value that was left behind is dropped, and the function returns 42. -/
theorem compiled_function_computes_restored :
    ∃ final code,
      walkFunction codeGen (some restoredFunction)
        CodeGenVisitor.withLeftover = .ok () final ∧
        Machine.execute .binary32 .int32 {} code = some (.int 42) := by
  have returns : restoredFunction.interpret .binary32 = some (.int 42) := by
    decide +kernel
  obtain ⟨final, code, walks, -, -, computes⟩ :=
    compiled_function_computes .binary32 restoredFunction_structured
      CodeGenVisitor.withLeftover rfl
  exact ⟨final, code, walks, computes _ returns⟩

end Llast
