import Llast.Coupling
import Llast.Independence
import Llast.RelabeledMeaning

/-!
# Renaming variables

The generator knows a variable by its name alone, and the name only has to be told
apart from other names.  If all variables of a module are renamed injectively, and the
`Variable` objects are exchanged in any way, the generated code is the same up to the
names of its allocas, and so is the exception if there is one.  Neither matters what
the LLVM context has been used for before: only the addresses are others.
-/

namespace Llast

open Llast.EventRun
open Llast.CodeGenVisitor
open Llast.Coupling

/--
New names for all variables, and new objects in any way, in a context that has made
`offset` objects before.  The maps of the Scopes are taken to enumerate the new names in
the order of the old ones.
-/
structure Renaming where
  onName : String → String
  onAddress : Variable → Nat
  injective : Function.Injective onName
  offset : Nat

namespace Renaming

variable (names : Renaming)

/-- The renamed variable. -/
def onVariable (var : Variable) : Variable where
  address := names.onAddress var
  name := names.onName var.name
  dataType := var.dataType

/-- The renamed scope; its map enumerates in the order of the scope's. -/
def onScope (scope : Scope) : Scope where
  entries := scope.entries.map fun entry =>
    (names.onName entry.1, names.onVariable entry.2)
  distinctKeys := by
    rw [List.map_map]
    have keys := scope.distinctKeys.map names.injective
    rwa [List.map_map] at keys

theorem variables_onScope (scope : Scope) :
    (names.onScope scope).variables =
      scope.variables.map names.onVariable := by
  rw [Scope.variables, onScope, List.map_map, Scope.variables, List.map_map]
  rfl

/-- A renaming exchanges the variables of a tree. -/
def relabeling : Relabeling where
  onName := names.onName
  onVariable := names.onVariable
  onScope := names.onScope
  injective := names.injective
  named _ := rfl
  typed _ := rfl
  declared scope := .of_eq (names.variables_onScope scope)

end Renaming

/-! ## Renamed code -/

/-- The operation of the renamed tree. -/
def Operation.renamed (names : Renaming) : Operation → Operation
  | .alloca type name => .alloca type (names.onName name)
  | operation => operation.relocate names.offset

/-- The instruction of the renamed tree. -/
def Instruction.renamed (names : Renaming) (instruction : Instruction) :
    Instruction where
  address := instruction.address + names.offset
  parent := instruction.parent
  operation := instruction.operation.renamed names

/-- The LLVM module of the renamed tree. -/
def LlvmModule.renamed (names : Renaming) (owner : LlvmModule) : LlvmModule :=
  { owner with instructions := owner.instructions.map (Instruction.renamed names) }

/-- The scope of allocas under the new names. -/
def AllocaScope.renamed (names : Renaming) (scope : AllocaScope) : AllocaScope :=
  scope.map fun entry => (names.onName entry.1, entry.2.relocate names.offset)

/-- The visitor of the renamed tree. -/
def CodeGenVisitor.renamed (names : Renaming) (visitor : CodeGenVisitor) :
    CodeGenVisitor :=
  { visitor with
    context_ := { nextAddress := visitor.context_.nextAddress + names.offset }
    module_ := visitor.module_.renamed names
    allocaScopeStack_ := visitor.allocaScopeStack_.map (AllocaScope.renamed names)
    valueStack_ := visitor.valueStack_.map (Value.relocate names.offset)
    ancestryStack_ :=
      visitor.ancestryStack_.map (Node.relabel names.relabeling) }

section Lockstep

variable {names : Renaming}

theorem AllocaScope.lookup_renamed (scope : AllocaScope) (name : String) :
    (scope.renamed names).lookup (names.onName name) =
      (scope.lookup name).map (AllocaInst.relocate names.offset) := by
  induction scope with
  | nil => rfl
  | cons entry rest ih =>
      have same : (names.onName name == names.onName entry.1) =
          (name == entry.1) := by
        rw [Bool.eq_iff_iff, beq_iff_eq, beq_iff_eq]
        exact names.injective.eq_iff
      rw [AllocaScope.renamed, List.map_cons, List.lookup_cons, same,
        List.lookup_cons]
      cases name == entry.1 with
      | true => rfl
      | false => exact ih

theorem findAlloca_renamed (name : String) (scopes : List AllocaScope) :
    findAlloca (names.onName name) (scopes.map (AllocaScope.renamed names)) =
      (findAlloca name scopes).map (AllocaInst.relocate names.offset) := by
  induction scopes with
  | nil => rfl
  | cons scope outer ih =>
      rw [List.map_cons, findAlloca, findAlloca, AllocaScope.lookup_renamed, ih]
      cases scope.lookup name with
      | none => rfl
      | some inst => rfl

theorem LlvmModule.getOrInsertFunction_renamed (names : Renaming)
    (owner : LlvmModule) (name : String) (returnType : LlvmType) :
    (owner.renamed names).getOrInsertFunction name returnType =
      ((owner.getOrInsertFunction name returnType).1.renamed names,
        (owner.getOrInsertFunction name returnType).2) := by
  rw [LlvmModule.getOrInsertFunction, LlvmModule.getOrInsertFunction]
  have known : (owner.renamed names).getFunction name = owner.getFunction name :=
    rfl
  rw [known]
  cases owner.getFunction name with
  | none => rfl
  | some index =>
      by_cases same : (owner.functions[index]?.map fun function =>
          (function.returnType, function.argTypes)) = some (returnType, [])
      · simp only [LlvmModule.renamed, same, if_true]
      · simp only [LlvmModule.renamed, same, if_false]

/-- The visitors of a tree and of the renamed tree. -/
def Renaming.States (names : Renaming) (visitor other : CodeGenVisitor) : Prop :=
  other = visitor.renamed names

/-- The addresses of an object and of the one that stands for it. -/
def Renaming.Addresses (names : Renaming) (address other : Nat) : Prop :=
  other = address + names.offset

/-- A value and the one that stands for it. -/
def Renaming.Values (names : Renaming) (value other : Value) : Prop :=
  other = value.relocate names.offset

/-- An alloca and the one that stands for it. -/
def Renaming.Allocas (names : Renaming) (inst other : AllocaInst) : Prop :=
  other = inst.relocate names.offset

/-- A computation on the renamed tree goes as the one on the tree. -/
abbrev Lockstep {Result : Type} (names : Renaming)
    (Results : Result → Result → Prop) : Generate Result → Generate Result → Prop :=
  Coupled names.States (Fault.Renamed names.onName) Results

theorem lockstep_insert (operation : Operation) :
    Lockstep names names.Addresses (insert operation)
      (insert (operation.renamed names)) := by
  rintro visitor other rfl
  refine .ok rfl ?_
  simp [Renaming.States, inserted, CodeGenVisitor.renamed, LlvmModule.renamed,
    Instruction.renamed, Nat.add_right_comm]

theorem lockstep_createAlloca (type : LlvmType) (name : String) :
    Lockstep names names.Allocas (createAlloca type name)
      (createAlloca type (names.onName name)) := by
  refine (lockstep_insert (.alloca type name)).bind ?_
  rintro address _ rfl
  exact coupled_pure rfl

theorem lockstep_createLoad (pointer : AllocaInst) :
    Lockstep names names.Values (createLoad pointer)
      (createLoad (pointer.relocate names.offset)) := by
  refine (lockstep_insert (.load pointer)).bind ?_
  rintro address _ rfl
  exact coupled_pure rfl

theorem lockstep_createStore (value : Value) (pointer : AllocaInst) :
    Lockstep names names.Values (createStore value pointer)
      (createStore (value.relocate names.offset) (pointer.relocate names.offset)) := by
  refine (lockstep_insert (.store value pointer)).bind ?_
  rintro address _ rfl
  exact coupled_pure rfl

theorem lockstep_createBinary (opcode : Opcode) (lhs rhs : Value) :
    Lockstep names names.Values (createBinary opcode lhs rhs)
      (createBinary opcode (lhs.relocate names.offset)
        (rhs.relocate names.offset)) := by
  have emits : Lockstep names names.Values
      (do
        let address ← insert (.binary opcode lhs rhs)
        return Value.instruction address lhs.type)
      (do
        let address ← insert (.binary opcode (lhs.relocate names.offset)
          (rhs.relocate names.offset))
        return Value.instruction address (lhs.relocate names.offset).type) := by
    refine (lockstep_insert (.binary opcode lhs rhs)).bind ?_
    rintro address _ rfl
    refine coupled_pure ?_
    cases lhs <;> rfl
  cases lhs with
  | instruction address type => exact emits
  | constant left =>
      cases rhs with
      | instruction address type => exact emits
      | constant right => exact coupled_pure rfl

theorem lockstep_pushValue (value : Value) :
    Lockstep names Eq (pushValue value)
      (pushValue (value.relocate names.offset)) := by
  refine coupled_modify ?_
  rintro visitor other rfl
  rfl

theorem lockstep_popValue : Lockstep names names.Values popValue popValue := by
  refine coupled_get ?_
  rintro visitor other rfl
  have values : (visitor.renamed names).valueStack_ =
      visitor.valueStack_.map (Value.relocate names.offset) := rfl
  rw [values]
  cases visitor.valueStack_ with
  | nil => exact .error (.same _) rfl
  | cons value rest => exact .ok rfl rfl

theorem lockstep_lookupVariable (name : String) :
    Lockstep names names.Allocas (lookupVariable name)
      (lookupVariable (names.onName name)) := by
  refine coupled_get ?_
  rintro visitor other rfl
  have scopes : (visitor.renamed names).allocaScopeStack_ =
      visitor.allocaScopeStack_.map (AllocaScope.renamed names) := rfl
  rw [scopes, findAlloca_renamed]
  cases findAlloca name visitor.allocaScopeStack_ with
  | none => exact .error (.notDefined name) rfl
  | some inst => exact .ok rfl rfl

theorem lockstep_orThrow {Result : Type} (known : Except Exception Result) :
    Lockstep names Eq (orThrow known) (orThrow known) := by
  cases known with
  | ok result => exact coupled_pure rfl
  | error exception => exact coupled_throw (.same _)

theorem lockstep_orUndefined {Result : Type} (known : Except Undefined Result) :
    Lockstep names Eq (orUndefined known) (orUndefined known) := by
  cases known with
  | ok result => exact coupled_pure rfl
  | error behaviour => exact coupled_throw (.same _)

theorem lockstep_createOperation (lValue rValue : Value) (op : OperationKind)
    (dataType : DataType) :
    Lockstep names names.Values (createOperation lValue rValue op dataType)
      (createOperation (lValue.relocate names.offset)
        (rValue.relocate names.offset) op dataType) := by
  cases dataType with
  | int32 => cases op <;> exact lockstep_createBinary _ lValue rValue
  | float => cases op <;> exact lockstep_createBinary _ lValue rValue
  | _ => exact coupled_throw (.same _)

/-! ## The callbacks -/

theorem lockstep_visitingFunction (func : Function) :
    Lockstep names Eq (visitingFunction func)
      (visitingFunction (func.relabel names.relabeling)) := by
  refine (lockstep_orThrow (getType func.returnType)).bind ?_
  rintro returnType _ rfl
  refine coupled_get ?_
  rintro visitor other rfl
  have inserts : (visitor.renamed names).module_.getOrInsertFunction
      (func.relabel names.relabeling).name returnType =
        ((visitor.module_.getOrInsertFunction func.name returnType).1.renamed names,
          (visitor.module_.getOrInsertFunction func.name returnType).2) :=
    LlvmModule.getOrInsertFunction_renamed _ _ _ _
  rw [inserts]
  rcases visitor.module_.getOrInsertFunction func.name returnType with
    ⟨owner, index | index⟩
  · exact .ok rfl rfl
  · exact .error (.same _) rfl

theorem lockstep_visitedNode (node : Node) :
    Lockstep names Eq (visitedNode node)
      (visitedNode (node.relabel names.relabeling)) := by
  refine coupled_get ?_
  rintro visitor other rfl
  have nodes : (visitor.renamed names).ancestryStack_ =
      visitor.ancestryStack_.map (Node.relabel names.relabeling) := rfl
  rw [nodes, Node.nodeKind_relabel]
  cases ancestry : visitor.ancestryStack_ with
  | nil => exact .error (.same _) rfl
  | cons top rest =>
      have values : (visitor.renamed names).valueStack_ =
          visitor.valueStack_.map (Value.relocate names.offset) := rfl
      simp only [List.map_cons, List.length_map, values]
      split
      · refine .ok rfl ?_
        simp [Renaming.States, CodeGenVisitor.renamed, List.map_tail]
      · exact .ok rfl rfl

theorem lockstep_declareVariable (var : Variable) :
    Lockstep names Eq (declareVariable var)
      (declareVariable (names.onVariable var)) := by
  refine coupled_get ?_
  rintro visitor other rfl
  have scopes : (visitor.renamed names).allocaScopeStack_ =
      visitor.allocaScopeStack_.map (AllocaScope.renamed names) := rfl
  rw [scopes]
  cases visitor.allocaScopeStack_ with
  | nil => exact .error (.same _) rfl
  | cons topScope outer =>
      have seen : ((topScope.renamed names).lookup
          (names.onVariable var).name).isSome = (topScope.lookup var.name).isSome := by
        rw [Renaming.onVariable, topScope.lookup_renamed, Option.isSome_map]
      simp only [List.map_cons, seen]
      split
      · exact .error (.alreadyDefined var.name) rfl
      · have declares : Lockstep names Eq
            (do
              let type ← orThrow (getType var.dataType)
              let allocaInst ← createAlloca type var.name
              modify fun visitor => { visitor with
                allocaScopeStack_ := ((var.name, allocaInst) :: topScope) ::
                  visitor.allocaScopeStack_.tail })
            (do
              let type ← orThrow (getType var.dataType)
              let allocaInst ← createAlloca type (names.onName var.name)
              modify fun visitor => { visitor with
                allocaScopeStack_ :=
                  ((names.onName var.name, allocaInst) ::
                    topScope.renamed names) ::
                      visitor.allocaScopeStack_.tail }) := by
          refine (lockstep_orThrow (getType var.dataType)).bind ?_
          rintro type _ rfl
          refine (lockstep_createAlloca type var.name).bind ?_
          rintro inst _ rfl
          refine coupled_modify ?_
          rintro before after rfl
          simp [Renaming.States, CodeGenVisitor.renamed, AllocaScope.renamed]
        exact declares visitor _ rfl

theorem lockstep_declareVariables (vars : List Variable) :
    Lockstep names Eq (declareVariables vars)
      (declareVariables (vars.map names.onVariable)) := by
  induction vars with
  | nil => exact coupled_pure rfl
  | cons var rest ih => exact (lockstep_declareVariable var).bind fun _ _ _ => ih

theorem lockstep_visitingBlock (scope : Scope) (expressions others : List Expr) :
    Lockstep names Eq (visitingBlock scope expressions)
      (visitingBlock (names.onScope scope) others) := by
  have opens : Lockstep names Eq
      (modify fun visitor =>
        { visitor with allocaScopeStack_ := [] :: visitor.allocaScopeStack_ })
      (modify fun visitor =>
        { visitor with allocaScopeStack_ := [] :: visitor.allocaScopeStack_ }) := by
    refine coupled_modify ?_
    rintro visitor other rfl
    rfl
  refine opens.bind fun _ _ _ => ?_
  rw [names.variables_onScope]
  exact lockstep_declareVariables scope.variables

theorem lockstep_visitedBlock (scope otherScope : Scope)
    (expressions others : List Expr) :
    Lockstep names Eq (visitedBlock scope expressions)
      (visitedBlock otherScope others) := by
  refine coupled_get ?_
  rintro visitor other rfl
  have scopes : (visitor.renamed names).allocaScopeStack_ =
      visitor.allocaScopeStack_.map (AllocaScope.renamed names) := rfl
  rw [scopes]
  cases visitor.allocaScopeStack_ with
  | nil => exact .error (.same _) rfl
  | cons scope outer => exact .ok rfl rfl

theorem lockstep_visitedAssignVariable (var : Variable) (valueExpr other : Expr) :
    Lockstep names Eq (visitedAssignVariable var valueExpr)
      (visitedAssignVariable (names.onVariable var) other) := by
  refine (lockstep_lookupVariable var.name).bind ?_
  rintro inst _ rfl
  refine lockstep_popValue.bind ?_
  rintro value _ rfl
  refine (lockstep_createStore value inst).bind ?_
  rintro stored _ rfl
  exact lockstep_pushValue stored

theorem lockstep_visitVariableRef (var : Variable) :
    Lockstep names Eq (visitVariableRef var)
      (visitVariableRef (names.onVariable var)) := by
  refine (lockstep_lookupVariable var.name).bind ?_
  rintro inst _ rfl
  refine (lockstep_createLoad inst).bind ?_
  rintro loaded _ rfl
  exact lockstep_pushValue loaded

theorem lockstep_visitedBinary (lValue : Expr) (operation : OperationKind)
    (rValue : Expr) :
    Lockstep names Eq (visitedBinary lValue operation rValue)
      (visitedBinary (lValue.relabel names.relabeling) operation
        (rValue.relabel names.relabeling)) := by
  have dataType : (Expr.binary (lValue.relabel names.relabeling) operation
      (rValue.relabel names.relabeling)).dataType =
        (Expr.binary lValue operation rValue).dataType :=
    Expr.dataType_relabel (.binary lValue operation rValue)
  rw [visitedBinary, visitedBinary, Expr.dataType_relabel, Expr.dataType_relabel,
    dataType]
  refine (lockstep_orUndefined lValue.dataType).bind ?_
  rintro lType _ rfl
  refine (lockstep_orUndefined rValue.dataType).bind ?_
  rintro rType _ rfl
  by_cases same : lType ≠ rType
  · simp only [if_pos same]
    exact coupled_throw_bind (.same _)
  · simp only [if_neg same]
    refine lockstep_popValue.bind ?_
    rintro right _ rfl
    refine lockstep_popValue.bind ?_
    rintro left _ rfl
    refine (lockstep_orUndefined _).bind ?_
    rintro type _ rfl
    refine (lockstep_createOperation left right operation type).bind ?_
    rintro result _ rfl
    exact lockstep_pushValue result

theorem lockstep_visitedReturn (valueExpr other : Expr) :
    Lockstep names Eq (visitedReturn valueExpr) (visitedReturn other) := by
  refine lockstep_popValue.bind ?_
  rintro value _ rfl
  refine (lockstep_insert (.ret value)).bind fun _ _ _ => ?_
  exact coupled_pure rfl

/-- Every callback reacts to the renamed tree as to the tree. -/
theorem lockstep_perform (callback : Callback) :
    Lockstep names Eq (codeGen.perform callback)
      (codeGen.perform (callback.relabel names.relabeling)) := by
  cases callback with
  | nullArgument => exact coupled_throw (.same _)
  | visitingModule owner =>
      refine coupled_modify ?_
      rintro visitor other rfl
      rfl
  | visitingNode node =>
      refine coupled_modify ?_
      rintro visitor other rfl
      rfl
  | visitedNode node => exact lockstep_visitedNode node
  | visitingFunction func => exact lockstep_visitingFunction func
  | visitingBlock scope expressions =>
      exact lockstep_visitingBlock scope expressions
        (relabelEach names.relabeling expressions)
  | visitedBlock scope expressions =>
      exact lockstep_visitedBlock scope (names.onScope scope) expressions
        (relabelEach names.relabeling expressions)
  | visitedAssignVariable var valueExpr =>
      exact lockstep_visitedAssignVariable var valueExpr
        (valueExpr.relabel names.relabeling)
  | visitedBinary lValue operation rValue =>
      exact lockstep_visitedBinary lValue operation rValue
  | visitLiteralInt32 value => exact lockstep_pushValue _
  | visitLiteralFloat value => exact lockstep_pushValue _
  | visitVariableRef var => exact lockstep_visitVariableRef var
  | visitedReturn valueExpr =>
      exact lockstep_visitedReturn valueExpr (valueExpr.relabel names.relabeling)
  | _ => exact coupled_pure rfl

end Lockstep

/-- A generator that starts in a context in which other objects have been made. -/
def CodeGenVisitor.startedIn (context : LlvmContext) : CodeGenVisitor :=
  { context_ := context }

/-- The walks of a module and of the renamed module end alike. -/
theorem lockstep_walkTree (names : Renaming) (owner : Module) :
    Outcomes names.States (Fault.Renamed names.onName) Eq
      (walkTree codeGen owner {})
      (walkTree codeGen (owner.relabel names.relabeling)
        (.startedIn ⟨names.offset⟩)) := by
  rw [walkTree_eq_run, walkTree_eq_run, Module.sites_relabel]
  have runs : Lockstep names Eq (run codeGen.performAt owner.sites)
      (run codeGen.performAt (owner.sites.map (Site.relabel names.relabeling))) :=
    coupled_run fun site _ => lockstep_perform site.callback
  refine runs {} _ ?_
  simp [Renaming.States, CodeGenVisitor.renamed, CodeGenVisitor.startedIn,
    LlvmModule.renamed]

/-! ## Executing renamed code -/

/-- The second machine is the first one, with its registers and cells moved. -/
structure Machine.Moved (offset : Nat) (machine other : Machine) : Prop where
  registers : ∀ address,
    other.registers (address + offset) = machine.registers address
  memory : ∀ address, other.memory (address + offset) = machine.memory address

section Executing

variable (arith : FloatArith) {names : Renaming} {machine other : Machine}

theorem Machine.Moved.read {offset : Nat} (moved : machine.Moved offset other)
    (value : Value) :
    other.read arith (value.relocate offset) = machine.read arith value := by
  cases value with
  | constant known => rfl
  | instruction address type => exact moved.registers address

theorem Value.type_relocate (offset : Nat) (value : Value) :
    (value.relocate offset).type = value.type := by
  cases value <;> rfl

theorem update_moved {offset : Nat} {first second : Nat → Option Datum}
    (moved : ∀ address, second (address + offset) = first address)
    (place : Nat) (datum : Option Datum) (address : Nat) :
    Function.update second (place + offset) datum (address + offset) =
      Function.update first place datum address := by
  by_cases here : address = place
  · rw [here, Function.update_self, Function.update_self]
  · have elsewhere : address + offset ≠ place + offset := by omega
    rw [Function.update_of_ne elsewhere, Function.update_of_ne here, moved]

theorem Machine.Moved.setRegister {offset : Nat}
    (moved : machine.Moved offset other) (address : Nat) (datum : Datum) :
    (machine.setRegister address datum).Moved offset
      (other.setRegister (address + offset) datum) :=
  ⟨update_moved moved.registers address datum, moved.memory⟩

theorem Machine.Moved.setCell {offset : Nat}
    (moved : machine.Moved offset other) (address : Nat) (datum : Datum) :
    (machine.setCell address datum).Moved offset
      (other.setCell (address + offset) datum) :=
  ⟨moved.registers, update_moved moved.memory address datum⟩

/-- What an instruction does, the renamed one does on the moved machine. -/
theorem Machine.Moved.step (moved : machine.Moved names.offset other)
    (instruction : Instruction) :
    Option.Rel (Machine.Moved names.offset) (machine.step arith instruction)
      (other.step arith (instruction.renamed names)) := by
  rcases instruction with ⟨address, parent, operation⟩
  cases operation with
  | alloca type name => exact .some (moved.setCell address .undef)
  | load pointer =>
      simp only [Machine.step, Instruction.renamed, Operation.renamed,
        Operation.relocate, AllocaInst.relocate, moved.memory]
      cases machine.memory pointer.address with
      | none => exact .none
      | some datum => exact .some (moved.setRegister address datum)
  | store value pointer =>
      simp only [Machine.step, Instruction.renamed, Operation.renamed,
        Operation.relocate, AllocaInst.relocate, moved.memory, moved.read,
        Value.type_relocate]
      split
      · cases machine.read arith value with
        | none => exact .none
        | some datum =>
            cases machine.memory pointer.address with
            | none => exact .none
            | some old => exact .some (moved.setCell pointer.address datum)
      · exact .none
  | binary opcode lhs rhs =>
      simp only [Machine.step, Instruction.renamed, Operation.renamed,
        Operation.relocate, moved.read, Value.type_relocate]
      split
      · cases machine.read arith lhs with
        | none => exact .none
        | some left =>
            cases machine.read arith rhs with
            | none => exact .none
            | some right =>
                simp only [Option.bind_eq_bind, Option.bind_some]
                cases opcode.compute arith left right with
                | none => exact .none
                | some datum => exact .some (moved.setRegister address datum)
      · exact .none
  | ret value => exact .none

/-- Renamed code returns on the moved machine what the code returns. -/
theorem Machine.Moved.execute (moved : machine.Moved names.offset other)
    (returnType : LlvmType) (code : List Instruction) :
    other.execute arith returnType (code.map (Instruction.renamed names)) =
      machine.execute arith returnType code := by
  induction code generalizing machine other with
  | nil => rfl
  | cons instruction rest ih =>
      by_cases returns : instruction.operation.IsRet
      · rcases instruction with ⟨address, parent, operation⟩
        cases operation with
        | ret value =>
            simp only [List.map_cons, Instruction.renamed, Operation.renamed,
              Operation.relocate, Machine.execute, Value.type_relocate, moved.read]
        | _ => exact returns.elim
      · have goesOn : ¬ (instruction.renamed names).operation.IsRet := by
          rcases instruction with ⟨address, parent, operation⟩
          cases operation with
          | ret value => exact absurd trivial returns
          | _ => exact id
        have steps := moved.step arith instruction
        rw [List.map_cons, Machine.execute_cons arith goesOn,
          Machine.execute_cons arith returns]
        generalize machine.step arith instruction = first at steps ⊢
        generalize other.step arith (instruction.renamed names) = second at steps ⊢
        cases steps with
        | none => rfl
        | some next => exact ih next

theorem LlvmModule.blockCode_renamed (names : Renaming) (owner : LlvmModule)
    (block : Nat) :
    (owner.renamed names).blockCode block =
      (owner.blockCode block).map (Instruction.renamed names) := by
  rw [LlvmModule.blockCode, LlvmModule.blockCode, LlvmModule.renamed,
    List.filter_map]
  rfl

/-- Calling a function of the renamed LLVM module returns the same. -/
theorem ExprRunner.machineCall_renamed (names : Renaming) (owner : LlvmModule)
    (address : Option Nat) :
    machineCall arith ⟨owner.renamed names⟩ address =
      machineCall arith ⟨owner⟩ address := by
  cases address with
  | none => rfl
  | some function =>
      have blocks : (owner.renamed names).functionBlocks function =
          owner.functionBlocks function := rfl
      have functions : (owner.renamed names).functions = owner.functions := rfl
      have start : Machine.Moved names.offset {} {} := ⟨fun _ => rfl, fun _ => rfl⟩
      simp only [machineCall, blocks, functions, LlvmModule.blockCode_renamed,
        start.execute arith]

/-- One visitor is the other one, renamed, and calling what they generated agrees. -/
structure Renaming.Agree (names : Renaming) (visitor other : CodeGenVisitor) :
    Prop where
  renamed : other = visitor.renamed names
  calls : ∀ name,
    ExprRunner.machineCall arith ⟨other.module_⟩ (other.module_.getFunction name) =
      ExprRunner.machineCall arith ⟨visitor.module_⟩
        (visitor.module_.getFunction name)

theorem Renaming.agree (names : Renaming) (visitor : CodeGenVisitor) :
    names.Agree arith visitor (visitor.renamed names) where
  renamed := rfl
  calls _ := ExprRunner.machineCall_renamed arith names visitor.module_ _

/--
The walk of a renamed module whose Scopes enumerate their variables in the order of the
module's own, in a context that has been used before, ends as that of the module in a
new context does: in the same fault up to the name of the variable it is about, or with
the same code up to addresses and the names of allocas.  Calling any name returns the
same.
-/
theorem walkTree_of_renamed (names : Renaming) (owner : Module) :
    Outcomes (names.Agree arith) (Fault.Renamed names.onName) Eq
      (walkTree codeGen owner {})
      (walkTree codeGen (owner.relabel names.relabeling)
        (.startedIn ⟨names.offset⟩)) := by
  have lockstep := lockstep_walkTree names owner
  generalize walkTree codeGen owner {} = outcome at lockstep ⊢
  generalize walkTree codeGen (owner.relabel names.relabeling)
    (.startedIn ⟨names.offset⟩) = otherOutcome at lockstep ⊢
  cases lockstep with
  | ok results states =>
      rw [states]
      exact .ok results (names.agree arith _)
  | error errors states =>
      rw [states]
      exact .error errors (names.agree arith _)

end Executing

end Llast
