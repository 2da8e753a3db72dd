import Mathlib.Data.List.ReduceOption
import Llast.Subtrees
import Llast.ValueStack

/-!
# How a walk goes, read off the tree

Every callback of the generator ends in a way that the tree decides: names are
looked up in the enclosing Blocks, types are computed by `dataType()`, and the
height of the value stack follows from the callbacks before.  `predictedFault`
says how, and `codeGen_predicts` that the generator goes that way.

The value stack decides only one thing: whether a callback that pops finds enough
values.  A callback that throws before it pops never gets to see the stack.
-/

namespace Llast

open Llast.EventRun
open Llast.CodeGenVisitor

/-! ## Faults of a callback -/

/-- What looking a name up at this place throws. -/
def lookupFault (path : Path) (name : String) : Option Fault :=
  if ∃ block ∈ enclosingBlocks path, block.2.Declares name then
    none
  else
    some (.thrown (notDefined name))

/-- What comparing the data types of two operands ends in. -/
def operandFault (lValue rValue : Expr) : Option Fault :=
  match lValue.dataType, rValue.dataType with
  | .error behaviour, _ => some (.undefined behaviour)
  | .ok _, .error behaviour => some (.undefined behaviour)
  | .ok lType, .ok rType =>
      if lType = rType then none else some (.thrown dataTypeMismatch)

/-- What choosing the instruction of a Binary throws. -/
def operationFault (operation : OperationKind) (rValue : Expr) :
    Option Fault :=
  match rValue.dataType with
  | .error _ => none
  | .ok dataType =>
      if opcodeOf dataType operation = none then
        some (.thrown .unhandledSwitchCase)
      else
        none

/--
What entering a function ends in, after the functions in `entered`.  Functions that
are called `""` never clash, as LLVM does not keep them by name.
-/
def functionFault (entered : List Function) (func : Function) :
    Option Fault :=
  match getType func.returnType with
  | .error exception => some (.thrown exception)
  | .ok returnType =>
      if func.name ≠ "" ∧
          ∃ earlier ∈ entered, earlier.name = func.name ∧
            llvmType earlier.returnType ≠ returnType then
        some (.undefined .badCast)
      else
        none

/-- Keep the functions entered since the module was. -/
def enterFunction (entered : List Function) (site : Site) : List Function :=
  match site.callback with
  | .visitingModule _ => []
  | .visitingFunction func => entered ++ [func]
  | _ => entered

/-- The functions entered in the course of some callbacks. -/
def enteredFunctions (past : List Site) : List Function :=
  past.foldl enterFunction []

/-- What a callback ends in before it reads the value stack. -/
def faultBeforeStack (past : List Site) (site : Site) : Option Fault :=
  match site.callback with
  | .nullArgument => some argNotNull
  | .visitingBlock scope _ =>
      (declarationFault scope.variables []).map .thrown
  | .visitVariableRef var => lookupFault site.path var.name
  | .visitedAssignVariable var _ => lookupFault site.path var.name
  | .visitedBinary lValue _ rValue => operandFault lValue rValue
  | .visitingFunction func => functionFault (enteredFunctions past) func
  | _ => none

/-- What a callback throws after it has read the value stack. -/
def faultAfterStack (site : Site) : Option Fault :=
  match site.callback with
  | .visitedBinary _ operation rValue => operationFault operation rValue
  | _ => none

/-- What a callback ends in if the value stack holds what it reads. -/
def treeFault (past : List Site) (site : Site) : Option Fault :=
  match faultBeforeStack past site with
  | some fault => some fault
  | none => faultAfterStack site

/-- What a callback ends in. -/
def predictedFault (past : List Site) (site : Site) : Option Fault :=
  match faultBeforeStack past site with
  | some fault => some fault
  | none =>
      if valuesAfter past < site.callback.operands then
        some (.undefined .emptyStack)
      else
        faultAfterStack site

/-- A fault of the tree before any value is missing is what the walk ends in. -/
theorem predictedFault_of_enough {past : List Site} {site : Site}
    (enough : site.callback.operands ≤ valuesAfter past) :
    predictedFault past site = treeFault past site := by
  rw [predictedFault, treeFault, if_neg (Nat.not_lt.mpr enough)]

/-- Only a Binary throws after it has read the stack. -/
theorem treeFault_eq_faultBeforeStack {past : List Site} {site : Site}
    (noneAfter : faultAfterStack site = none) :
    treeFault past site = faultBeforeStack past site := by
  rw [treeFault, noneAfter]
  cases faultBeforeStack past site <;> rfl

/-- What a callback ends in that does not read the stack. -/
theorem predictedFault_eq_faultBeforeStack {past : List Site} {site : Site}
    (reads : site.callback.operands = 0)
    (noneAfter : faultAfterStack site = none) :
    predictedFault past site = faultBeforeStack past site := by
  rw [predictedFault_of_enough (reads.le.trans (Nat.zero_le _)),
    treeFault_eq_faultBeforeStack noneAfter]

/-! ## The symbol table follows the entered functions -/

/-- The table holds the entered functions under their names, if they have one. -/
structure Linked (entered : List Function) (table : List LlvmFunction) :
    Prop where
  known : ∀ func ∈ entered, func.name ≠ "" →
    table.find? (fun function => function.IsNamed func.name) =
      some ⟨func.name, llvmType func.returnType, []⟩
  inserted :
    (table.map LlvmFunction.name).Sublist (entered.map Function.name)

/-- Every LLVM function was inserted for an entered function. -/
theorem Linked.needed {entered : List Function} {table : List LlvmFunction}
    (linked : Linked entered table) {function : LlvmFunction}
    (member : function ∈ table) :
    ∃ func ∈ entered, func.name = function.name :=
  List.mem_map.mp (linked.inserted.subset (List.mem_map_of_mem member))

theorem Linked.find_eq_none {entered : List Function}
    {table : List LlvmFunction} (linked : Linked entered table) {name : String}
    (missing : ∀ func ∈ entered, func.name ≠ name) :
    table.find? (fun function => function.IsNamed name) = none := by
  rw [List.find?_eq_none]
  intro function member isNamed
  rcases linked.needed member with ⟨func, entry, same⟩
  exact missing func entry (same.trans (of_decide_eq_true isNamed).2)

theorem Linked.enter {entered : List Function} {owner next : LlvmModule}
    {func : Function} {returnType : LlvmType} {index : Nat}
    (linked : Linked entered owner.functions)
    (mapped : getType func.returnType = .ok returnType)
    (inserts :
      owner.getOrInsertFunction func.name returnType =
        (next, .function index)) :
    Linked (entered ++ [func]) next.functions := by
  have typed := llvmType_of_getType mapped
  cases found :
      owner.functions.find? (fun function => function.IsNamed func.name) with
  | some entry =>
      rcases LlvmModule.getOrInsertFunction_of_find returnType found with
        ⟨place, holds, inserted⟩
      have isNamed : entry.IsNamed func.name := by
        simpa using List.find?_some found
      have named : entry.name = func.name := isNamed.2
      by_cases same : entry.returnType = returnType ∧ entry.argTypes = []
      · rw [inserted, if_pos same] at inserts
        cases inserts
        constructor
        · intro other member present
          rcases List.mem_append.mp member with member | member
          · exact linked.known other member present
          · rw [List.mem_singleton.mp member, found, typed, ← named, ← same.1,
              ← same.2]
        · rw [List.map_append]
          exact linked.inserted.trans (List.sublist_append_left ..)
      · rw [inserted, if_neg same] at inserts
        cases inserts
  | none =>
      rw [LlvmModule.getOrInsertFunction_of_missing returnType found]
        at inserts
      cases inserts
      constructor
      · intro other member present
        rw [List.find?_append]
        rcases List.mem_append.mp member with member | member
        · rw [linked.known other member present]
          rfl
        · rw [List.mem_singleton.mp member] at present ⊢
          rw [found, typed]
          simp [LlvmFunction.IsNamed, present]
      · rw [List.map_append, List.map_append]
        exact linked.inserted.append (List.Sublist.refl _)

theorem foldl_enterFunction_of_inner {sites : List Site}
    (inner : ∀ site ∈ sites, ¬ site.callback.Outer)
    (entered : List Function) :
    sites.foldl enterFunction entered = entered := by
  induction sites with
  | nil => rfl
  | cons site rest ih =>
      have same : enterFunction entered site = entered := by
        have here := inner site List.mem_cons_self
        rcases site with ⟨path, callback⟩
        cases callback <;> first | rfl | exact absurd trivial here
      rw [List.foldl_cons, same]
      exact ih fun site member => inner site (List.mem_cons_of_mem _ member)

theorem foldl_enterFunction_functionSites (owner : Module)
    (functions : List (Option Function)) (child : Nat)
    (entered : List Function) :
    (functionSites owner functions child).foldl enterFunction entered =
      entered ++ functions.reduceOption := by
  induction functions generalizing child entered with
  | nil => simp [functionSites]
  | cons entry rest ih =>
      cases entry with
      | none =>
          rw [functionSites, List.foldl_cons, ih, List.reduceOption_cons_of_none]
          rfl
      | some func =>
          have walked :
              (func.sites [⟨.module owner, child⟩]).foldl enterFunction
                entered = entered ++ [func] := by
            simp only [Function.sites, bracket, List.map_cons, List.map_nil,
              List.foldl_append, List.foldl_cons, List.foldl_nil]
            rw [foldl_enterFunction_of_inner fun site member =>
              Expr.not_outer_of_mem_sites member]
            rfl
          rw [functionSites, List.foldl_append, walked, ih,
            List.reduceOption_cons_of_some, List.append_assoc]
          rfl

/-- No two functions of the module have one name. -/
def Module.DistinctNames (owner : Module) : Prop :=
  (owner.functions.reduceOption.map Function.name).Nodup

theorem Module.DistinctNames.fresh {owner : Module}
    (distinct : owner.DistinctNames) {child : Nat} {func : Function}
    (place : owner.functions[child]? = some (some func)) :
    ∀ earlier ∈ (owner.functions.take child).reduceOption,
      earlier.name ≠ func.name := by
  intro earlier member same
  rcases List.getElem?_eq_some_iff.mp place with ⟨inside, entry⟩
  have parts : owner.functions.reduceOption =
      (owner.functions.take child).reduceOption ++
        func :: (owner.functions.drop (child + 1)).reduceOption := by
    conv_lhs => rw [← List.take_append_drop child owner.functions,
      List.drop_eq_getElem_cons inside, entry]
    rw [List.reduceOption_append, List.reduceOption_cons_of_some]
  rw [Module.DistinctNames, parts, List.map_append, List.map_cons,
    List.nodup_append'] at distinct
  apply distinct.2.2 (List.mem_map_of_mem member)
  rw [same]
  exact List.mem_cons_self

/-- With distinct names a name determines the entry. -/
theorem Module.DistinctNames.eq_of_name {owner : Module}
    (distinct : owner.DistinctNames) {first second : Nat}
    {func other : Function}
    (firstPlace : owner.functions[first]? = some (some func))
    (secondPlace : owner.functions[second]? = some (some other))
    (same : func.name = other.name) : first = second := by
  have earlier : ∀ {before after : Nat} {one two : Function},
      owner.functions[before]? = some (some one) →
        owner.functions[after]? = some (some two) →
          one.name = two.name → ¬ before < after := by
    intro before after one two onePlace twoPlace equal less
    refine distinct.fresh twoPlace one ?_ equal
    rw [List.reduceOption_mem_iff, List.mem_iff_getElem?]
    exact ⟨before, by rw [List.getElem?_take_of_lt less, onePlace]⟩
  have notBefore := earlier firstPlace secondPlace same
  have notAfter := earlier secondPlace firstPlace same.symm
  omega

/-- The functions entered before an entry are the functions before it. -/
theorem enteredFunctions_sitesBefore (owner : Module) (child : Nat) :
    enteredFunctions (owner.sitesBefore child) =
      (owner.functions.take child).reduceOption :=
  foldl_enterFunction_functionSites owner _ 0 []

/-- In the course of a module all its functions are entered. -/
theorem enteredFunctions_sites (owner : Module) :
    enteredFunctions owner.sites = owner.functions.reduceOption := by
  have closing : enteredFunctions owner.sites =
      enteredFunctions (owner.sitesBefore owner.functions.length) := by
    rw [owner.sites_eq, enteredFunctions, List.foldl_append]
    rfl
  rw [closing, enteredFunctions_sitesBefore, List.take_length]

theorem Module.linked_of_run {owner : Module} {past future : List Site}
    {visitor : CodeGenVisitor} (split : owner.sites = past ++ future)
    (reaches : run codeGen.performAt past {} = .ok () visitor) :
    Linked (enteredFunctions past) visitor.module_.functions := by
  refine owner.reached_induction (motive := fun past visitor =>
    Linked (enteredFunctions past) visitor.module_.functions)
    ⟨by simp [enteredFunctions], by simp⟩ ?_ split reaches
  intro past site before after reached performs linked
  rw [enteredFunctions, List.foldl_append, List.foldl_cons, List.foldl_nil]
  rcases site with ⟨path, callback⟩
  cases performs with
  | visitingFunction mapped inserts =>
      have entered := linked.enter mapped inserts
      exact entered
  | visitingModule visitor owner => exact ⟨by simp [enterFunction], by simp⟩
  | visitedBinary left right chosen stack =>
      rename_i lValue rValue rest
      cases lValue <;> cases rValue <;> exact linked
  | silent _ notOverridden =>
      cases callback <;> first | exact notOverridden.elim | exact linked
  | _ => exact linked

/-! ## The generator goes as predicted -/

theorem Module.Reaches.linked {owner : Module} {past : List Site}
    {site : Site} {visitor : CodeGenVisitor}
    (reached : owner.Reaches past site visitor) :
    Linked (enteredFunctions past) visitor.module_.functions := by
  rcases reached.occurs with ⟨future, split⟩
  exact Module.linked_of_run split reached.reaches

/-- What a name stands for was put there for an entered function. -/
theorem Linked.entered_of_find {entered : List Function}
    {table : List LlvmFunction} (linked : Linked entered table) {name : String}
    {entry : LlvmFunction}
    (found : table.find? (fun function => function.IsNamed name) = some entry) :
    name ≠ "" ∧ ∃ func ∈ entered, func.name = name ∧
      entry = ⟨func.name, llvmType func.returnType, []⟩ := by
  have isNamed : entry.IsNamed name := by simpa using List.find?_some found
  rcases isNamed with ⟨present, named⟩
  rcases linked.needed (List.mem_of_find?_eq_some found) with
    ⟨func, member, sameName⟩
  have same : func.name = name := sameName.trans named
  have known := linked.known func member (same ▸ present)
  rw [same, found] at known
  exact ⟨present, func, member, same, by rw [Option.some.inj known, same]⟩

/-- An entered function clashes with a new one exactly if the table does. -/
theorem Linked.clash_iff {entered : List Function} {table : List LlvmFunction}
    (linked : Linked entered table) {name : String} {returnType : LlvmType} :
    (name ≠ "" ∧ ∃ earlier ∈ entered, earlier.name = name ∧
        llvmType earlier.returnType ≠ returnType) ↔
      ∃ entry, table.find? (fun function => function.IsNamed name) =
        some entry ∧ entry.returnType ≠ returnType := by
  constructor
  · rintro ⟨present, earlier, member, rfl, different⟩
    exact ⟨_, linked.known earlier member present, different⟩
  · rintro ⟨entry, found, different⟩
    rcases linked.entered_of_find found with
      ⟨present, earlier, member, named, rfl⟩
    exact ⟨present, earlier, member, named, different⟩

theorem visitingFunction_ends {entered : List Function} (func : Function)
    {visitor : CodeGenVisitor}
    (linked : Linked entered visitor.module_.functions) :
    Ends (CodeGenVisitor.visitingFunction func visitor)
      (functionFault entered func) := by
  rw [functionFault]
  cases mapped : getType func.returnType with
  | error exception => exact ⟨_, visitingFunction_of_unmapped mapped⟩
  | ok returnType =>
      simp only [linked.clash_iff]
      cases found : visitor.module_.functions.find?
          (fun function => function.IsNamed func.name) with
      | none =>
          rw [if_neg (by simp)]
          exact ⟨_, visitingFunction_of_function mapped
            (LlvmModule.getOrInsertFunction_of_missing returnType found)⟩
      | some entry =>
          rcases LlvmModule.getOrInsertFunction_of_find returnType found with
            ⟨index, holds, inserts⟩
          have noArguments : entry.argTypes = [] := by
            rcases linked.entered_of_find found with ⟨-, func, -, -, same⟩
            rw [same]
          by_cases same : entry.returnType = returnType
          · rw [if_pos ⟨same, noArguments⟩] at inserts
            rw [if_neg (by simp [same])]
            exact ⟨_, visitingFunction_of_function mapped inserts⟩
          · rw [if_neg fun both => same both.1] at inserts
            rw [if_pos ⟨entry, rfl, same⟩]
            exact ⟨_, visitingFunction_of_bitCast mapped inserts⟩

theorem visitedBinary_ends (lValue : Expr) (operation : OperationKind)
    (rValue : Expr) (visitor : CodeGenVisitor) :
    Ends (CodeGenVisitor.visitedBinary lValue operation rValue visitor)
      (match operandFault lValue rValue with
        | some fault => some fault
        | none =>
            if visitor.valueStack_.length < 2 then
              some (.undefined .emptyStack)
            else
              operationFault operation rValue) := by
  unfold operandFault operationFault
  cases left : lValue.dataType with
  | error behaviour => exact ⟨_, visitedBinary_of_undefined (.inl left)⟩
  | ok lType =>
      cases right : rValue.dataType with
      | error behaviour =>
          exact ⟨_, visitedBinary_of_undefined (.inr ⟨⟨lType, left⟩, right⟩)⟩
      | ok rType =>
          by_cases same : lType = rType
          · subst same
            simp only [if_true]
            rcases stack : visitor.valueStack_ with
              _ | ⟨top, _ | ⟨next, rest⟩⟩
            · exact visitedBinary_of_few left right operation (by simp [stack])
            · exact visitedBinary_of_few left right operation (by simp [stack])
            · rw [if_neg (by simp)]
              cases chosen : opcodeOf lType operation with
              | none =>
                  exact ⟨_, visitedBinary_of_unhandled left right stack chosen⟩
              | some opcode =>
                  exact ⟨_, visitedBinary_of_opcode left right stack chosen⟩
          · simp only [same, if_false]
            exact ⟨_, visitedBinary_of_mismatch left right same⟩

theorem Framed.lookupFault_eq {past : List Site} {path : Path}
    {scopes : List AllocaScope} {frames : List Frame}
    (framed : Framed past (enclosingBlocks path) scopes frames)
    (name : String) :
    lookupFault path name =
      match findAlloca name scopes with
      | some _ => none
      | none => some (.thrown (notDefined name)) := by
  have missing := framed.findAlloca_eq_none_iff name
  rw [lookupFault]
  cases found : findAlloca name scopes with
  | none =>
      rw [if_neg]
      rintro ⟨block, member, declares⟩
      exact missing.mp found block member declares
  | some inst =>
      rw [if_pos]
      by_contra none
      have absent : findAlloca name scopes = Option.none :=
        missing.mpr fun block member declares =>
          none ⟨block, member, declares⟩
      rw [found] at absent
      cases absent

theorem visitedNode_ends {node : Node} {path : Path}
    {visitor : CodeGenVisitor}
    (nodes : visitor.ancestryStack_ = node :: path.nodes) :
    Ends (CodeGenVisitor.visitedNode node visitor) none := by
  cases path with
  | nil => exact ⟨_, visitedNode_outermost nodes⟩
  | cons step path => exact ⟨_, visitedNode_eq nodes⟩

theorem visitingBlock_ends (scope : Scope) (expressions : List Expr)
    (visitor : CodeGenVisitor) :
    Ends (CodeGenVisitor.visitingBlock scope expressions visitor)
      ((declarationFault scope.variables []).map .thrown) := by
  cases faults : declarationFault scope.variables [] with
  | none => exact ⟨_, visitingBlock_of_none faults⟩
  | some exception => exact visitingBlock_of_some faults

theorem visitedAssignVariable_ends (var : Variable) (valueExpr : Expr)
    (visitor : CodeGenVisitor) :
    Ends (CodeGenVisitor.visitedAssignVariable var valueExpr visitor)
      (match findAlloca var.name visitor.allocaScopeStack_ with
        | none => some (.thrown (notDefined var.name))
        | some _ =>
            if visitor.valueStack_.length < 1 then
              some (.undefined .emptyStack)
            else
              none) := by
  cases found : findAlloca var.name visitor.allocaScopeStack_ with
  | none => exact ⟨_, visitedAssignVariable_of_none found⟩
  | some inst =>
      cases stack : visitor.valueStack_ with
      | nil => exact ⟨_, visitedAssignVariable_of_nil found stack⟩
      | cons value rest => exact ⟨_, visitedAssignVariable_of_cons found stack⟩

theorem visitVariableRef_ends (var : Variable) (visitor : CodeGenVisitor) :
    Ends (CodeGenVisitor.visitVariableRef var visitor)
      (match findAlloca var.name visitor.allocaScopeStack_ with
        | none => some (.thrown (notDefined var.name))
        | some _ => none) := by
  cases found : findAlloca var.name visitor.allocaScopeStack_ with
  | none => exact ⟨_, visitVariableRef_of_none found⟩
  | some inst => exact ⟨_, visitVariableRef_of_some found⟩

theorem visitedReturn_ends (valueExpr : Expr) (visitor : CodeGenVisitor) :
    Ends (CodeGenVisitor.visitedReturn valueExpr visitor)
      (if visitor.valueStack_.length < 1 then
        some (.undefined .emptyStack)
      else
        none) := by
  cases stack : visitor.valueStack_ with
  | nil => exact ⟨_, visitedReturn_of_nil stack⟩
  | cons value rest => exact ⟨_, visitedReturn_of_cons stack⟩

/-- Wherever a walk gets to, the callback goes as predicted. -/
theorem Module.Reaches.ends {owner : Module} {past : List Site} {site : Site}
    {visitor : CodeGenVisitor} (reached : owner.Reaches past site visitor) :
    Ends (codeGen.performAt site visitor) (predictedFault past site) := by
  have nodes := reached.ancestryStack
  have height := reached.valueStack_length
  rcases reached.framed with ⟨frames, framed⟩
  rcases site with ⟨path, callback⟩
  cases callback with
  | nullArgument => exact ⟨visitor, rfl⟩
  | visitingNode node => exact ⟨_, rfl⟩
  | visitedNode node => exact visitedNode_ends nodes
  | visitingBlock scope expressions =>
      rw [predictedFault_eq_faultBeforeStack rfl rfl]
      exact visitingBlock_ends scope expressions visitor
  | visitedBlock scope expressions =>
      cases frames with
      | nil => cases framed.blocks_eq
      | cons frame outer =>
          have leaves :
              CodeGenVisitor.visitedBlock scope expressions visitor = _ :=
            visitedBlock_eq framed.scopes_eq
          exact ⟨_, leaves⟩
  | visitedAssignVariable var valueExpr =>
      have ends := visitedAssignVariable_ends var valueExpr visitor
      rw [height] at ends
      simp only [predictedFault, faultBeforeStack,
        framed.lookupFault_eq var.name]
      cases found : findAlloca var.name visitor.allocaScopeStack_ with
      | none =>
          rw [found] at ends
          exact ends
      | some inst =>
          rw [found] at ends
          exact ends
  | visitedBinary lValue operation rValue =>
      have ends := visitedBinary_ends lValue operation rValue visitor
      rw [height] at ends
      exact ends
  | visitVariableRef var =>
      rw [predictedFault_eq_faultBeforeStack rfl rfl]
      simp only [faultBeforeStack, framed.lookupFault_eq var.name]
      have ends := visitVariableRef_ends var visitor
      cases found : findAlloca var.name visitor.allocaScopeStack_ with
      | none =>
          rw [found] at ends
          exact ends
      | some inst =>
          rw [found] at ends
          exact ends
  | visitedReturn valueExpr =>
      have ends := visitedReturn_ends valueExpr visitor
      rw [height] at ends
      exact ends
  | visitingFunction func =>
      rw [predictedFault_eq_faultBeforeStack rfl rfl]
      exact visitingFunction_ends func reached.linked
  | visitLiteralInt32 value => exact ⟨_, rfl⟩
  | visitLiteralFloat value => exact ⟨_, rfl⟩
  | visitingModule owner => exact ⟨_, rfl⟩
  | visitingConditional | visitedConditional | visitingBinary
  | visitingReturn | visitingAssignVariable | visitedFunction
  | visitedModule => exact ⟨visitor, rfl⟩

/-- The walk of a module by a fresh generator goes as predicted. -/
theorem codeGen_predicts (owner : Module) :
    Predicts codeGen.performAt owner.sites {} predictedFault := by
  intro past site visitor reached
  exact Module.Reaches.ends reached

/-! ## What a walk ends in -/

/-- The first fault that the tree of a module forecasts. -/
def Module.forecast (owner : Module) : Option Fault :=
  firstFault predictedFault [] owner.sites

/-- Whatever a module contains, its walk ends as its tree forecasts. -/
theorem Module.faultOf_walkTree (owner : Module) :
    faultOf (walkTree codeGen owner {}) = owner.forecast := by
  rw [walkTree_eq_run]
  exact (codeGen_predicts owner).faultOf_run

theorem Module.completes_iff {owner : Module} :
    (∃ final, walkTree codeGen owner {} = .ok () final) ↔
      owner.forecast = none := by
  rw [← owner.faultOf_walkTree, ← ends_iff]
  rfl

theorem Module.fails_iff {owner : Module} {fault : Fault} :
    (∃ final, walkTree codeGen owner {} = .error fault final) ↔
      owner.forecast = some fault := by
  rw [← owner.faultOf_walkTree, ← ends_iff]
  rfl

/-! ## The first fault decides -/

/-- Computing a data type never touches the value stack. -/
theorem Expr.dataType_ne_emptyStack (expr : Expr) :
    expr.dataType ≠ .error .emptyStack := by
  induction expr with
  | null => simp [Expr.dataType]
  | literalInt32 value => simp [Expr.dataType]
  | literalFloat value => simp [Expr.dataType]
  | binary lValue operation rValue leftIH rightIH =>
      rw [Expr.dataType]
      exact rightIH
  | variableRef var => simp [Expr.dataType]
  | assignVariable var valueExpr valueIH => simp [Expr.dataType]
  | «return» valueExpr valueIH =>
      rw [Expr.dataType]
      exact valueIH
  | block scope expressions each =>
      rw [Expr.dataType]
      induction expressions with
      | nil => simp [backDataType]
      | cons head rest ih =>
          cases rest with
          | nil =>
              rw [backDataType]
              exact each head List.mem_cons_self
          | cons next rest =>
              rw [backDataType]
              exact ih fun child member =>
                each child (List.mem_cons_of_mem _ member)
  | conditional condition truePart falsePart conditionIH trueIH falseIH =>
      rw [Expr.dataType]
      split
      · split
        · simp
        · exact falseIH
      · exact trueIH

theorem faultBeforeStack_ne_emptyStack (past : List Site) (site : Site) :
    faultBeforeStack past site ≠ some (.undefined .emptyStack) := by
  rcases site with ⟨path, callback⟩
  cases callback with
  | nullArgument => simp [faultBeforeStack, argNotNull]
  | visitingBlock scope expressions => simp [faultBeforeStack]
  | visitVariableRef var =>
      simp only [faultBeforeStack, lookupFault]
      split <;> simp
  | visitedAssignVariable var valueExpr =>
      simp only [faultBeforeStack, lookupFault]
      split <;> simp
  | visitedBinary lValue operation rValue =>
      cases left : lValue.dataType with
      | error behaviour =>
          simp only [faultBeforeStack, operandFault, left]
          rintro same
          cases same
          exact lValue.dataType_ne_emptyStack left
      | ok lType =>
          cases right : rValue.dataType with
          | error behaviour =>
              simp only [faultBeforeStack, operandFault, left, right]
              rintro same
              cases same
              exact rValue.dataType_ne_emptyStack right
          | ok rType =>
              simp only [faultBeforeStack, operandFault, left, right]
              split <;> simp
  | visitingFunction func =>
      simp only [faultBeforeStack, functionFault]
      split
      · simp
      · split <;> simp
  | _ => simp [faultBeforeStack]

theorem faultAfterStack_ne_emptyStack (site : Site) :
    faultAfterStack site ≠ some (.undefined .emptyStack) := by
  rcases site with ⟨path, callback⟩
  cases callback with
  | visitedBinary lValue operation rValue =>
      simp only [faultAfterStack, operationFault]
      split
      · simp
      · split <;> simp
  | _ => simp [faultAfterStack]

theorem predictedFault_eq_emptyStack_iff {past : List Site} {site : Site} :
    predictedFault past site = some (.undefined .emptyStack) ↔
      faultBeforeStack past site = none ∧
        valuesAfter past < site.callback.operands := by
  rw [predictedFault]
  cases before : faultBeforeStack past site with
  | some fault =>
      have other := faultBeforeStack_ne_emptyStack past site
      rw [before] at other
      simpa using other
  | none =>
      by_cases few : valuesAfter past < site.callback.operands
      · simp [few]
      · simpa [few] using faultAfterStack_ne_emptyStack site

theorem treeFault_eq_none {past : List Site} {site : Site}
    (faultFree : predictedFault past site = none) :
    treeFault past site = none := by
  unfold predictedFault at faultFree
  rw [treeFault]
  cases found : faultBeforeStack past site with
  | some fault =>
      rw [found] at faultFree
      cases faultFree
  | none =>
      rw [found] at faultFree
      simp only at faultFree ⊢
      split at faultFree
      · cases faultFree
      · exact faultFree

/-- A fault that the tree alone does not show is a missing value. -/
theorem eq_emptyStack_of_treeFault {past : List Site} {site : Site}
    {fault : Fault} (predicted : predictedFault past site = some fault)
    (faultFree : treeFault past site = none) :
    fault = .undefined .emptyStack := by
  by_cases few : valuesAfter past < site.callback.operands
  · unfold predictedFault at predicted
    unfold treeFault at faultFree
    cases found : faultBeforeStack past site with
    | none =>
        rw [found] at predicted
        simpa [few] using predicted.symm
    | some other =>
        rw [found] at faultFree
        cases faultFree
  · rw [predictedFault_of_enough (Nat.not_lt.mp few), faultFree] at predicted
    cases predicted

/--
A walk pops from the empty value stack exactly if some callback that comes before
the first fault of the tree, or throws only after it has read the stack, reads more
values than the callbacks before it have left there.
-/
theorem walkTree_underflows_iff (owner : Module) :
    (∃ final, walkTree codeGen owner {} =
        .error (.undefined .emptyStack) final) ↔
      ∃ past site future,
        owner.sites = past ++ site :: future ∧
          Faultless treeFault past ∧ faultBeforeStack past site = none ∧
            valuesAfter past < site.callback.operands := by
  rw [walkTree_eq_run, (codeGen_predicts owner).fails_iff]
  constructor
  · rintro ⟨past, site, future, split, faultless, underflows⟩
    rcases predictedFault_eq_emptyStack_iff.mp underflows with ⟨passes, few⟩
    refine ⟨past, site, future, split, ?_, passes, few⟩
    intro before earlier after earlierSplit
    exact treeFault_eq_none (faultless before earlier after earlierSplit)
  · rintro ⟨past, site, future, split, faultless, passes, few⟩
    by_cases smooth : Faultless predictedFault past
    · exact ⟨past, site, future, split, smooth,
        predictedFault_eq_emptyStack_iff.mpr ⟨passes, few⟩⟩
    · -- an earlier callback has found too few values already
      rcases exists_first_fault smooth with
        ⟨before, first, after, fault, earlierSplit, earlier, predicted⟩
      have missing := eq_emptyStack_of_treeFault predicted
        (faultless before first after earlierSplit)
      refine ⟨before, first, after ++ site :: future, ?_, earlier,
        missing ▸ predicted⟩
      rw [split, earlierSplit, List.append_assoc, List.cons_append]

end Llast
