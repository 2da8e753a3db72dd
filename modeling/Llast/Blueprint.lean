import Llast.SsaForm

/-!
# The blueprint of the code

What an instruction does, without its operands, can be read off the tree: the
callbacks of a function call for one alloca for each declared variable, one load for
each reference, one store for each assignment, one operation for each Binary that is
not folded and one `ret` for each Return.  `blueprint` lists them in order, and the
block of the function holds exactly these.  For a function made of statements the
list follows the syntax, whatever was compiled before.
-/

namespace Llast

open Llast.EventRun
open Llast.CodeGenVisitor

/-! ## Instructions without operands -/

/-- What an instruction does, and at which types. -/
inductive Shape where
  | alloca (type : LlvmType) (name : String)
  | load (type : LlvmType)
  | store (type : LlvmType)
  | binary (opcode : Opcode)
  | ret (type : LlvmType)
deriving DecidableEq, Repr

def Operation.shape : Operation → Shape
  | .alloca type name => .alloca type name
  | .load pointer => .load pointer.allocatedType
  | .store _ pointer => .store pointer.allocatedType
  | .binary opcode _ _ => .binary opcode
  | .ret value => .ret value.type

/-- The allocas a Block calls for. -/
def Scope.shapes (scope : Scope) : List Shape :=
  scope.variables.map fun var => .alloca (llvmType var.dataType) var.name

/-- The operation a Binary calls for, if its operands are of this kind. -/
def binaryShapes (operation : OperationKind) (rValueExpr : Expr)
    (folded : Bool) : List Shape :=
  match folded, rValueExpr.dataType with
  | false, .ok dataType => (opcodeOf dataType operation).toList.map .binary
  | _, _ => []

/-- What a callback calls for, given the kinds of the values on the stack. -/
def Site.shapes (site : Site) (kinds : List Kind) : List Shape :=
  match site.callback, kinds with
  | .visitingBlock scope _, _ => scope.shapes
  | .visitVariableRef var, _ => [.load (resolvedType site.path var.name)]
  | .visitedAssignVariable var _, _ =>
      [.store (resolvedType site.path var.name)]
  | .visitedBinary _ operation rValueExpr, rValue :: lValue :: _ =>
      binaryShapes operation rValueExpr (lValue.constant && rValue.constant)
  | .visitedReturn _, value :: _ => [.ret value.type]
  | _, _ => []

/-- What the callbacks call for, one after another. -/
def blueprint : List Kind → List Site → List Shape
  | _, [] => []
  | kinds, site :: rest =>
      site.shapes kinds ++ blueprint (site.onStack Site.kind kinds) rest

theorem blueprint_append (kinds : List Kind) (first second : List Site) :
    blueprint kinds (first ++ second) =
      blueprint kinds first ++
        blueprint (first.foldl (Site.onStack Site.kind) kinds) second := by
  induction first generalizing kinds with
  | nil => rfl
  | cons site rest ih =>
      rw [List.cons_append, blueprint, ih, blueprint, List.append_assoc,
        List.foldl_cons]

/-! ## The code has the shapes of its blueprint -/

/-- What a callback emits has the shapes it calls for. -/
theorem Module.Reaches.shapes_eq {owner : Module} {past : List Site}
    {site : Site} {before after : CodeGenVisitor}
    (reached : owner.Reaches past site before)
    (performs : Performs before site.callback after) :
    (before.operations site.callback).map Operation.shape =
      site.shapes (kindsAfter past) := by
  have kinds := reached.kinds
  rcases reached.framed with ⟨frames, framed⟩
  rcases site with ⟨path, callback⟩
  cases performs with
  | visitingBlock expressions faultless =>
      simp [operations, Site.shapes, Scope.shapes, Function.comp_def,
        Operation.shape]
  | visitVariableRef found =>
      simp [operations, found, Site.shapes, Operation.shape,
        framed.allocatedType found]
  | visitedAssignVariable valueExpr found stack =>
      simp [operations, found, stack, Site.shapes, Operation.shape,
        framed.allocatedType found]
  | visitedBinary left right chosen stack =>
      rename_i opcode lValue rValue rest
      rw [stack] at kinds
      simp only [operations, stack, right, chosen, Site.shapes, ← kinds,
        List.map_cons, Value.kind, binaryOperations, binaryShapes]
      cases lValue.isConstant && rValue.isConstant with
      | true => rfl
      | false => simp [Operation.shape, chosen]
  | visitedReturn valueExpr stack =>
      rw [stack] at kinds
      simp [operations, stack, Site.shapes, ← kinds, Operation.shape,
        Value.kind]
  | silent visitor notOverridden =>
      cases callback <;>
        first
          | exact notOverridden.elim
          | simp [operations, Site.shapes]
  | _ => simp [operations, Site.shapes]

/-- The instructions without their operands. -/
def CodeGenVisitor.shapes (visitor : CodeGenVisitor) : List Shape :=
  visitor.code.map Operation.shape

/-- Inside a module the code grows by what the callbacks call for. -/
theorem Module.shapes_of_run {owner : Module} {past sites future : List Site}
    {start final : CodeGenVisitor}
    (split : owner.sites = past ++ sites ++ future)
    (inside : ∀ site ∈ sites, ∀ other,
      site.callback ≠ .visitingModule other)
    (reaches : run codeGen.performAt past {} = .ok () start)
    (completes : run codeGen.performAt sites start = .ok () final) :
    final.shapes = start.shapes ++ blueprint (kindsAfter past) sites := by
  induction sites generalizing past start with
  | nil =>
      cases completes
      exact (List.append_nil _).symm
  | cons site rest ih =>
      rcases (run_cons_eq_ok_iff _).mp completes with ⟨next, reacts, later⟩
      have performs := perform_eq_ok_iff.mp reacts
      have occurs : owner.sites = past ++ site :: (rest ++ future) := by
        simpa using split
      have reached : owner.Reaches past site start := ⟨⟨_, occurs⟩, reaches⟩
      have code := performs.code (inside site List.mem_cons_self)
      have grown : next.shapes =
          start.shapes ++ site.shapes (kindsAfter past) := by
        rw [CodeGenVisitor.shapes, code, List.map_append,
          reached.shapes_eq performs, CodeGenVisitor.shapes]
      have kinds : kindsAfter (past ++ [site]) =
          site.onStack Site.kind (kindsAfter past) := by
        rw [kindsAfter, List.foldl_append, ← kindsAfter, List.foldl_cons,
          List.foldl_nil]
      have reachesNext :
          run codeGen.performAt (past ++ [site]) {} = .ok () next := by
        rw [run_append_of_ok _ reaches, run_singleton, reacts]
      have whole : owner.sites = past ++ [site] ++ rest ++ future := by
        simpa using split
      have remaining := ih whole
        (fun other member => inside other (List.mem_cons_of_mem _ member))
        reachesNext later
      rw [remaining, grown, kinds, blueprint, List.append_assoc]

/-- The callbacks of a function do not enter a module. -/
theorem Function.inside_of_mem_sites {func : Function} {path : Path}
    {site : Site} (member : site ∈ func.sites path) (other : Module) :
    site.callback ≠ .visitingModule other := by
  intro same
  rcases Function.mem_sites.mp member with ⟨-, own⟩ | inBody
  · rw [same] at own
    simp [Function.ownCallbacks] at own
  · exact Expr.not_outer_of_mem_sites inBody (same ▸ trivial)

/-- The instructions of a block without their operands. -/
def LlvmModule.blockShapes (owner : LlvmModule) (block : Nat) : List Shape :=
  (owner.blockCode block).map fun instruction => instruction.operation.shape

/-- The block of a function has the blueprint of the function's callbacks. -/
theorem Module.blockShapes_of_walk {owner : Module} {final : CodeGenVisitor}
    (completes : walkTree codeGen owner {} = .ok () final) {child : Nat}
    {func : Function} (place : owner.functions[child]? = some (some func)) :
    final.module_.blockShapes child =
      blueprint (kindsAfter (owner.sitesBefore child))
        (func.sites [⟨.module owner, child⟩]) := by
  rcases Module.walk_around completes place with
    ⟨start, finish, before, during, after⟩
  rcases List.getElem?_eq_some_iff.mp place with ⟨inside, -⟩
  have code := Module.blockCode_of_walk inside.le before during after
  have shapes := Module.shapes_of_run (Module.sites_split place)
    (fun site member => Function.inside_of_mem_sites member) before during
  rw [CodeGenVisitor.shapes, CodeGenVisitor.code, code, List.map_append,
    List.map_append, CodeGenVisitor.shapes, CodeGenVisitor.code,
    List.append_cancel_left_eq, List.map_map] at shapes
  exact shapes

/-! ## The code and its blocks -/

/-- An instruction without its operands, with the number of its block. -/
def Instruction.placedShape (instruction : Instruction) : Option Nat × Shape :=
  (some instruction.parent, instruction.operation.shape)

/-- What the callbacks call for, each shape with the entry of the module it is for. -/
def placedBlueprint : List Kind → List Site → List (Option Nat × Shape)
  | _, [] => []
  | kinds, site :: rest =>
      (site.shapes kinds).map (site.entry, ·) ++
        placedBlueprint (site.onStack Site.kind kinds) rest

theorem placedBlueprint_append_singleton (kinds : List Kind) (past : List Site)
    (site : Site) :
    placedBlueprint kinds (past ++ [site]) =
      placedBlueprint kinds past ++
        (site.shapes (past.foldl (Site.onStack Site.kind) kinds)).map
          (site.entry, ·) := by
  induction past generalizing kinds with
  | nil => exact List.append_nil _
  | cons first rest ih =>
      rw [List.cons_append, placedBlueprint, ih, placedBlueprint,
        List.append_assoc, List.foldl_cons]

theorem map_placedShape_placed (address block : Nat) (operations : List Operation) :
    (placed address block operations).map Instruction.placedShape =
      (operations.map Operation.shape).map (some block, ·) := by
  induction operations generalizing address with
  | nil => rfl
  | cons operation rest ih =>
      rw [placed, List.map_cons, ih]
      rfl

/-- Only callbacks about expressions emit code. -/
theorem CodeGenVisitor.operations_eq_nil {visitor : CodeGenVisitor}
    {callback : Callback}
    (outside : callback.Outer ∨ callback = .nullArgument) :
    visitor.operations callback = [] := by
  rcases outside with outer | rfl
  · cases callback <;> first | rfl | exact outer.elim
  · rfl

/-- A callback calls for its code in the block of its own function. -/
theorem Module.Reaches.placedShapes_eq {owner : Module} {past : List Site}
    {site : Site} {before after : CodeGenVisitor}
    (reached : owner.Reaches past site before)
    (performs : Performs before site.callback after) :
    ((before.operations site.callback).map Operation.shape).map
        (some before.block_, ·) =
      (site.shapes (kindsAfter past)).map (site.entry, ·) := by
  have shapes := reached.shapes_eq performs
  by_cases outside : site.callback.Outer ∨ site.callback = .nullArgument
  · rw [CodeGenVisitor.operations_eq_nil outside] at shapes ⊢
    rw [← shapes]
    rfl
  · obtain ⟨inner, present⟩ := not_or.mp outside
    rw [shapes, reached.entry_eq inner present]

/--
Whatever the walk of a module has emitted is, operands apart, what the callbacks of
the tree call for: one alloca for each variable of a Block that was entered, one load
for each reference, one store for each assignment, one operation for each Binary whose
values are not both constants and one `ret` for each Return, in this order.  Each
instruction is in the block with the number of its function in the module, and each
block belongs to the LLVM function of its function's name and type.
-/
theorem emitted_code_has_blueprint {owner : Module} {past future : List Site}
    {visitor : CodeGenVisitor} (split : owner.sites = past ++ future)
    (reaches : run codeGen.performAt past {} = .ok () visitor) :
    Placed (enteredFunctions past) visitor.module_ ∧
      visitor.module_.instructions.map Instruction.placedShape =
        placedBlueprint [] past := by
  refine ⟨Module.placed_of_run split reaches, ?_⟩
  refine owner.reached_induction (motive := fun past visitor =>
    visitor.module_.instructions.map Instruction.placedShape =
      placedBlueprint [] past)
    rfl ?_ split reaches
  intro past site before after reached performs shapes
  rw [placedBlueprint_append_singleton, ← kindsAfter,
    ← reached.placedShapes_eq performs]
  by_cases opening : ∃ other, site.callback = .visitingModule other
  · rcases opening with ⟨other, entering⟩
    rcases site with ⟨path, callback⟩
    rcases reached.occurs with ⟨future, occurs⟩
    subst entering
    rw [Module.past_of_visitingModule occurs]
    cases performs with
    | visitingModule visitor other => rfl
    | silent visitor notOverridden => exact notOverridden.elim
  · rw [performs.instructions (not_exists.mp opening), List.map_append,
      map_placedShape_placed]
    exact congrArg (· ++ _) shapes

theorem emitted_code_has_blueprint_leftover :
    ∃ final, walkTree codeGen leftoverModule {} = .ok () final ∧
      Placed (enteredFunctions leftoverModule.sites) final.module_ ∧
        final.module_.instructions.map Instruction.placedShape =
          placedBlueprint [] leftoverModule.sites := by
  rcases leftoverModule_completes with ⟨final, completes, -⟩
  refine ⟨final, completes, ?_⟩
  rw [walkTree_eq_run] at completes
  exact emitted_code_has_blueprint (List.append_nil leftoverModule.sites).symm
    completes

end Llast
