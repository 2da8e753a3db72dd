import Llast.CodeGenSteps

/-!
# The declarations of a Block

A Block is put together by calls of a `BlockBuilder`.  Its scope holds one variable
for every name, so `visitingBlock`, which throws for a name it has already seen, never
sees one: of two variables of one name the second is dropped without a word.
-/

namespace Llast

open Llast.CodeGenVisitor

/-! ## Building a Block -/

/-- A call of a member function of `BlockBuilder`. -/
inductive BlockBuilderCall where
  | addVariable (var : Variable)
  | addExpression (newExpr : Expr)

/-- The builder after a call. -/
def BlockBuilder.call (builder : BlockBuilder) :
    BlockBuilderCall → BlockBuilder
  | .addVariable var => builder.addVariable var
  | .addExpression newExpr => builder.addExpression newExpr

/-- The builder after some calls. -/
def BlockBuilder.after (calls : List BlockBuilderCall) : BlockBuilder :=
  calls.foldl BlockBuilder.call {}

/-- The variable that a call adds. -/
def BlockBuilderCall.added : BlockBuilderCall → Option Variable
  | .addVariable var => some var
  | .addExpression _ => none

/-- The variables that were added, in order. -/
def addedVariables (calls : List BlockBuilderCall) : List Variable :=
  calls.filterMap BlockBuilderCall.added

theorem BlockBuilder.foldl_call_scopeBuilder_ (calls : List BlockBuilderCall)
    (builder : BlockBuilder) :
    (calls.foldl BlockBuilder.call builder).scopeBuilder_ =
      (addedVariables calls).foldl ScopeBuilder.addVariable
        builder.scopeBuilder_ := by
  induction calls generalizing builder with
  | nil => rfl
  | cons call rest ih =>
      rw [List.foldl_cons, ih]
      cases call <;> rfl

/-- The scope of the Block that is built after some calls. -/
def builtScope (calls : List BlockBuilderCall) (order : EnumerationOrder) :
    Scope :=
  (BlockBuilder.after calls).scopeBuilder_.build order

theorem builtScope_eq (calls : List BlockBuilderCall) (order : EnumerationOrder) :
    builtScope calls order =
      ((addedVariables calls).foldl ScopeBuilder.addVariable .new).build
        order := by
  rw [builtScope, BlockBuilder.after, BlockBuilder.foldl_call_scopeBuilder_]

theorem builtScope_built (calls : List BlockBuilderCall)
    (order : EnumerationOrder) : (builtScope calls order).Built :=
  ⟨addedVariables calls, order, builtScope_eq calls order⟩

/-! ## Every variable of a scope was added -/

theorem ScopeBuilder.mem_foldl_addVariable {additions : List Variable}
    {builder : ScopeBuilder} {entry : String × Variable}
    (member : entry ∈
      (additions.foldl ScopeBuilder.addVariable builder).variables_) :
    entry.2 ∈ additions ∨ entry ∈ builder.variables_ := by
  induction additions generalizing builder with
  | nil => exact .inr member
  | cons var rest ih =>
      rcases ih member with later | before
      · exact .inl (List.mem_cons_of_mem _ later)
      · rw [ScopeBuilder.addVariable] at before
        split at before
        · exact .inr before
        · rcases List.mem_cons.mp before with rfl | earlier
          · exact .inl List.mem_cons_self
          · exact .inr earlier

theorem mem_added_of_mem_builtScope {calls : List BlockBuilderCall}
    {order : EnumerationOrder} {var : Variable}
    (member : var ∈ (builtScope calls order).variables) :
    var ∈ addedVariables calls := by
  rw [builtScope_eq] at member
  rcases List.mem_map.mp member with ⟨entry, inside, rfl⟩
  rcases ScopeBuilder.mem_foldl_addVariable
    ((order.perm _).mem_iff.mp inside) with added | none
  · exact added
  · cases none

/-! ## Entering the Block -/

theorem declaredCode_operations (vars : List Variable) (address block : Nat) :
    (declaredCode vars address block).map Instruction.operation =
        vars.map (fun var => .alloca (llvmType var.dataType) var.name) ∧
      ∀ instruction ∈ declaredCode vars address block,
        instruction.parent = block := by
  induction vars generalizing address with
  | nil => exact ⟨rfl, List.forall_mem_nil _⟩
  | cons var rest ih =>
      obtain ⟨operations, parents⟩ := ih (address + 1)
      constructor
      · rw [declaredCode, List.map_cons, operations, List.map_cons]
      · intro instruction member
        rcases List.mem_cons.mp member with rfl | later
        · rfl
        · exact parents instruction later

/-- A built scope with mapped types is declared without any exception. -/
theorem declarationFault_of_mapped {scope : Scope} (built : scope.Built)
    (mapped : ∀ var ∈ scope.variables,
      ∃ type, getType var.dataType = .ok type) :
    declarationFault scope.variables [] = none := by
  refine declarationFault_eq_none_iff.mpr
    ⟨built.distinctNames, fun _ _ => List.not_mem_nil, fun var member => ?_⟩
  obtain ⟨type, known⟩ := mapped var member
  rw [llvmType_of_getType known, known]

/--
Entering the Block throws for two variables of one name, and only then; otherwise it
creates one alloca of the declared type for each variable that was added.
-/
structure DuplicatesReported (calls : List BlockBuilderCall)
    (order : EnumerationOrder) (visitor : CodeGenVisitor) : Prop where
  throws :
    (∃ name final,
      codeGen.visitingBlock (builtScope calls order)
          (BlockBuilder.after calls).expressions_ visitor =
        .error (.thrown (alreadyDefined name)) final) ↔
      ¬ ((addedVariables calls).map Variable.name).Nodup
  declares : ((addedVariables calls).map Variable.name).Nodup →
    ∃ final created,
      codeGen.visitingBlock (builtScope calls order)
          (BlockBuilder.after calls).expressions_ visitor = .ok () final ∧
        final.module_.instructions =
          visitor.module_.instructions ++ created ∧
          (created.map Instruction.operation).Perm
            ((addedVariables calls).map fun var =>
              .alloca (llvmType var.dataType) var.name) ∧
            ∀ instruction ∈ created, instruction.parent = visitor.block_

section Enters

variable {calls : List BlockBuilderCall} (order : EnumerationOrder)
variable
    (mapped : ∀ var ∈ addedVariables calls,
      ∃ type, getType var.dataType = .ok type)

include mapped

/-- Entering a built Block never throws. -/
theorem visitingBlock_of_built (visitor : CodeGenVisitor) :
    codeGen.visitingBlock (builtScope calls order)
        (BlockBuilder.after calls).expressions_ visitor =
      .ok () (visitor.declared (builtScope calls order).variables []
        visitor.allocaScopeStack_) := by
  have faultless :
      declarationFault (builtScope calls order).variables [] = none := by
    apply declarationFault_of_mapped (builtScope_built calls order)
    intro var member
    exact mapped var (mem_added_of_mem_builtScope member)
  exact @visitingBlock_of_none _ (BlockBuilder.after calls).expressions_ _
    faultless

theorem not_duplicatesReported
    (duplicate : ¬ ((addedVariables calls).map Variable.name).Nodup)
    (visitor : CodeGenVisitor) :
    ¬ DuplicatesReported calls order visitor := by
  intro reported
  obtain ⟨name, final, throws⟩ := reported.throws.mpr duplicate
  rw [visitingBlock_of_built order mapped visitor] at throws
  cases throws

/-- Duplicates are reported exactly where there are none. -/
theorem duplicates_reported_iff (visitor : CodeGenVisitor) :
    DuplicatesReported calls order visitor ↔
      ((addedVariables calls).map Variable.name).Nodup := by
  constructor
  · intro reported
    by_contra duplicate
    exact not_duplicatesReported order mapped duplicate visitor reported
  · intro distinct
    have enters := visitingBlock_of_built order mapped visitor
    constructor
    · constructor
      · rintro ⟨name, final, throws⟩
        rw [enters] at throws
        cases throws
      · intro duplicate
        exact absurd distinct duplicate
    · intro _
      obtain ⟨operations, parents⟩ :=
        declaredCode_operations (builtScope calls order).variables
          visitor.context_.nextAddress visitor.block_
      refine ⟨_, _, enters, rfl, ?_, parents⟩
      rw [operations, builtScope_eq]
      exact (ScopeBuilder.build_variables_perm distinct order).map _

end Enters

theorem duplicates_reported_distinct :
    DuplicatesReported
      [.addVariable ⟨0, "x", .int32⟩, .addExpression (.literalInt32 1),
        .addVariable ⟨1, "y", .float⟩] .insertion {} := by
  refine (duplicates_reported_iff .insertion ?_ {}).mpr (by decide)
  intro var member
  simp only [addedVariables, List.filterMap_cons, BlockBuilderCall.added,
    List.filterMap_nil, List.mem_cons, List.not_mem_nil, or_false] at member
  rcases member with rfl | rfl
  · exact ⟨.int32, rfl⟩
  · exact ⟨.float, rfl⟩

/-- `int x; float x;` in one Block. -/
theorem duplicate_is_not_reported :
    ¬ DuplicatesReported
      [.addVariable ⟨0, "x", .int32⟩, .addVariable ⟨1, "x", .float⟩]
      .insertion {} := by
  refine not_duplicatesReported .insertion ?_ (by decide) {}
  intro var member
  simp only [addedVariables, List.filterMap_cons, BlockBuilderCall.added,
    List.filterMap_nil, List.mem_cons, List.not_mem_nil, or_false] at member
  rcases member with rfl | rfl
  · exact ⟨.int32, rfl⟩
  · exact ⟨.float, rfl⟩

end Llast
