import Llast.Scoping

/-!
# The parameters of a function

`FunctionBuilder` collects parameters, and nothing reads them: `visitingFunction`
declares a vector for the types of the arguments, which stays empty and is not handed
on, and no callback enters `parameterScope()`.
-/

namespace Llast

open Llast.EventRun
open Llast.CodeGenVisitor

/-- The function that is built after some parameters were added. -/
def FunctionBuilder.withParameters (builder : FunctionBuilder)
    (params : List Variable) (parameterOrder blockOrder : EnumerationOrder) :
    Function :=
  (params.foldl FunctionBuilder.addParameter builder).build parameterOrder
    blockOrder

/--
The LLVM function that was just created has one argument for each parameter, of its
type and in order, and in the body a name that no enclosing Block declares stands for
the parameter of that name.
-/
structure HonoursSignature (owner : Module) (func : Function) (child : Nat)
    (params : List Variable) (created : CodeGenVisitor) : Prop where
  argTypes : ∃ entry,
    created.module_.functions[created.function_]? = some entry ∧
      entry.argTypes.map Except.ok =
        params.map fun param => getType param.dataType
  resolves : ∀ past site visitor var,
    owner.Reaches past site visitor →
      site ∈ func.body.sites (owner.bodyPath func child) →
        site.LooksUp var →
          (∀ block ∈ enclosingBlocks site.path,
            ¬ block.2.Declares var.name) →
            ∀ param ∈ params, param.name = var.name →
              ∃ inst, lookupVariable var.name visitor = .ok inst visitor ∧
                getType param.dataType = .ok inst.allocatedType

/-- The function that is entered takes no arguments. -/
theorem argTypes_of_visitingFunction {func : Function}
    {visitor created : CodeGenVisitor}
    (creates : codeGen.visitingFunction func visitor = .ok () created) :
    ∃ entry, created.module_.functions[created.function_]? = some entry ∧
      entry.argTypes = [] := by
  have performs :
      codeGen.perform (.visitingFunction func) visitor = .ok () created :=
    creates
  have done := perform_eq_ok_iff.mp performs
  cases done with
  | visitingFunction mapped inserts =>
      obtain ⟨-, -, -, entry⟩ := LlvmModule.getOrInsertFunction_entry inserts
      exact ⟨_, entry, rfl⟩
  | silent _ notOverridden => exact notOverridden.elim

section Signature

variable {owner : Module} {builder : FunctionBuilder} {params : List Variable}
variable {parameterOrder blockOrder : EnumerationOrder} {child : Nat}
variable {visitor created : CodeGenVisitor}

theorem no_params_of_honoursSignature {func : Function}
    (creates : codeGen.visitingFunction func visitor = .ok () created)
    (honours : HonoursSignature owner func child params created) :
    params = [] := by
  obtain ⟨entry, stands, none⟩ := argTypes_of_visitingFunction creates
  obtain ⟨other, same, types⟩ := honours.argTypes
  rw [stands] at same
  cases same
  rw [none, List.map_nil] at types
  exact List.map_eq_nil_iff.mp types.symm

/-- A signature is honoured exactly if it has no parameters. -/
theorem signature_honoured_iff
    (creates :
      codeGen.visitingFunction
          (builder.withParameters params parameterOrder blockOrder) visitor =
        .ok () created) :
    HonoursSignature owner
        (builder.withParameters params parameterOrder blockOrder) child params
        created ↔
      params = [] := by
  constructor
  · exact no_params_of_honoursSignature creates
  · rintro rfl
    constructor
    · obtain ⟨entry, stands, none⟩ := argTypes_of_visitingFunction creates
      exact ⟨entry, stands, by rw [none]; rfl⟩
    · intro past site visitor var _ _ _ _ param member
      cases member

end Signature

/-- `int f(params) { return p; }`. -/
def returnsParameter (params : List Variable) : Function :=
  let fb : FunctionBuilder :=
    { name_ := "f", returnType_ := .int32
      blockBuilder_ :=
        BlockBuilder.addExpression {} (.return (.variableRef ⟨0, "p", .int32⟩)) }
  fb.withParameters params .insertion .insertion

/-- The module of this function. -/
def parameterModule (params : List Variable) : Module :=
  (ModuleBuilder.addFunction { name_ := "parameters" }
    (some (returnsParameter params))).build

theorem signature_honoured_none :
    ∃ created,
      codeGen.visitingFunction (returnsParameter []) {} = .ok () created ∧
        HonoursSignature (parameterModule []) (returnsParameter []) 0 []
          created := by
  have creates :
      ∃ created,
        codeGen.visitingFunction (returnsParameter []) {} = .ok () created :=
    ⟨_, rfl⟩
  obtain ⟨created, creates⟩ := creates
  exact ⟨created, creates, (signature_honoured_iff creates).mpr rfl⟩

/-- `int f(int p) { return p; }` is created without arguments, and `p` is not found. -/
theorem parameter_is_lost :
    faultOf (walkTree codeGen (parameterModule [⟨0, "p", .int32⟩]) {}) =
        some (.thrown (notDefined "p")) ∧
      ∃ past path visitor created,
        (parameterModule [⟨0, "p", .int32⟩]).Reaches past
            ⟨path, .visitingFunction (returnsParameter [⟨0, "p", .int32⟩])⟩
            visitor ∧
          codeGen.visitingFunction (returnsParameter [⟨0, "p", .int32⟩])
              visitor = .ok () created ∧
            ¬ HonoursSignature (parameterModule [⟨0, "p", .int32⟩])
              (returnsParameter [⟨0, "p", .int32⟩]) 0 [⟨0, "p", .int32⟩]
              created := by
  have creates :
      ∃ visitor created,
        run codeGen.performAt
            ((parameterModule [⟨0, "p", .int32⟩]).sites.take 3) {} =
          .ok () visitor ∧
          codeGen.visitingFunction (returnsParameter [⟨0, "p", .int32⟩])
            visitor = .ok () created :=
    ⟨_, _, rfl, rfl⟩
  obtain ⟨visitor, created, reaches, creates⟩ := creates
  refine ⟨by decide +kernel, _, _, visitor, created, ⟨⟨_, rfl⟩, reaches⟩,
    creates, fun honours => ?_⟩
  exact absurd (no_params_of_honoursSignature creates honours)
    (List.cons_ne_nil _ _)

end Llast
