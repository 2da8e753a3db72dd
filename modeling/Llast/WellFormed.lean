import Llast.Blueprint
import Llast.TypeSoundness

/-!
# Well-formed modules

What one may ask of the LLVM module before it is compiled: the code is in SSA form,
no block uses values of another one, every instruction is well typed, no variable and
no result is without a size, and every block ends in its only `ret`.  Nothing of this
is checked by `ExprRunner`.  It can be read off the tree, where it is a condition on
the values that the callbacks take and on the blueprints of the functions.
-/

namespace Llast

open Llast.EventRun
open Llast.CodeGenVisitor

/-! ## Blocks -/

/-- A value of the type can be stored and returned. -/
def LlvmType.Sized : LlvmType → Prop
  | .void => False
  | .pointer _ => False
  | .unspecified => False
  | _ => True

/-- The shape of a `ret`. -/
def Shape.IsRet : Shape → Prop
  | .ret _ => True
  | _ => False

instance : DecidablePred Shape.IsRet := fun shape => by
  cases shape <;> unfold Shape.IsRet <;> infer_instance

/-- What is allocated or returned has a size. -/
def Shape.Sized : Shape → Prop
  | .alloca type _ => type.Sized
  | .ret type => type.Sized
  | _ => True

instance : DecidablePred LlvmType.Sized := fun type => by
  cases type <;> unfold LlvmType.Sized <;> infer_instance

instance : DecidablePred Shape.Sized := fun shape => by
  cases shape <;> unfold Shape.Sized <;> infer_instance

/-- The shapes end in that of a `ret` and contain no other. -/
def ReturnsOnlyLast (shapes : List Shape) : Prop :=
  ∃ before type, shapes = before ++ [.ret type] ∧
    ∀ shape ∈ before, ¬ shape.IsRet

theorem returnsOnlyLast_iff {shapes : List Shape} :
    ReturnsOnlyLast shapes ↔
      (∃ last ∈ shapes.getLast?, last.IsRet) ∧
        ∀ shape ∈ shapes.dropLast, ¬ shape.IsRet := by
  constructor
  · rintro ⟨before, type, rfl, others⟩
    refine ⟨⟨.ret type, by simp, trivial⟩, ?_⟩
    rw [List.dropLast_concat]
    exact others
  · rintro ⟨⟨last, ends, isRet⟩, others⟩
    cases last with
    | ret type =>
        refine ⟨shapes.dropLast, type, ?_, others⟩
        exact (List.dropLast_append_getLast? _ ends).symm
    | _ => exact isRet.elim

instance (shapes : List Shape) : Decidable (ReturnsOnlyLast shapes) :=
  decidable_of_iff' _ returnsOnlyLast_iff

/-- A block that returns once, at its end, and in which everything has a size. -/
structure CompleteBlock (shapes : List Shape) : Prop where
  returns : ReturnsOnlyLast shapes
  sized : ∀ shape ∈ shapes, shape.Sized

instance (shapes : List Shape) : Decidable (CompleteBlock shapes) :=
  decidable_of_iff (ReturnsOnlyLast shapes ∧ ∀ shape ∈ shapes, shape.Sized)
    ⟨fun holds => ⟨holds.1, holds.2⟩, fun holds => ⟨holds.returns, holds.sized⟩⟩

/-! ## Modules -/

/-- The module can be compiled and run block by block. -/
structure LlvmModule.WellFormed (owner : LlvmModule) : Prop where
  ssa : owner.InSsaForm
  usesLocally : owner.UsesLocally
  wellTyped : owner.WellTyped
  complete : ∀ block < owner.blocks.length,
    CompleteBlock (owner.blockShapes block)

/-- The values that are taken fit, and every function returns once, at its end. -/
structure Module.Sound (owner : Module) : Prop where
  wellKinded : Throughout Site.WellKinded owner.sites
  takesLocally : Throughout Site.TakesLocally owner.sites
  complete : ∀ child func, owner.functions[child]? = some (some func) →
    CompleteBlock (blueprint (kindsAfter (owner.sitesBefore child))
      (func.sites [⟨.module owner, child⟩]))

/-- The functions of a module have a property exactly if its entries do. -/
theorem Module.forall_function_iff {owner : Module}
    {Holds : Nat → Function → Prop} :
    (∀ child func, owner.functions[child]? = some (some func) →
        Holds child func) ↔
      ∀ entry ∈ owner.functions.zipIdx, ∀ func ∈ entry.1, Holds entry.2 func := by
  constructor
  · rintro holds ⟨entry, child⟩ member func rfl
    exact holds child func (List.mem_zipIdx_iff_getElem?.mp member)
  · intro holds child func place
    exact holds (some func, child) (List.mem_zipIdx_iff_getElem?.mpr place) func rfl

instance (owner : Module) : Decidable owner.Sound :=
  decidable_of_iff
    (Throughout Site.WellKinded owner.sites ∧
      Throughout Site.TakesLocally owner.sites ∧
        ∀ entry ∈ owner.functions.zipIdx, ∀ func ∈ entry.1,
          CompleteBlock (blueprint (kindsAfter (owner.sitesBefore entry.2))
            (func.sites [⟨.module owner, entry.2⟩])))
    ⟨fun ⟨kinds, takes, complete⟩ =>
        ⟨kinds, takes, Module.forall_function_iff.mpr complete⟩,
      fun sound => ⟨sound.wellKinded, sound.takesLocally,
        Module.forall_function_iff.mp sound.complete⟩⟩

/-- The blocks have a property of shapes exactly if the blueprints have it. -/
theorem Module.forall_blockShapes_iff {owner : Module} {final : CodeGenVisitor}
    (completes : walkTree codeGen owner {} = .ok () final)
    (Holds : List Shape → Prop) :
    (∀ block < final.module_.blocks.length,
        Holds (final.module_.blockShapes block)) ↔
      ∀ child func, owner.functions[child]? = some (some func) →
        Holds (blueprint (kindsAfter (owner.sitesBefore child))
          (func.sites [⟨.module owner, child⟩])) := by
  constructor
  · intro holds child func place
    rcases Module.symbol_of_walk completes place with ⟨block, found, -⟩
    rw [← Module.blockShapes_of_walk completes place]
    exact holds child (List.getElem?_eq_some_iff.mp found).1
  · intro holds block inside
    rcases Module.entry_of_block completes (List.getElem?_eq_getElem inside)
      with ⟨func, place⟩
    rw [Module.blockShapes_of_walk completes place]
    exact holds block func place

theorem Module.Sound.wellFormed {owner : Module} (sound : owner.Sound)
    {final : CodeGenVisitor}
    (completes : walkTree codeGen owner {} = .ok () final) :
    final.module_.WellFormed := by
  have walked := completes
  rw [walkTree_eq_run] at walked
  have split := (List.append_nil owner.sites).symm
  have sofar := Module.ssaSoFar_of_run split walked
  have typed := Module.typedSoFar_of_run split walked
  have ascending := (Module.addressesAscend_of_run split walked).ascending
  exact ⟨⟨ascending, sofar.supplied⟩,
    sofar.usesLocally_iff.mpr sound.takesLocally,
    (typed.wellTyped_iff.mpr sound.wellKinded).1,
    (Module.forall_blockShapes_iff completes _).mpr sound.complete⟩

/--
If the walk of a module completes, the LLVM module is well formed and the operations
that were folded had operands of their type exactly if the tree is sound: at every
callback the values that are taken have the types at which they are used and were
pushed in the same function, and the callbacks of every function call for sized
variables and for one `ret` of a sized value at the end.
-/
theorem well_formed_iff_sound (owner : Module) {final : CodeGenVisitor}
    (completes : walkTree codeGen owner {} = .ok () final) :
    (final.module_.WellFormed ∧ Throughout Site.FoldsWellTyped owner.sites) ↔
      owner.Sound := by
  have walked := completes
  rw [walkTree_eq_run] at walked
  have split := (List.append_nil owner.sites).symm
  have typed := Module.typedSoFar_of_run split walked
  constructor
  · rintro ⟨wellFormed, folds⟩
    have sofar := Module.ssaSoFar_of_run split walked
    exact ⟨typed.wellTyped_iff.mp ⟨wellFormed.wellTyped, folds⟩,
      sofar.usesLocally_iff.mp wellFormed.usesLocally,
      (Module.forall_blockShapes_iff completes _).mp wellFormed.complete⟩
  · intro sound
    exact ⟨sound.wellFormed completes,
      (typed.wellTyped_iff.mpr sound.wellKinded).2⟩

theorem well_formed_iff_sound_int32Throughout :
    ∃ final, walkTree codeGen int32Throughout {} = .ok () final ∧
      (final.module_.WellFormed ∧
          Throughout Site.FoldsWellTyped int32Throughout.sites) ∧
        int32Throughout.Sound := by
  have completes : faultOf (walkTree codeGen int32Throughout {}) = none := by
    decide +kernel
  have sound : int32Throughout.Sound := by
    decide +kernel
  rcases ends_iff.mpr completes with ⟨final, completes⟩
  exact ⟨final, completes,
    (well_formed_iff_sound int32Throughout completes).mpr sound, sound⟩

end Llast
