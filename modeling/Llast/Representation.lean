import Llast.Emission
import Llast.Interpreter

/-!
# Environments in memory

The frames of an environment lie in memory: each open Block has the allocas of its
variables, and what a variable holds is in the cell of its alloca.  Reading,
assigning, entering a Block and leaving it do the same on both sides.
-/

namespace Llast

open Llast.CodeGenVisitor

/-! ## Frames and cells -/

/-- The cells of a scope hold what the frame says. -/
structure FrameHolds (memory : Nat → Option Datum) (scope : AllocaScope)
    (frame : Environment.Frame) : Prop where
  undeclared : ∀ name, scope.lookup name = none → frame name = none
  declared : ∀ name inst, scope.lookup name = some inst →
    ∃ datum, memory inst.address = some datum ∧ frame name = some datum

/-- The addresses of the allocas of some scopes. -/
def cells (scopes : List AllocaScope) : List Nat :=
  scopes.flatMap fun scope => scope.map fun entry => entry.2.address

theorem cells_cons (scope : AllocaScope) (scopes : List AllocaScope) :
    cells (scope :: scopes) = cells [scope] ++ cells scopes := by
  simp [cells]

theorem mem_cells_of_lookup {scope : AllocaScope} {scopes : List AllocaScope}
    {name : String} {inst : AllocaInst} (member : scope ∈ scopes)
    (found : scope.lookup name = some inst) : inst.address ∈ cells scopes := by
  rcases List.lookup_eq_some_iff.mp found with ⟨before, after, rfl, -⟩
  exact List.mem_flatMap.mpr ⟨_, member, by simp⟩

/--
The frames of the environment lie in the cells of the scopes, which are pairwise
different and older than the next address.
-/
structure Represents (nextAddress : Nat) (scopes : List AllocaScope)
    (machine : Machine) (env : Environment) : Prop where
  frames : List.Forall₂ (FrameHolds machine.memory) scopes env
  distinct : (cells scopes).Nodup
  older : ∀ address ∈ cells scopes, address < nextAddress

/-- Addresses are only given out, and registers do not matter. -/
theorem Represents.later {nextAddress later : Nat}
    {scopes : List AllocaScope} {machine after : Machine} {env : Environment}
    (represents : Represents nextAddress scopes machine env)
    (grown : nextAddress ≤ later) (same : after.memory = machine.memory) :
    Represents later scopes after env where
  frames := same ▸ represents.frames
  distinct := represents.distinct
  older := fun address member => (represents.older address member).trans_le grown

/-! ## Reading and assigning -/

theorem findAlloca_append {name : String} {scopes : List AllocaScope}
    {inst : AllocaInst} (found : findAlloca name scopes = some inst)
    (outer : List AllocaScope) :
    findAlloca name (scopes ++ outer) = some inst := by
  induction scopes with
  | nil => cases found
  | cons scope rest ih =>
      rw [findAlloca] at found
      rw [List.cons_append, findAlloca]
      cases here : scope.lookup name with
      | some other =>
          rw [here] at found
          exact found
      | none =>
          rw [here] at found
          exact ih found

/-- What a name holds is in the cell its alloca stands for. -/
theorem read_represented {memory : Nat → Option Datum}
    {scopes : List AllocaScope} {env : Environment} {name : String}
    {datum : Datum} (frames : List.Forall₂ (FrameHolds memory) scopes env)
    (holds : env.read name = some datum) :
    ∃ inst, findAlloca name scopes = some inst ∧
      memory inst.address = some datum := by
  induction frames with
  | nil => cases holds
  | cons first others ih =>
      rename_i scope frame scopes env
      rw [Environment.read] at holds
      rw [findAlloca]
      cases here : scope.lookup name with
      | some inst =>
          rcases first.declared name inst here with ⟨known, cell, entry⟩
          rw [entry] at holds
          cases holds
          exact ⟨inst, rfl, cell⟩
      | none =>
          rw [first.undeclared name here] at holds
          exact ih holds

/-- Only the cells of the scope matter. -/
theorem FrameHolds.congr {memory after : Nat → Option Datum}
    {scope : AllocaScope} {frame : Environment.Frame}
    (holds : FrameHolds memory scope frame)
    (same : ∀ address ∈ cells [scope], after address = memory address) :
    FrameHolds after scope frame where
  undeclared := holds.undeclared
  declared := by
    intro name inst found
    rcases holds.declared name inst found with ⟨known, cell, entry⟩
    refine ⟨known, ?_, entry⟩
    rw [same _ (mem_cells_of_lookup List.mem_cons_self found), cell]

theorem frames_congr {memory after : Nat → Option Datum}
    {scopes : List AllocaScope} {env : Environment}
    (frames : List.Forall₂ (FrameHolds memory) scopes env)
    (same : ∀ address ∈ cells scopes, after address = memory address) :
    List.Forall₂ (FrameHolds after) scopes env := by
  induction frames with
  | nil => exact .nil
  | cons first others ih =>
      rw [cells_cons, List.forall_mem_append] at same
      exact .cons (first.congr same.1) (ih same.2)

/-- A write to the cell of a variable assigns to the variable. -/
theorem FrameHolds.assign {memory : Nat → Option Datum} {scope : AllocaScope}
    {frame : Environment.Frame} {name : String} {inst : AllocaInst}
    (holds : FrameHolds memory scope frame) (distinct : (cells [scope]).Nodup)
    (found : scope.lookup name = some inst) (datum : Datum) :
    FrameHolds (Function.update memory inst.address (some datum)) scope
      (Function.update frame name (some datum)) where
  undeclared := by
    intro other missing
    rw [Function.update_of_ne]
    · exact holds.undeclared other missing
    · rintro rfl
      rw [found] at missing
      cases missing
  declared := by
    intro other otherInst otherFound
    by_cases same : other = name
    · subst same
      rw [found] at otherFound
      cases otherFound
      exact ⟨datum, Function.update_self .., Function.update_self ..⟩
    · rcases holds.declared other otherInst otherFound with ⟨known, cell, entry⟩
      refine ⟨known, ?_, by rw [Function.update_of_ne same, entry]⟩
      rw [Function.update_of_ne, cell]
      -- two names of one scope have different cells
      intro sameCell
      have pairs : (scope.map fun entry => entry.2.address).Nodup := by
        simpa [cells] using distinct
      rcases List.lookup_eq_some_iff.mp found with ⟨_, _, here, -⟩
      rcases List.lookup_eq_some_iff.mp otherFound with ⟨_, _, there, -⟩
      have inHere : (name, inst) ∈ scope := by simp [here]
      have inThere : (other, otherInst) ∈ scope := by simp [there]
      have equal := List.inj_on_of_nodup_map pairs inThere inHere sameCell
      exact same (congrArg Prod.fst equal)

/-- An assignment writes the cell its name's alloca stands for. -/
theorem assign_represented {memory : Nat → Option Datum}
    {scopes : List AllocaScope} {env next : Environment} {name : String}
    {datum : Datum} (frames : List.Forall₂ (FrameHolds memory) scopes env)
    (distinct : (cells scopes).Nodup)
    (assigns : env.assign name datum = some next) :
    ∃ inst, findAlloca name scopes = some inst ∧
      (∃ old, memory inst.address = some old) ∧
        inst.address ∈ cells scopes ∧
        List.Forall₂
          (FrameHolds (Function.update memory inst.address (some datum)))
          scopes next := by
  induction frames generalizing next with
  | nil => cases assigns
  | cons first others ih =>
      rename_i scope frame scopes env
      rw [cells_cons, List.nodup_append'] at distinct
      rw [Environment.assign] at assigns
      rw [findAlloca]
      cases here : scope.lookup name with
      | some inst =>
          rcases first.declared name inst here with ⟨known, cell, entry⟩
          rw [entry] at assigns
          cases assigns
          have member : inst.address ∈ cells [scope] :=
            mem_cells_of_lookup List.mem_cons_self here
          refine ⟨inst, rfl, ⟨known, cell⟩, ?_,
            .cons (first.assign distinct.1 here datum) ?_⟩
          · rw [cells_cons]
            exact List.mem_append_left _ member
          · apply frames_congr others
            intro address later
            refine Function.update_of_ne ?_ ..
            rintro rfl
            exact distinct.2.2 member later
      | none =>
          rw [first.undeclared name here] at assigns
          rcases Option.map_eq_some_iff.mp assigns with ⟨outer, assigned, rfl⟩
          rcases ih distinct.2.1 assigned with ⟨inst, found, old, member, holds⟩
          refine ⟨inst, found, old, ?_, .cons (first.congr ?_) holds⟩
          · rw [cells_cons]
            exact List.mem_append_right _ member
          · intro address inside
            refine Function.update_of_ne ?_ ..
            rintro rfl
            exact distinct.2.2 inside member

/-! ## Entering and leaving a Block -/

section Enter

variable (arith : FloatArith)

/-- The allocas of a Block make its cells, and change no other. -/
theorem proceed_allocas (vars : List Variable) (machine : Machine)
    (address block : Nat) :
    ∃ after,
      machine.proceed arith (placed address block (vars.map fun var =>
        .alloca (llvmType var.dataType) var.name)) = some after ∧
        (∀ cell, address ≤ cell → cell < address + vars.length →
          after.memory cell = some .undef) ∧
          ∀ cell, cell < address → after.memory cell = machine.memory cell := by
  induction vars generalizing machine address with
  | nil =>
      refine ⟨machine, rfl, fun cell least most => ?_, fun cell _ => rfl⟩
      rw [List.length_nil] at most
      omega
  | cons var rest ih =>
      rcases ih (machine.setCell address .undef) (address + 1) with
        ⟨after, proceeds, made, kept⟩
      refine ⟨after, proceeds, fun cell least most => ?_, fun cell below => ?_⟩
      · rw [List.length_cons] at most
        by_cases first : cell = address
        · rw [kept cell (by omega), first]
          exact Function.update_self ..
        · exact made cell (by omega) (by omega)
      · rw [kept cell (by omega)]
        exact Function.update_of_ne (by omega) ..

theorem declaredScope_addresses (vars : List Variable) (address : Nat)
    (scope : AllocaScope) :
    (declaredScope vars address scope).map (fun entry => entry.2.address) =
      (List.range' address vars.length).reverse ++
        scope.map fun entry => entry.2.address := by
  induction vars generalizing address scope with
  | nil => rfl
  | cons var rest ih =>
      rw [declaredScope, ih, List.length_cons, List.range'_succ,
        List.reverse_cons]
      simp

theorem cells_declaredScope (vars : List Variable) (address : Nat) :
    cells [declaredScope vars address []] =
      (List.range' address vars.length).reverse := by
  simp [cells, declaredScope_addresses]

theorem mem_cells_declaredScope {vars : List Variable} {address cell : Nat} :
    cell ∈ cells [declaredScope vars address []] ↔
      address ≤ cell ∧ cell < address + vars.length := by
  rw [cells_declaredScope, List.mem_reverse, List.mem_range'_1]

theorem lookup_declaredScope_eq_none_iff {scope : Scope} {address : Nat}
    {name : String} :
    (declaredScope scope.variables address []).lookup name = none ↔
      ¬ scope.Declares name := by
  rw [← Option.not_isSome_iff_eq_none, lookup_isSome_iff, declaredScope_keys]
  simp [Scope.Declares]

/-- The allocas of the variables of a Block. -/
def Scope.allocas (scope : Scope) : List Operation :=
  scope.variables.map fun var => .alloca (llvmType var.dataType) var.name

theorem Scope.length_allocas (scope : Scope) :
    scope.allocas.length = scope.variables.length :=
  List.length_map _

/-- The allocas of a Block hold its fresh frame. -/
theorem Represents.enter {nextAddress : Nat} {scopes : List AllocaScope}
    {machine : Machine} {env : Environment}
    (represents : Represents nextAddress scopes machine env) (scope : Scope)
    (block : Nat) :
    ∃ after,
      machine.proceed arith (placed nextAddress block scope.allocas) =
        some after ∧
        Represents (nextAddress + scope.variables.length)
          (declaredScope scope.variables nextAddress [] :: scopes) after
          (Environment.declare scope :: env) := by
  rcases proceed_allocas arith scope.variables machine nextAddress block with
    ⟨after, proceeds, made, kept⟩
  refine ⟨after, proceeds, .cons ⟨?_, ?_⟩ ?_, ?_, ?_⟩
  · intro name missing
    exact if_neg (lookup_declaredScope_eq_none_iff.mp missing)
  · intro name inst found
    have inside := mem_cells_declaredScope.mp
      (mem_cells_of_lookup List.mem_cons_self found)
    refine ⟨.undef, made _ inside.1 inside.2, if_pos ?_⟩
    by_contra undeclared
    rw [lookup_declaredScope_eq_none_iff.mpr undeclared] at found
    cases found
  · exact frames_congr represents.frames fun cell member =>
      kept cell (represents.older cell member)
  · rw [cells_cons, List.nodup_append', cells_declaredScope]
    refine ⟨List.nodup_reverse.mpr List.nodup_range', represents.distinct, ?_⟩
    intro cell inside member
    rw [← cells_declaredScope, mem_cells_declaredScope] at inside
    exact absurd (represents.older cell member) inside.1.not_gt
  · rw [cells_cons, List.forall_mem_append]
    constructor
    · exact fun cell member => (mem_cells_declaredScope.mp member).2
    · intro cell member
      exact (represents.older cell member).trans_le (Nat.le_add_right _ _)

end Enter

/-- Outside the Block its frame is gone, and its cells do not matter. -/
theorem Represents.leave {nextAddress : Nat} {scope : AllocaScope}
    {scopes : List AllocaScope} {machine : Machine} {env : Environment}
    (represents : Represents nextAddress (scope :: scopes) machine env) :
    Represents nextAddress scopes machine env.tail := by
  rcases represents with ⟨frames, distinct, older⟩
  rw [cells_cons, List.nodup_append'] at distinct
  rw [cells_cons, List.forall_mem_append] at older
  cases frames with
  | cons first others => exact ⟨others, distinct.2.1, older.2⟩

end Llast
