import Llast.PrettyPrinter
import Llast.RelabeledMeaning

/-!
# The order of a hash map

A scope is an `unordered_map`, so the order in which it enumerates its variables
depends on the hash function, the number of buckets and the order of insertion.  The
generator and the printer both enumerate it.  Whatever the orders are, a module ends in
the same exception or behaves the same, and the same text is printed of it.
-/

namespace Llast

open Llast.EventRun

/-! ## Trees that differ in the orders of their scopes -/

/-- The same entries, possibly enumerated in another order. -/
def Scope.SameEntries (scope other : Scope) : Prop :=
  scope.entries.Perm other.entries

/-- The same tree, up to the orders in which its scopes enumerate their entries. -/
inductive Expr.Reenumerated : Expr → Expr → Prop where
  | null : Reenumerated .null .null
  | literalInt32 (value : BitVec 32) :
      Reenumerated (.literalInt32 value) (.literalInt32 value)
  | literalFloat (value : BitVec 32) :
      Reenumerated (.literalFloat value) (.literalFloat value)
  | binary {lValue otherLValue rValue otherRValue : Expr}
      (operation : OperationKind)
      (left : Reenumerated lValue otherLValue)
      (right : Reenumerated rValue otherRValue) :
      Reenumerated (.binary lValue operation rValue)
        (.binary otherLValue operation otherRValue)
  | variableRef (var : Variable) :
      Reenumerated (.variableRef var) (.variableRef var)
  | assignVariable {valueExpr other : Expr} (var : Variable)
      (value : Reenumerated valueExpr other) :
      Reenumerated (.assignVariable var valueExpr) (.assignVariable var other)
  | «return» {valueExpr other : Expr} (value : Reenumerated valueExpr other) :
      Reenumerated (.return valueExpr) (.return other)
  | block {scope otherScope : Scope} {expressions others : List Expr}
      (entries : scope.SameEntries otherScope)
      (each : List.Forall₂ Reenumerated expressions others) :
      Reenumerated (.block scope expressions) (.block otherScope others)
  | conditional {condition otherCondition : Expr} {truePart otherTrue : Expr}
      {falsePart otherFalse : Expr}
      (test : Reenumerated condition otherCondition)
      (whenTrue : Reenumerated truePart otherTrue)
      (whenFalse : Reenumerated falsePart otherFalse) :
      Reenumerated (.conditional condition truePart falsePart)
        (.conditional otherCondition otherTrue otherFalse)

/-- The same function, up to the orders of its scopes. -/
structure Function.Reenumerated (func other : Function) : Prop where
  name : func.name = other.name
  returnType : func.returnType = other.returnType
  parameterScope : func.parameterScope.SameEntries other.parameterScope
  body : func.body.Reenumerated other.body

/-- The same module, up to the orders of its scopes. -/
structure Module.Reenumerated (owner other : Module) : Prop where
  name : owner.name = other.name
  functions :
    List.Forall₂ (Option.Rel Function.Reenumerated) owner.functions other.functions

theorem Expr.Reenumerated.refl (expr : Expr) : expr.Reenumerated expr := by
  induction expr with
  | null => exact .null
  | literalInt32 value => exact .literalInt32 value
  | literalFloat value => exact .literalFloat value
  | binary lValue operation rValue left right => exact .binary operation left right
  | variableRef var => exact .variableRef var
  | assignVariable var valueExpr value => exact .assignVariable var value
  | «return» valueExpr value => exact .return value
  | block scope expressions each =>
      exact .block (List.Perm.refl _) (List.forall₂_same.mpr each)
  | conditional condition truePart falsePart test whenTrue whenFalse =>
      exact .conditional test whenTrue whenFalse

/-- Maps of one content differ in their orders only. -/
theorem ScopeBuilder.build_sameEntries (builder : ScopeBuilder)
    (order other : EnumerationOrder) :
    (builder.build order).SameEntries (builder.build other) :=
  (order.perm _).trans (other.perm _).symm

theorem FunctionBuilder.build_reenumerated (builder : FunctionBuilder)
    (parameterOrder blockOrder otherParameterOrder otherBlockOrder :
      EnumerationOrder) :
    (builder.build parameterOrder blockOrder).Reenumerated
      (builder.build otherParameterOrder otherBlockOrder) where
  name := rfl
  returnType := rfl
  parameterScope := builder.parameterScopeBuilder_.build_sameEntries _ _
  body :=
    .block (builder.blockBuilder_.scopeBuilder_.build_sameEntries _ _)
      (List.forall₂_same.mpr fun expr _ => Expr.Reenumerated.refl expr)

/-! ## Trees in a canonical order -/

/-- The scope that enumerates its entries by increasing keys. -/
def Scope.sorted (scope : Scope) : Scope where
  entries := scope.entries.insertionSort fun entry later => entry.1 ≤ later.1
  distinctKeys :=
    ((List.perm_insertionSort _ _).map Prod.fst).nodup_iff.mpr scope.distinctKeys

theorem Scope.sorted_perm (scope : Scope) :
    scope.sorted.entries.Perm scope.entries :=
  List.perm_insertionSort _ _

theorem Scope.sorted_increasing (scope : Scope) :
    scope.sorted.entries.Pairwise fun entry later => entry.1 < later.1 := by
  have total : Std.Total fun entry later : String × Variable => entry.1 ≤ later.1 :=
    ⟨fun entry later => le_total entry.1 later.1⟩
  have trans : IsTrans (String × Variable) fun entry later => entry.1 ≤ later.1 :=
    ⟨fun _ _ _ => le_trans⟩
  have increasing : scope.sorted.entries.Pairwise fun entry later =>
      entry.1 ≤ later.1 :=
    List.pairwise_insertionSort _ _
  have distinct := scope.sorted.distinctKeys
  rw [List.Nodup, List.pairwise_map] at distinct
  exact (increasing.and distinct).imp fun both => lt_of_le_of_ne both.1 both.2

/-- Maps of one content are the same when sorted. -/
theorem Scope.SameEntries.sorted_eq {scope other : Scope}
    (same : scope.SameEntries other) : scope.sorted = other.sorted := by
  have perm : scope.sorted.entries.Perm other.sorted.entries :=
    scope.sorted_perm.trans (same.trans other.sorted_perm.symm)
  have entries : scope.sorted.entries = other.sorted.entries := by
    refine perm.eq_of_pairwise ?_ scope.sorted_increasing other.sorted_increasing
    intro entry later _ _ less greater
    exact absurd less greater.asymm
  rw [Scope.mk.injEq]
  exact entries

/-- Every scope is sorted. -/
def Relabeling.sorted : Relabeling where
  onName := id
  onVariable := id
  onScope := Scope.sorted
  injective := Function.injective_id
  named _ := rfl
  typed _ := rfl
  declared scope := by
    rw [List.map_id]
    exact scope.sorted_perm.map Prod.snd

/-- Trees that differ in the orders of their scopes are the same when sorted. -/
theorem Expr.Reenumerated.sorted_eq {expr other : Expr}
    (same : expr.Reenumerated other) :
    expr.relabel .sorted = other.relabel .sorted := by
  induction expr generalizing other with
  | null =>
      cases same
      rfl
  | literalInt32 value =>
      cases same
      rfl
  | literalFloat value =>
      cases same
      rfl
  | binary lValue operation rValue leftIH rightIH =>
      cases same with
      | binary _ left right =>
          rw [Expr.relabel, Expr.relabel, leftIH left, rightIH right]
  | variableRef var =>
      cases same
      rfl
  | assignVariable var valueExpr valueIH =>
      cases same with
      | assignVariable _ value => rw [Expr.relabel, Expr.relabel, valueIH value]
  | «return» valueExpr valueIH =>
      cases same with
      | «return» value => rw [Expr.relabel, Expr.relabel, valueIH value]
  | block scope expressions eachIH =>
      cases same with
      | block entries each =>
          rename_i otherScope others
          have sorted : relabelEach .sorted expressions =
              relabelEach .sorted others := by
            induction each with
            | nil => rfl
            | cons first rest ih =>
                rw [relabelEach, relabelEach,
                  eachIH _ List.mem_cons_self first,
                  ih fun child member => eachIH child (List.mem_cons_of_mem _ member)]
          rw [Expr.relabel, Expr.relabel, sorted]
          exact congrArg (Expr.block · _) entries.sorted_eq
  | conditional condition truePart falsePart conditionIH trueIH falseIH =>
      cases same with
      | conditional test whenTrue whenFalse =>
          rw [Expr.relabel, Expr.relabel, conditionIH test, trueIH whenTrue,
            falseIH whenFalse]

theorem Module.Reenumerated.sorted_eq {owner other : Module}
    (same : owner.Reenumerated other) :
    owner.relabel .sorted = other.relabel .sorted := by
  have functions : ∀ {first second : List (Option Function)},
      List.Forall₂ (Option.Rel Function.Reenumerated) first second →
        first.map (Option.map (Function.relabel .sorted)) =
          second.map (Option.map (Function.relabel .sorted)) := by
    intro first second corresponding
    induction corresponding with
    | nil => rfl
    | cons entry rest ih =>
        rw [List.map_cons, List.map_cons, ih]
        cases entry with
        | none => rfl
        | some func =>
            simp only [Option.map_some, Function.relabel, func.name,
              func.returnType, func.body.sorted_eq]
            rw [show Relabeling.sorted.onScope = Scope.sorted from rfl,
              func.parameterScope.sorted_eq]
  rw [Module.relabel, Module.relabel, same.name, functions same.functions]

theorem Module.Reenumerated.declaresDistinct {owner other : Module}
    (same : owner.Reenumerated other) (distinct : owner.DeclaresDistinct) :
    other.DeclaresDistinct := by
  rw [← @Module.declaresDistinct_relabel .sorted, ← same.sorted_eq,
    Module.declaresDistinct_relabel]
  exact distinct

/-! ## Generated code -/

/--
If its Blocks are built with builders, what a module is rejected with and what its
functions return do not depend on the orders in which its scopes enumerate.
-/
theorem ExprRunner.addAndCall_of_reenumerated (arith : FloatArith)
    {owner other : Module} (same : owner.Reenumerated other)
    (built : owner.BlocksBuilt) (name : String) :
    addAndCall arith owner name = addAndCall arith other name := by
  have distinct := built.declaresDistinct
  have here := (@addAndCall_relabel .sorted arith owner distinct name).eq_of_id
  have there := (@addAndCall_relabel .sorted arith other
    (same.declaresDistinct distinct) name).eq_of_id
  rw [here, there, same.sorted_eq]

/-- The order opposite to that of insertion. -/
def EnumerationOrder.reversed : EnumerationOrder where
  enumerate := List.reverse
  perm := List.reverse_perm

/-- `int f() { int x; int y; x = 6; y = 7; return x * y; }` -/
def productBuilder : FunctionBuilder :=
  let x : Variable := ⟨0, "x", .int32⟩
  let y : Variable := ⟨1, "y", .int32⟩
  let product : Expr := .binary (.variableRef x) .mul (.variableRef y)
  { name_ := "f", returnType_ := .int32,
    blockBuilder_ :=
      (((((({} : BlockBuilder).addVariable x).addVariable y).addExpression
        (.assignVariable x (.literalInt32 6))).addExpression
          (.assignVariable y (.literalInt32 7))).addExpression (.return product)) }

/-- The module of this function, if its Block enumerates in this order. -/
def productModule (order : EnumerationOrder) : Module :=
  (ModuleBuilder.addFunction { name_ := "product" }
    (some (productBuilder.build .insertion order))).build

theorem productModule_built (order : EnumerationOrder) :
    (productModule order).BlocksBuilt := by
  intro path scope expressions member
  have occurs : ∀ site ∈ (productModule order).sites, ∀ scope expressions,
      site.callback = .visitingBlock scope expressions →
        scope = productBuilder.blockBuilder_.scopeBuilder_.build order := by
    simp [productModule, productBuilder, ModuleBuilder.addFunction,
      ModuleBuilder.build, FunctionBuilder.build, BlockBuilder.build,
      BlockBuilder.addExpression, BlockBuilder.addVariable, Module.sites,
      functionSites, Function.sites, Expr.sites, childSites, bracket]
  refine ⟨[⟨0, "x", .int32⟩, ⟨1, "y", .int32⟩], order, ?_⟩
  exact occurs _ member scope expressions rfl

theorem productModule_reenumerated (order other : EnumerationOrder) :
    (productModule order).Reenumerated (productModule other) where
  name := rfl
  functions :=
    .cons (.some (productBuilder.build_reenumerated _ _ _ _)) .nil

theorem ExprRunner.addAndCall_of_reenumerated_product :
    addAndCall .binary32 (productModule .insertion) "f" =
      addAndCall .binary32 (productModule .reversed) "f" :=
  addAndCall_of_reenumerated .binary32 (productModule_reenumerated _ _)
    (productModule_built _) "f"

/-! ## Printed text -/

open PrettyPrinterVisitor in
/-- With distinct names, neither the order nor the algorithm decides what is written. -/
theorem writeScopeVariables_eq_of_perm {order other : SortByName}
    {scope otherScope : Scope}
    (perm : scope.variables.Perm otherScope.variables)
    (distinct : (scope.variables.map Variable.name).Nodup) :
    writeScopeVariables order scope = writeScopeVariables other otherScope := by
  have sorted : order.sort scope.variables = other.sort otherScope.variables :=
    eq_of_strictly_sorted
      ((order.perm _).trans (perm.trans (other.perm _).symm))
      (order.strictly_sorted distinct)
      (other.strictly_sorted ((perm.map Variable.name).nodup_iff.mp distinct))
  rw [writeScopeVariables, writeScopeVariables]
  cases vars : scope.variables with
  | nil =>
      rw [vars] at perm
      rw [← perm.nil_eq]
  | cons front rest =>
      rw [vars] at perm sorted
      cases rest with
      | nil =>
          rw [← List.singleton_perm.mp perm]
      | cons next others =>
          have length := perm.length_eq
          rcases otherVars : otherScope.variables with
            _ | ⟨otherFront, _ | ⟨otherNext, remaining⟩⟩
          · rw [otherVars] at length
            cases length
          · rw [otherVars] at length
            cases length
          · rw [otherVars] at sorted
            simp only [sorted]

/-- The printer reacts to the callbacks of a sorted tree as to those of the tree. -/
theorem prettyPrinter_performAt_sorted {order other : SortByName} {site : Site}
    (distinct : site.callback.DeclaresDistinct) :
    (prettyPrinter other).performAt (site.relabel .sorted) =
      (prettyPrinter order).performAt site := by
  rcases site with ⟨path, callback⟩
  cases callback with
  | visitingBlock scope expressions =>
      have header := @writeScopeVariables_eq_of_perm order other scope scope.sorted
        (scope.sorted_perm.symm.map Prod.snd) distinct
      change PrettyPrinterVisitor.visitingBlock other scope.sorted
          (relabelEach .sorted expressions) =
        PrettyPrinterVisitor.visitingBlock order scope expressions
      rw [PrettyPrinterVisitor.visitingBlock, PrettyPrinterVisitor.visitingBlock]
      exact congrArg _ (funext fun _ => header.symm)
  | _ => rfl

theorem walkTree_sorted (order other : SortByName) {owner : Module}
    (distinct : owner.DeclaresDistinct) :
    walkTree (prettyPrinter other) (owner.relabel .sorted) =
      walkTree (prettyPrinter order) owner := by
  have walked : walkModule (prettyPrinter other) (owner.relabel .sorted) =
      walkModule (prettyPrinter order) owner := by
    rw [walkModule_eq_run, walkModule_eq_run, Module.sites_relabel]
    exact run_map _ fun site member =>
      prettyPrinter_performAt_sorted (distinct site member)
  rw [walkTree, walked, walkTree]
  rfl

/--
If its Blocks are built with builders, what is printed of a module, and which exception
printing it ends in after how much text, depends neither on the orders in which its
scopes enumerate nor on the sorting algorithm.
-/
theorem walkTree_of_reenumerated (order other : SortByName) {owner otherOwner : Module}
    (same : owner.Reenumerated otherOwner) (built : owner.BlocksBuilt)
    (printer : PrettyPrinterVisitor) :
    walkTree (prettyPrinter order) owner printer =
      walkTree (prettyPrinter other) otherOwner printer := by
  have distinct := built.declaresDistinct
  rw [← walkTree_sorted order order distinct, same.sorted_eq,
    walkTree_sorted other order (same.declaresDistinct distinct)]

theorem walkTree_of_reenumerated_product :
    walkTree (prettyPrinter .insertion) (productModule .insertion) {} =
      walkTree (prettyPrinter .insertion) (productModule .reversed) {} :=
  walkTree_of_reenumerated .insertion .insertion (productModule_reenumerated _ _)
    (productModule_built _) {}

end Llast
