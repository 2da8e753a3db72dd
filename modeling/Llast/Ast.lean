import Llast.Exception

/-!
# The expression tree

The node classes of `AST.hpp` and the builders that make them.  A value of
`Expr` is what a `const Expr *` of the sources points to, with one more
constructor for the null pointer, so that a missing child is a tree like any
other.  Children are owned by `unique_ptr`, hence the tree is an inductive
type; variables are shared, hence a `Variable` carries the address of the
object.

`std::unordered_map` enumerates its entries in an order of its own.  A `Scope`
is such a map together with the order in which it enumerates; the order is
chosen when the map is built.
-/

namespace Llast

/-! ## Kinds, operations and data types -/

/-- `enum class NodeKind`. -/
inductive NodeKind where
  | binary
  | invoke
  | variableRef
  | conditional
  | switch
  | block
  | literalInt32
  | literalFloat
  | assignVariable
  | «return»
  | «module»
  | function
deriving DecidableEq, Repr

/-- `enum class OperationKind`. -/
inductive OperationKind where
  | add
  | sub
  | mul
  | div
deriving DecidableEq, Repr

/-- `enum class DataType`. -/
inductive DataType where
  | void
  | bool
  | int32
  | pointer
  | float
  | double
deriving DecidableEq, Repr

/-! ## Variables and scopes -/

/-- A `Variable` object; `address` is its identity. -/
structure Variable where
  address : Nat
  name : String
  dataType : DataType
deriving DecidableEq, Repr

/--
A `Scope`: the entries of its `unordered_map`, in the order in which the map
enumerates them.
-/
structure Scope where
  entries : List (String × Variable)
  distinctKeys : (entries.map Prod.fst).Nodup
deriving DecidableEq

/-- `Scope::variables`. -/
def Scope.variables (scope : Scope) : List Variable :=
  scope.entries.map Prod.snd

/-- The scope declares a variable of this name. -/
def Scope.Declares (scope : Scope) (name : String) : Prop :=
  ∃ var ∈ scope.variables, var.name = name

instance (scope : Scope) (name : String) : Decidable (scope.Declares name) :=
  inferInstanceAs (Decidable (∃ var ∈ scope.variables, var.name = name))

/-- The order in which a hash map enumerates its entries: any permutation. -/
structure EnumerationOrder where
  enumerate : List (String × Variable) → List (String × Variable)
  perm : ∀ entries, (enumerate entries).Perm entries

/-- The order of insertion. -/
def EnumerationOrder.insertion : EnumerationOrder where
  enumerate entries := entries
  perm entries := List.Perm.refl entries

/-- A `ScopeBuilder`: every variable is stored under its own name. -/
structure ScopeBuilder where
  variables_ : List (String × Variable)
  distinctKeys : (variables_.map Prod.fst).Nodup
  ownName : ∀ entry ∈ variables_, entry.1 = entry.2.name

/-- A new `ScopeBuilder`. -/
def ScopeBuilder.new : ScopeBuilder where
  variables_ := []
  distinctKeys := List.nodup_nil
  ownName := List.forall_mem_nil _

/-- `ScopeBuilder::addVariable`: `emplace` keeps the first of two equal names. -/
def ScopeBuilder.addVariable (builder : ScopeBuilder) (varDecl : Variable) :
    ScopeBuilder :=
  if taken : varDecl.name ∈ builder.variables_.map Prod.fst then
    builder
  else
    { variables_ := (varDecl.name, varDecl) :: builder.variables_
      distinctKeys := List.nodup_cons.mpr ⟨taken, builder.distinctKeys⟩
      ownName := by
        intro entry member
        rcases List.mem_cons.mp member with rfl | member
        · rfl
        · exact builder.ownName entry member }

/-- `ScopeBuilder::build`, for the order in which the map will enumerate. -/
def ScopeBuilder.build (builder : ScopeBuilder) (order : EnumerationOrder) :
    Scope where
  entries := order.enumerate builder.variables_
  distinctKeys :=
    ((order.perm builder.variables_).map Prod.fst).nodup_iff.mpr
      builder.distinctKeys

/-- The scopes that `addVariable` calls followed by `build` can make. -/
def Scope.Built (scope : Scope) : Prop :=
  ∃ (additions : List Variable) (order : EnumerationOrder),
    scope = (additions.foldl ScopeBuilder.addVariable .new).build order

/-- In a built scope every variable stands under its own name. -/
theorem Scope.Built.ownName {scope : Scope} (built : scope.Built)
    {entry : String × Variable} (member : entry ∈ scope.entries) :
    entry.1 = entry.2.name := by
  rcases built with ⟨additions, order, rfl⟩
  exact ScopeBuilder.ownName _ entry ((order.perm _).mem_iff.mp member)

/-- In a built scope no two variables have one name. -/
theorem Scope.Built.distinctNames {scope : Scope} (built : scope.Built) :
    (scope.variables.map Variable.name).Nodup := by
  have sameKeys :
      scope.variables.map Variable.name = scope.entries.map Prod.fst := by
    rw [Scope.variables, List.map_map]
    apply List.map_congr_left
    intro entry member
    exact (built.ownName member).symm
  rw [sameKeys]
  exact scope.distinctKeys

theorem ScopeBuilder.addVariable_of_fresh {builder : ScopeBuilder}
    {varDecl : Variable}
    (fresh : varDecl.name ∉ builder.variables_.map Prod.fst) :
    (builder.addVariable varDecl).variables_ =
      (varDecl.name, varDecl) :: builder.variables_ := by
  rw [ScopeBuilder.addVariable, dif_neg fresh]

/-- Variables of distinct names are all kept. -/
theorem ScopeBuilder.foldl_addVariable_perm {additions : List Variable}
    {builder : ScopeBuilder}
    (distinct : (additions.map Variable.name).Nodup)
    (fresh : ∀ var ∈ additions, var.name ∉ builder.variables_.map Prod.fst) :
    ((additions.foldl ScopeBuilder.addVariable builder).variables_.map
      Prod.snd).Perm (additions ++ builder.variables_.map Prod.snd) := by
  induction additions generalizing builder with
  | nil => exact List.Perm.refl _
  | cons var rest ih =>
      rw [List.map_cons, List.nodup_cons] at distinct
      have added :=
        ScopeBuilder.addVariable_of_fresh (fresh var List.mem_cons_self)
      have later :
          ∀ next ∈ rest,
            next.name ∉ (builder.addVariable var).variables_.map Prod.fst := by
        intro next member taken
        rw [added, List.map_cons, List.mem_cons] at taken
        rcases taken with same | before
        · have taken : var.name ∈ rest.map Variable.name :=
            List.mem_map.mpr ⟨next, member, same⟩
          exact distinct.1 taken
        · exact fresh next (List.mem_cons_of_mem _ member) before
      have perm := ih distinct.2 later
      rw [added, List.map_cons] at perm
      exact perm.trans List.perm_middle

/-- The scope of variables of distinct names has exactly these variables. -/
theorem ScopeBuilder.build_variables_perm {additions : List Variable}
    (distinct : (additions.map Variable.name).Nodup)
    (order : EnumerationOrder) :
    ((additions.foldl ScopeBuilder.addVariable .new).build
      order).variables.Perm additions := by
  have kept := @ScopeBuilder.foldl_addVariable_perm additions .new distinct
    fun _ _ => List.not_mem_nil
  have same : additions ++ ScopeBuilder.new.variables_.map Prod.snd = additions :=
    List.append_nil additions
  rw [same] at kept
  exact ((order.perm _).map Prod.snd).trans kept

/-! ## Expressions -/

/--
A `const Expr *`.  Literals hold the 32 bits of their value: two's complement
for `int`, binary32 for `float`.
-/
inductive Expr where
  | null
  | literalInt32 (value : BitVec 32)
  | literalFloat (value : BitVec 32)
  | binary (lValue : Expr) (operation : OperationKind) (rValue : Expr)
  | variableRef (var : Variable)
  | assignVariable (var : Variable) (valueExpr : Expr)
  | «return» (valueExpr : Expr)
  | block (scope : Scope) (expressions : List Expr)
  | conditional (condition truePart falsePart : Expr)

/-- Induction over trees, with the children of a block as one family. -/
@[induction_eliminator]
theorem Expr.induction {P : Expr → Prop}
    (null : P .null)
    (literalInt32 : ∀ value, P (.literalInt32 value))
    (literalFloat : ∀ value, P (.literalFloat value))
    (binary : ∀ lValue operation rValue,
      P lValue → P rValue → P (.binary lValue operation rValue))
    (variableRef : ∀ var, P (.variableRef var))
    (assignVariable : ∀ var valueExpr,
      P valueExpr → P (.assignVariable var valueExpr))
    («return» : ∀ valueExpr, P valueExpr → P (.return valueExpr))
    (block : ∀ scope expressions,
      (∀ child ∈ expressions, P child) → P (.block scope expressions))
    (conditional : ∀ condition truePart falsePart,
      P condition → P truePart → P falsePart →
        P (.conditional condition truePart falsePart)) :
    ∀ expr, P expr := by
  intro expr
  refine Expr.rec (motive_1 := P)
    (motive_2 := fun expressions => ∀ child ∈ expressions, P child)
    null literalInt32 literalFloat binary variableRef assignVariable «return»
    block conditional ?nil ?cons expr
  case nil =>
    intro child member
    exact absurd member List.not_mem_nil
  case cons =>
    intro head tail headHolds tailHolds child member
    rcases List.mem_cons.mp member with rfl | member
    · exact headHolds
    · exact tailHolds child member

/-- The null test of `ARG_NOT_NULL` and of `if (truePart())`. -/
def Expr.isNull : Expr → Bool
  | .null => true
  | _ => false

/-- `nodeKind()`, undefined for the null pointer. -/
def Expr.nodeKind : Expr → Option NodeKind
  | .null => none
  | .literalInt32 _ => some .literalInt32
  | .literalFloat _ => some .literalFloat
  | .binary _ _ _ => some .binary
  | .variableRef _ => some .variableRef
  | .assignVariable _ _ => some .assignVariable
  | .return _ => some .return
  | .block _ _ => some .block
  | .conditional _ _ _ => some .conditional

mutual

/--
`dataType()`.  It follows a right operand, a returned value, a last expression
or an arm without testing it, so it can meet a null pointer or an empty block.
-/
def Expr.dataType : Expr → Except Undefined DataType
  | .null => .error .nullPointer
  | .literalInt32 _ => .ok .int32
  | .literalFloat _ => .ok .float
  | .binary _ _ rValue => rValue.dataType
  | .variableRef var => .ok var.dataType
  | .assignVariable var _ => .ok var.dataType
  | .return valueExpr => valueExpr.dataType
  | .block _ expressions => backDataType expressions
  | .conditional _ truePart falsePart =>
      if truePart.isNull then
        if falsePart.isNull then .ok .void else falsePart.dataType
      else
        truePart.dataType

/-- `expressions_.back()->dataType()`. -/
def backDataType : List Expr → Except Undefined DataType
  | [] => .error .emptyVector
  | [last] => last.dataType
  | _ :: next :: rest => backDataType (next :: rest)

end

/-! ## Functions and modules -/

/-- A `Function` object. -/
structure Function where
  name : String
  returnType : DataType
  parameterScope : Scope
  body : Expr

/-- A `Module` object; its vector holds `unique_ptr`s, which may be null. -/
structure Module where
  name : String
  functions : List (Option Function)

/-- A `const Node *`. -/
inductive Node where
  | expr (expression : Expr)
  | function (func : Function)
  | «module» (owner : Module)

/-- `nodeKind()`, undefined for the null pointer. -/
def Node.nodeKind : Node → Option NodeKind
  | .expr expression => expression.nodeKind
  | .function _ => some .function
  | .module _ => some .module

/-! ## Builders -/

/-- A `BlockBuilder` object. -/
structure BlockBuilder where
  expressions_ : List Expr := []
  scopeBuilder_ : ScopeBuilder := .new

/-- `BlockBuilder::addVariable`. -/
def BlockBuilder.addVariable (builder : BlockBuilder) (var : Variable) :
    BlockBuilder :=
  { builder with scopeBuilder_ := builder.scopeBuilder_.addVariable var }

/-- `BlockBuilder::addExpression`. -/
def BlockBuilder.addExpression (builder : BlockBuilder) (newExpr : Expr) :
    BlockBuilder :=
  { builder with expressions_ := builder.expressions_ ++ [newExpr] }

/-- `BlockBuilder::build`. -/
def BlockBuilder.build (builder : BlockBuilder) (order : EnumerationOrder) :
    Expr :=
  .block (builder.scopeBuilder_.build order) builder.expressions_

/-- A `FunctionBuilder` object. -/
structure FunctionBuilder where
  name_ : String
  returnType_ : DataType
  blockBuilder_ : BlockBuilder := {}
  parameterScopeBuilder_ : ScopeBuilder := .new

/-- `FunctionBuilder::addParameter`. -/
def FunctionBuilder.addParameter (builder : FunctionBuilder) (var : Variable) :
    FunctionBuilder :=
  { builder with
    parameterScopeBuilder_ := builder.parameterScopeBuilder_.addVariable var }

/-- `FunctionBuilder::build`, with the orders of its two scopes. -/
def FunctionBuilder.build (builder : FunctionBuilder)
    (parameterOrder blockOrder : EnumerationOrder) : Function where
  name := builder.name_
  returnType := builder.returnType_
  parameterScope := builder.parameterScopeBuilder_.build parameterOrder
  body := builder.blockBuilder_.build blockOrder

/-- A `ModuleBuilder` object. -/
structure ModuleBuilder where
  name_ : String
  functions_ : List (Option Function) := []

/-- `ModuleBuilder::addFunction`. -/
def ModuleBuilder.addFunction (builder : ModuleBuilder)
    (function : Option Function) : ModuleBuilder :=
  { builder with functions_ := builder.functions_ ++ [function] }

/-- `ModuleBuilder::build`. -/
def ModuleBuilder.build (builder : ModuleBuilder) : Module where
  name := builder.name_
  functions := builder.functions_

end Llast
