import Llast.StructuredFunctions
import Llast.WellFormed

/-!
# Trees made of statements

A statement finds on the value stack what it takes, whatever lies below, and stands
for instructions that can be read off its syntax.  This is shown on the tree alone:
`Laid` follows the callbacks with the origins of the values on the stack.
-/

namespace Llast

open Llast.EventRun
open Llast.CodeGenVisitor

/-! ## The code that the syntax calls for -/

/-- The generator folds the expression to a constant. -/
def Expr.folds : Expr → Bool
  | .literalInt32 _ => true
  | .literalFloat _ => true
  | .binary lValue _ rValue => lValue.folds && rValue.folds
  | _ => false

mutual

/-- The instructions that a statement stands for, without their operands. -/
def Expr.shapes : Expr → List Shape
  | .variableRef var => [.load (llvmType var.dataType)]
  | .binary lValue operation rValue =>
      lValue.shapes ++ rValue.shapes ++
        binaryShapes operation rValue (lValue.folds && rValue.folds)
  | .assignVariable var valueExpr =>
      valueExpr.shapes ++ [.store (llvmType var.dataType)]
  | .return valueExpr => valueExpr.shapes ++ [.ret (operandType valueExpr)]
  | .block scope expressions => scope.shapes ++ eachShapes expressions
  | _ => []

def eachShapes : List Expr → List Shape
  | [] => []
  | expr :: rest => expr.shapes ++ eachShapes rest

end

theorem eachShapes_append (first second : List Expr) :
    eachShapes (first ++ second) = eachShapes first ++ eachShapes second := by
  induction first with
  | nil => rfl
  | cons expr rest ih =>
      rw [List.cons_append, eachShapes, ih, eachShapes, List.append_assoc]

/-! ## Origins -/

/-- What is known of a value before it is computed: who pushes it, and its kind. -/
structure Origin where
  source : Site
  kind : Kind

/-- The origin of what a callback pushes. -/
def Site.origin (site : Site) (stack : List Origin) : Origin where
  source := site
  kind := site.kind (stack.map Origin.kind)

theorem Site.onStack_map {Entry Other : Type} {result : Site → List Entry → Entry}
    {otherResult : Site → List Other → Other} (view : Entry → Other) (site : Site)
    (stack : List Entry)
    (viewed : view (result site stack) = otherResult site (stack.map view)) :
    (site.onStack result stack).map view =
      site.onStack otherResult (stack.map view) := by
  rw [Site.onStack, Site.onStack]
  split
  · exact List.map_tail
  · split
    · rw [List.map_cons, viewed, List.map_drop]
    · exact List.map_drop

theorem Site.kinds_onStack (site : Site) (stack : List Origin) :
    (site.onStack Site.origin stack).map Origin.kind =
      site.onStack Site.kind (stack.map Origin.kind) :=
  Site.onStack_map Origin.kind site stack rfl

theorem Site.sources_onStack (site : Site) (stack : List Origin) :
    (site.onStack Site.origin stack).map Origin.source =
      site.onStack (fun site _ => site) (stack.map Origin.source) :=
  Site.onStack_map Origin.source site stack rfl

/-- The origins of the values on the stack after some callbacks. -/
def originsAfter (past : List Site) : List Origin :=
  past.foldl (Site.onStack Site.origin) []

theorem originsAfter_append_singleton (past : List Site) (site : Site) :
    originsAfter (past ++ [site]) =
      site.onStack Site.origin (originsAfter past) := by
  rw [originsAfter, List.foldl_append]
  rfl

theorem kinds_originsAfter (past : List Site) :
    (originsAfter past).map Origin.kind = kindsAfter past := by
  induction past using List.reverseRecOn with
  | nil => rfl
  | append_singleton past site ih =>
      rw [originsAfter_append_singleton, Site.kinds_onStack, ih, kindsAfter,
        kindsAfter, List.foldl_append]
      rfl

theorem sources_originsAfter (past : List Site) :
    (originsAfter past).map Origin.source = origins past := by
  induction past using List.reverseRecOn with
  | nil => rfl
  | append_singleton past site ih =>
      rw [originsAfter_append_singleton, Site.sources_onStack, ih,
        origins_append_singleton]

theorem length_originsAfter (past : List Site) :
    (originsAfter past).length = valuesAfter past := by
  induction past using List.reverseRecOn with
  | nil => rfl
  | append_singleton past site ih =>
      rw [originsAfter_append_singleton, Site.length_onStack, ih, valuesAfter,
        valuesAfter, List.foldl_append]
      rfl

theorem zip_originsAfter (past : List Site) :
    (origins past).zip (kindsAfter past) =
      (originsAfter past).map fun origin => (origin.source, origin.kind) := by
  rw [← kinds_originsAfter, ← sources_originsAfter, List.zip_map']

/-! ## Callbacks that find what they take -/

/-- The callback has no fault of its own, and the values it takes fit. -/
structure Site.Finds (site : Site) (stack : List Origin) : Prop where
  faultless : (∀ func, site.callback ≠ .visitingFunction func) →
    treeFault [] site = none
  enough : site.callback.operands ≤ stack.length
  kindsFit : site.KindsFit (stack.map Origin.kind)
  sameEntry : ∀ origin ∈ stack.take site.callback.operands,
    origin.kind.constant = false → origin.source.entry = site.entry

theorem Site.usedAt_of_takesNothing {site : Site}
    (takes : site.callback.operands = 0) : site.usedAt = [] := by
  rcases site with ⟨path, callback⟩
  cases callback <;> first | rfl | cases takes

/-- A callback that takes nothing finds what it takes. -/
theorem Site.finds_of_takesNothing {site : Site} (stack : List Origin)
    (takes : site.callback.operands = 0)
    (faultless : (∀ func, site.callback ≠ .visitingFunction func) →
      treeFault [] site = none) : site.Finds stack := by
  refine ⟨faultless, takes ▸ Nat.zero_le _, ?_, by simp [takes]⟩
  exact Site.kindsFit_of_usesNone (Site.usedAt_of_takesNothing takes) _

/-- The callbacks find what they take, and call for these instructions. -/
structure Laid (stack : List Origin) (sites : List Site) (shapes : List Shape)
    (final : List Origin) : Prop where
  plan : Plan (Site.onStack Site.origin) Site.Finds stack sites final
  shapes : blueprint (stack.map Origin.kind) sites = shapes

section Laid

variable {stack middle final : List Origin}

theorem Laid.nil (stack : List Origin) : Laid stack [] [] stack :=
  ⟨.nil stack, rfl⟩

theorem kinds_foldl (sites : List Site) (stack : List Origin) :
    (sites.foldl (Site.onStack Site.origin) stack).map Origin.kind =
      sites.foldl (Site.onStack Site.kind) (stack.map Origin.kind) := by
  induction sites generalizing stack with
  | nil => rfl
  | cons site rest ih =>
      rw [List.foldl_cons, ih, Site.kinds_onStack, List.foldl_cons]

theorem Laid.append {first second : List Site} {shapes more : List Shape}
    (before : Laid stack first shapes middle)
    (after : Laid middle second more final) :
    Laid stack (first ++ second) (shapes ++ more) final := by
  refine ⟨before.plan.append after.plan, ?_⟩
  rw [blueprint_append, before.shapes, ← kinds_foldl, ← before.plan.final_eq,
    after.shapes]

theorem Laid.singleton {site : Site} (finds : site.Finds stack) :
    Laid stack [site] (site.shapes (stack.map Origin.kind))
      (site.onStack Site.origin stack) := by
  refine ⟨.singleton finds, ?_⟩
  rw [blueprint, blueprint, List.append_nil]

/-- The callbacks that open and close a node call for nothing. -/
theorem bracket_laid {path : Path} (node : Node) {opening closing : List Callback}
    {children : List Site} {shapes : List Shape}
    (inside : Laid stack
      (opening.map (Site.mk path) ++ children ++ closing.map (Site.mk path))
      shapes final) :
    Laid stack (bracket path node opening children closing) shapes
      (Site.onStack Site.origin final ⟨path, .visitedNode node⟩) := by
  have enters : Laid stack [⟨path, .visitingNode node⟩] [] stack :=
    .singleton (Site.finds_of_takesNothing stack rfl fun _ => rfl)
  have leaves : Laid final [⟨path, .visitedNode node⟩] []
      (Site.onStack Site.origin final ⟨path, .visitedNode node⟩) :=
    .singleton (Site.finds_of_takesNothing final rfl fun _ => rfl)
  have whole := (enters.append inside).append leaves
  rw [List.nil_append, List.append_nil] at whole
  simpa only [bracket, List.cons_append, List.nil_append, List.append_assoc]
    using whole

/-- A node without children. -/
theorem leaf_laid {path : Path} (node : Node) {callback : Callback}
    (finds : Site.Finds ⟨path, callback⟩ stack) :
    Laid stack (bracket path node [callback] [] [])
      (Site.shapes ⟨path, callback⟩ (stack.map Origin.kind))
      (Site.onStack Site.origin
        (Site.onStack Site.origin stack ⟨path, callback⟩)
        ⟨path, .visitedNode node⟩) :=
  bracket_laid node (Laid.singleton finds)

/-- A node whose callbacks are around those of its children. -/
theorem node_laid {path : Path} (node : Node) {opening closing : Callback}
    {children : List Site} {shapes : List Shape}
    (opens : Site.Finds ⟨path, opening⟩ stack)
    (inner : Laid (Site.onStack Site.origin stack ⟨path, opening⟩) children
      shapes middle)
    (closes : Site.Finds ⟨path, closing⟩ middle) :
    Laid stack (bracket path node [opening] children [closing])
      (Site.shapes ⟨path, opening⟩ (stack.map Origin.kind) ++ shapes ++
        Site.shapes ⟨path, closing⟩ (middle.map Origin.kind))
      (Site.onStack Site.origin
        (Site.onStack Site.origin middle ⟨path, closing⟩)
        ⟨path, .visitedNode node⟩) :=
  bracket_laid node
    (((Laid.singleton opens).append inner).append (.singleton closes))

end Laid

/-! ## Expressions -/

/-- What the builder declares in the Blocks around a place. -/
def Path.scopes (path : Path) : List Scope :=
  (enclosingBlocks path).map Prod.snd

/-- The innermost Block that declares a name, and its declaration. -/
theorem declaration_of_declaredType {blocks : List (Path × Scope)} {name : String}
    {dataType : DataType}
    (declared : declaredType name (blocks.map Prod.snd) = some dataType) :
    ∃ block var, blocks.find? (fun block => block.2.Declares name) = some block ∧
      block.2.variables.find? (fun var => var.name = name) = some var ∧
        var.dataType = dataType := by
  induction blocks with
  | nil => cases declared
  | cons block outer ih =>
      rw [List.map_cons, declaredType] at declared
      cases found : block.2.variables.find? fun var => var.name = name with
      | some var =>
          rw [found] at declared
          have declares : block.2.Declares name :=
            ⟨var, List.mem_of_find?_eq_some found, by
              simpa using List.find?_some found⟩
          refine ⟨block, var, ?_, found, Option.some.inj declared⟩
          rw [List.find?_cons, decide_eq_true declares]
      | none =>
          rw [found] at declared
          have missing : ¬ block.2.Declares name := by
            rintro ⟨var, member, named⟩
            have other := List.find?_eq_none.mp found var member
            exact other (by simpa using named)
          rw [List.find?_cons, decide_eq_false missing]
          exact ih declared

theorem resolvedType_of_declared {path : Path} {name : String}
    {dataType : DataType}
    (declared : declaredType name path.scopes = some dataType) :
    resolvedType path name = llvmType dataType ∧
      lookupFault path name = none := by
  rcases declaration_of_declaredType declared with
    ⟨block, var, found, declaration, rfl⟩
  constructor
  · rw [resolvedType, found]
    simp only [declaration]
  · have declares : block.2.Declares name := by
      simpa using List.find?_some found
    rw [lookupFault, if_pos ⟨block, List.mem_of_find?_eq_some found, declares⟩]

/-- A child is in the same entry of the module as its parent. -/
theorem Site.entry_of_child {source site : Site} {node : Node} {child : Nat}
    (path : source.path = ⟨node, child⟩ :: site.path) (inside : site.path ≠ []) :
    source.entry = site.entry := by
  rw [Site.entry, Site.entry, path, List.getLast?_cons,
    List.getLast?_eq_some_getLast inside]
  rfl

/-- The callbacks of an expression leave one value, pushed at its own node. -/
def LaidValue (expr : Expr) (path : Path) (stack : List Origin) : Prop :=
  ∃ source : Site, source.path = path ∧
    Laid stack (expr.sites path) expr.shapes
      (⟨source, ⟨operandType expr, expr.folds⟩⟩ :: stack)

theorem operandType_of_ok {expr : Expr} {dataType : DataType}
    (typed : expr.dataType = .ok dataType) :
    operandType expr = llvmType dataType := by
  rw [operandType, typed]

/-- A Binary of two operands of one numeric type leaves one value. -/
theorem binary_laid {lValue rValue : Expr} {operation : OperationKind}
    {dataType : DataType} {path : Path} {stack : List Origin}
    (leftType : lValue.dataType = .ok dataType)
    (rightType : rValue.dataType = .ok dataType) (numeric : dataType.Numeric)
    (inside : path ≠ [])
    (left : LaidValue lValue
      (⟨.expr (.binary lValue operation rValue), 0⟩ :: path) stack)
    (right : ∀ above, LaidValue rValue
      (⟨.expr (.binary lValue operation rValue), 1⟩ :: path) above) :
    LaidValue (.binary lValue operation rValue) path stack := by
  let site : Site := ⟨path, .visitedBinary lValue operation rValue⟩
  rcases left with ⟨lSource, lPath, leftLaid⟩
  rcases right (⟨lSource, ⟨operandType lValue, lValue.folds⟩⟩ :: stack) with
    ⟨rSource, rPath, rightLaid⟩
  have sameType : operandType lValue = operandType rValue :=
    (operandType_of_ok leftType).trans (operandType_of_ok rightType).symm
  have opens : Site.Finds ⟨path, .visitingBinary lValue operation rValue⟩ stack :=
    Site.finds_of_takesNothing stack rfl fun _ => rfl
  have closes : site.Finds
      (⟨rSource, ⟨operandType rValue, rValue.folds⟩⟩ ::
        ⟨lSource, ⟨operandType lValue, lValue.folds⟩⟩ :: stack) := by
    refine ⟨fun _ => ?_, ?_, ?_, ?_⟩
    · rcases numeric with rfl | rfl <;> cases operation <;>
        simp [site, treeFault, faultBeforeStack, operandFault, leftType,
          rightType, faultAfterStack, operationFault, opcodeOf]
    · simp [site, Callback.operands]
    · simp [site, Site.KindsFit, Site.usedAt, sameType]
    · intro origin member _
      simp only [site, Callback.operands, List.take_succ_cons, List.take_zero,
        List.mem_cons, List.not_mem_nil, or_false] at member
      rcases member with rfl | rfl
      · exact Site.entry_of_child rPath inside
      · exact Site.entry_of_child lPath inside
  have laid := node_laid (.expr (.binary lValue operation rValue)) opens
    (leftLaid.append rightLaid) closes
  have kind : ∀ kinds, site.kind (⟨operandType rValue, rValue.folds⟩ ::
      ⟨operandType lValue, lValue.folds⟩ :: kinds) =
        ⟨operandType rValue, lValue.folds && rValue.folds⟩ := by
    intro kinds
    rw [sameType]
    exact Kind.operate_of_fit rfl rfl
  have whole : Laid stack ((Expr.binary lValue operation rValue).sites path)
      (Expr.binary lValue operation rValue).shapes
        (⟨site, site.kind (⟨operandType rValue, rValue.folds⟩ ::
          ⟨operandType lValue, lValue.folds⟩ :: stack.map Origin.kind)⟩ :: stack) :=
    laid
  rw [kind] at whole
  exact ⟨site, rfl, whole⟩

theorem Expr.Evaluable.laid {scopes : List Scope} {expr : Expr}
    (evaluable : expr.Evaluable scopes) {path : Path}
    (around : path.scopes = scopes) (inside : path ≠ []) (stack : List Origin) :
    LaidValue expr path stack := by
  induction evaluable generalizing path stack with
  | literalInt32 value =>
      refine ⟨⟨path, .visitLiteralInt32 value⟩, rfl, ?_⟩
      exact leaf_laid _ (Site.finds_of_takesNothing stack rfl fun _ => rfl)
  | literalFloat value =>
      refine ⟨⟨path, .visitLiteralFloat value⟩, rfl, ?_⟩
      exact leaf_laid _ (Site.finds_of_takesNothing stack rfl fun _ => rfl)
  | variableRef declared =>
      rename_i var
      subst around
      rcases resolvedType_of_declared declared with ⟨resolved, found⟩
      refine ⟨⟨path, .visitVariableRef var⟩, rfl, ?_⟩
      have finds : Site.Finds ⟨path, .visitVariableRef var⟩ stack :=
        Site.finds_of_takesNothing stack rfl fun _ => by
          simp [treeFault, faultBeforeStack, found, faultAfterStack]
      have laid : Laid stack ((Expr.variableRef var).sites path)
          [.load (resolvedType path var.name)]
          (⟨⟨path, .visitVariableRef var⟩,
            ⟨resolvedType path var.name, false⟩⟩ :: stack) :=
        leaf_laid (.expr (.variableRef var)) finds
      rw [resolved] at laid
      exact laid
  | binary operation left right leftType rightType numeric leftIH rightIH =>
      refine binary_laid leftType rightType numeric inside ?_ fun above => ?_
      · refine leftIH ?_ (List.cons_ne_nil _ _) stack
        exact around
      · refine rightIH ?_ (List.cons_ne_nil _ _) above
        exact around

/-! ## Statements -/

/-- Callbacks that take the value of the only child of their node find it. -/
theorem Site.finds_value {site : Site} {valueExpr : Expr} {source : Site}
    {node : Node} {stack : List Origin}
    (path : source.path = ⟨node, 0⟩ :: site.path) (inside : site.path ≠ [])
    (takes : site.callback.operands = 1)
    (faultless : treeFault [] site = none)
    (fits : ∀ kinds, site.KindsFit
      (⟨operandType valueExpr, valueExpr.folds⟩ :: kinds)) :
    site.Finds
      (⟨source, ⟨operandType valueExpr, valueExpr.folds⟩⟩ :: stack) := by
  refine ⟨fun _ => faultless, by simp [takes], fits _, ?_⟩
  rw [takes]
  intro origin member _
  rw [List.mem_singleton.mp member]
  exact Site.entry_of_child path inside

theorem assignVariable_laid {path : Path} {var : Variable} {valueExpr : Expr}
    (declared : declaredType var.name path.scopes = some var.dataType)
    (evaluable : valueExpr.Evaluable path.scopes)
    (assigned : valueExpr.dataType = .ok var.dataType) (inside : path ≠ [])
    (stack : List Origin) :
    ∃ final, Laid stack ((Expr.assignVariable var valueExpr).sites path)
      (Expr.assignVariable var valueExpr).shapes final := by
  let node := Node.expr (.assignVariable var valueExpr)
  let site : Site := ⟨path, .visitedAssignVariable var valueExpr⟩
  rcases resolvedType_of_declared declared with ⟨resolved, found⟩
  have below : Path.scopes (⟨node, 0⟩ :: path) = path.scopes := rfl
  have value : LaidValue valueExpr (⟨node, 0⟩ :: path) stack :=
    evaluable.laid below (List.cons_ne_nil _ _) stack
  rcases value with ⟨source, sourcePath, valueLaid⟩
  have opens : Site.Finds ⟨path, .visitingAssignVariable var valueExpr⟩ stack :=
    Site.finds_of_takesNothing stack rfl fun _ => rfl
  have faultless : treeFault [] site = none := by
    simp [site, treeFault, faultBeforeStack, found, faultAfterStack]
  have fits : ∀ kinds, site.KindsFit
      (⟨operandType valueExpr, valueExpr.folds⟩ :: kinds) := by
    intro kinds
    simp [site, Site.KindsFit, Site.usedAt, operandType_of_ok assigned, resolved]
  have closes : site.Finds
      (⟨source, ⟨operandType valueExpr, valueExpr.folds⟩⟩ :: stack) :=
    Site.finds_value sourcePath inside rfl faultless fits
  have laid := node_laid node opens valueLaid closes
  have called : site.shapes [] = [.store (llvmType var.dataType)] := by
    rw [← resolved]
    rfl
  rw [Expr.shapes, ← called]
  exact ⟨_, laid⟩

theorem return_laid {path : Path} {valueExpr : Expr} {returnType : DataType}
    (evaluable : valueExpr.Evaluable path.scopes)
    (returned : valueExpr.dataType = .ok returnType)
    (function : (enclosingFunction path).map Function.returnType =
      some returnType) (inside : path ≠ []) (stack : List Origin) :
    ∃ final, Laid stack ((Expr.return valueExpr).sites path)
      (Expr.return valueExpr).shapes final := by
  let node := Node.expr (.return valueExpr)
  let site : Site := ⟨path, .visitedReturn valueExpr⟩
  have below : Path.scopes (⟨node, 0⟩ :: path) = path.scopes := rfl
  have value : LaidValue valueExpr (⟨node, 0⟩ :: path) stack :=
    evaluable.laid below (List.cons_ne_nil _ _) stack
  rcases value with ⟨source, sourcePath, valueLaid⟩
  have opens : Site.Finds ⟨path, .visitingReturn valueExpr⟩ stack :=
    Site.finds_of_takesNothing stack rfl fun _ => rfl
  have fits : ∀ kinds, site.KindsFit
      (⟨operandType valueExpr, valueExpr.folds⟩ :: kinds) := by
    intro kinds
    rcases Option.map_eq_some_iff.mp function with ⟨func, around, rfl⟩
    simp [site, Site.KindsFit, Site.usedAt, around, operandType_of_ok returned]
  have closes : site.Finds
      (⟨source, ⟨operandType valueExpr, valueExpr.folds⟩⟩ :: stack) :=
    Site.finds_value sourcePath inside rfl rfl fits
  exact ⟨_, node_laid node opens valueLaid closes⟩

/-- The children of a Block, one after another. -/
theorem each_laid {expressions : List Expr} {node : Node} {path : Path}
    (each : ∀ expr ∈ expressions, ∀ child stack,
      ∃ final, Laid stack (expr.sites (⟨node, child⟩ :: path)) expr.shapes final)
    (child : Nat) (stack : List Origin) :
    ∃ final, Laid stack (childSites expressions node path child)
      (eachShapes expressions) final := by
  induction expressions generalizing child stack with
  | nil => exact ⟨stack, .nil stack⟩
  | cons expr rest ih =>
      obtain ⟨middle, first⟩ := each expr List.mem_cons_self child stack
      obtain ⟨final, others⟩ := ih
        (fun other member => each other (List.mem_cons_of_mem _ member))
        (child + 1) middle
      exact ⟨final, first.append others⟩

theorem block_laid {path : Path} {scope : Scope} {expressions : List Expr}
    (numeric : scope.Numeric)
    (each : ∀ expr ∈ expressions, ∀ child stack,
      ∃ final, Laid stack
        (expr.sites (⟨.expr (.block scope expressions), child⟩ :: path))
        expr.shapes final) (stack : List Origin) :
    ∃ final, Laid stack ((Expr.block scope expressions).sites path)
      (Expr.block scope expressions).shapes final := by
  have opens : Site.Finds ⟨path, .visitingBlock scope expressions⟩ stack :=
    Site.finds_of_takesNothing stack rfl fun _ => by
      simp [treeFault, faultBeforeStack, numeric.declarationFault,
        faultAfterStack]
  obtain ⟨middle, inner⟩ := each_laid each 0 stack
  have closes : Site.Finds ⟨path, .visitedBlock scope expressions⟩ middle :=
    Site.finds_of_takesNothing middle rfl fun _ => rfl
  have laid := node_laid (.expr (.block scope expressions)) opens inner closes
  have nothing : Site.shapes ⟨path, .visitedBlock scope expressions⟩
      (middle.map Origin.kind) = [] := rfl
  rw [nothing, List.append_nil] at laid
  exact ⟨_, laid⟩

theorem Expr.Runs.laid {scopes : List Scope} {statement : Expr}
    (runs : statement.Runs scopes) {path : Path} (around : path.scopes = scopes)
    (inside : path ≠ []) (stack : List Origin) :
    ∃ final, Laid stack (statement.sites path) statement.shapes final := by
  induction runs generalizing path stack with
  | value evaluable =>
      rcases evaluable.laid around inside stack with ⟨source, -, laid⟩
      exact ⟨_, laid⟩
  | assignVariable declared evaluable assigned =>
      subst around
      exact assignVariable_laid declared evaluable assigned inside stack
  | block numeric each ih =>
      subst around
      refine block_laid numeric (fun expr member child stack => ?_) stack
      exact ih expr member rfl (List.cons_ne_nil _ _) stack

theorem Expr.Returns.laid {returnType : DataType} {scopes : List Scope}
    {body : Expr} (returns : body.Returns returnType scopes) {path : Path}
    (around : path.scopes = scopes)
    (function : (enclosingFunction path).map Function.returnType =
      some returnType) (inside : path ≠ []) (stack : List Origin) :
    ∃ final, Laid stack (body.sites path) body.shapes final := by
  induction returns generalizing path stack with
  | «return» evaluable returned =>
      subst around
      exact return_laid evaluable returned function inside stack
  | block numeric each tailReturns ih =>
      subst around
      rename_i scope statements tail
      let node := Node.expr (.block scope (statements ++ [tail]))
      refine block_laid numeric (fun expr member child stack => ?_) stack
      have around : Path.scopes (⟨node, child⟩ :: path) =
          scope :: path.scopes := rfl
      rcases List.mem_append.mp member with statement | last
      · exact (each expr statement).laid around (List.cons_ne_nil _ _) stack
      · rw [List.mem_singleton.mp last]
        exact ih around function (List.cons_ne_nil _ _) stack

/-! ## The only return -/

/-- What stands before the end of a block. -/
def Shape.Inner (shape : Shape) : Prop :=
  ¬ shape.IsRet ∧ shape.Sized

theorem DataType.Numeric.sized {dataType : DataType} (numeric : dataType.Numeric) :
    (llvmType dataType).Sized := by
  rcases numeric with rfl | rfl <;> trivial

theorem binaryShapes_inner {operation : OperationKind} {rValueExpr : Expr}
    {folded : Bool} : ∀ shape ∈ binaryShapes operation rValueExpr folded,
      shape.Inner := by
  intro shape member
  unfold binaryShapes at member
  split at member
  · rcases List.mem_map.mp member with ⟨opcode, -, rfl⟩
    exact ⟨id, trivial⟩
  · cases member

theorem Expr.Evaluable.shapes_inner {scopes : List Scope} {expr : Expr}
    (evaluable : expr.Evaluable scopes) :
    ∀ shape ∈ expr.shapes, shape.Inner := by
  induction evaluable with
  | literalInt32 value => exact nofun
  | literalFloat value => exact nofun
  | variableRef declared =>
      rw [Expr.shapes, List.forall_mem_singleton]
      exact ⟨id, trivial⟩
  | binary operation left right leftType rightType numeric leftIH rightIH =>
      rw [Expr.shapes, List.forall_mem_append, List.forall_mem_append]
      exact ⟨⟨leftIH, rightIH⟩, binaryShapes_inner⟩

theorem eachShapes_inner {expressions : List Expr}
    (each : ∀ expr ∈ expressions, ∀ shape ∈ expr.shapes, shape.Inner) :
    ∀ shape ∈ eachShapes expressions, shape.Inner := by
  induction expressions with
  | nil => exact nofun
  | cons expr rest ih =>
      rw [List.forall_mem_cons] at each
      rw [eachShapes, List.forall_mem_append]
      exact ⟨each.1, ih each.2⟩

theorem Scope.Numeric.shapes_inner {scope : Scope} (numeric : scope.Numeric) :
    ∀ shape ∈ scope.shapes, shape.Inner := by
  rw [Scope.shapes, List.forall_mem_map]
  exact fun var member => ⟨id, (numeric.numeric var member).sized⟩

theorem Expr.Runs.shapes_inner {scopes : List Scope} {statement : Expr}
    (runs : statement.Runs scopes) :
    ∀ shape ∈ statement.shapes, shape.Inner := by
  induction runs with
  | value evaluable => exact evaluable.shapes_inner
  | assignVariable declared evaluable assigned =>
      rw [Expr.shapes, List.forall_mem_append, List.forall_mem_singleton]
      exact ⟨evaluable.shapes_inner, id, trivial⟩
  | block numeric each ih =>
      rw [Expr.shapes, List.forall_mem_append]
      exact ⟨numeric.shapes_inner, eachShapes_inner ih⟩

/-- A body ends in a `ret` of its type. -/
theorem Expr.Returns.shapes_eq {returnType : DataType} {scopes : List Scope}
    {body : Expr} (returns : body.Returns returnType scopes) :
    ∃ before, body.shapes = before ++ [.ret (llvmType returnType)] ∧
      ∀ shape ∈ before, shape.Inner := by
  induction returns with
  | «return» evaluable returned =>
      refine ⟨_, ?_, evaluable.shapes_inner⟩
      rw [Expr.shapes, operandType_of_ok returned]
  | block numeric each tailReturns ih =>
      rename_i scope statements tail
      rcases ih with ⟨before, parts, inner⟩
      refine ⟨scope.shapes ++ eachShapes statements ++ before, ?_, ?_⟩
      · rw [Expr.shapes, eachShapes_append, eachShapes, eachShapes,
          List.append_nil, parts]
        simp only [List.append_assoc]
      · rw [List.forall_mem_append, List.forall_mem_append]
        exact ⟨⟨numeric.shapes_inner, eachShapes_inner fun statement member =>
          (each statement member).shapes_inner⟩, inner⟩

theorem Function.Structured.completeBlock {func : Function}
    (structured : func.Structured) : CompleteBlock func.body.shapes := by
  rcases structured.shapes_eq with ⟨before, parts, inner⟩
  have numeric := structured.numeric (by simp)
  constructor
  · exact ⟨before, _, parts, fun shape member => (inner shape member).1⟩
  · rw [parts, List.forall_mem_append, List.forall_mem_singleton]
    exact ⟨fun shape member => (inner shape member).2, numeric.sized⟩

end Llast
