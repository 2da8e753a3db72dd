import Llast.Forecast
import Llast.Subtrees

/-!
# Programs made of statements

A pure expression computes a value from literals, variables and operations.  A
statement is a pure expression, an assignment or a Return of one, or a Block of
statements.  In a program of this kind every callback finds the values it reads:
what earlier statements leave behind stays below, and what a nested Block drops is
never an operand of a computation in progress.

How many values are left behind is another matter.  `heightAfter` computes it, and
the value stack is empty between the functions only if every body leaves nothing.
-/

namespace Llast

open Llast.EventRun
open Llast.CodeGenVisitor

/-! ## The grammar -/

/-- An expression over literals, variables and operations. -/
inductive Expr.Pure : Expr → Prop where
  | literalInt32 (value) : Expr.Pure (.literalInt32 value)
  | literalFloat (value) : Expr.Pure (.literalFloat value)
  | variableRef (var) : Expr.Pure (.variableRef var)
  | binary {lValue rValue : Expr} (operation)
      (left : lValue.Pure) (right : rValue.Pure) :
      Expr.Pure (.binary lValue operation rValue)

/-- A statement; the statements of a Block may be none at all. -/
inductive Expr.Statement : Expr → Prop where
  | value {expr : Expr} (pure : expr.Pure) : Expr.Statement expr
  | assignVariable {valueExpr : Expr} (var) (pure : valueExpr.Pure) :
      Expr.Statement (.assignVariable var valueExpr)
  | «return» {valueExpr : Expr} (pure : valueExpr.Pure) :
      Expr.Statement (.return valueExpr)
  | block {expressions : List Expr} (scope)
      (each : ∀ child ∈ expressions, child.Statement) :
      Expr.Statement (.block scope expressions)

theorem Expr.Pure.dataType {expr : Expr} (pure : expr.Pure) :
    ∃ dataType, expr.dataType = .ok dataType := by
  induction pure with
  | literalInt32 value => exact ⟨_, rfl⟩
  | literalFloat value => exact ⟨_, rfl⟩
  | variableRef var => exact ⟨_, rfl⟩
  | binary operation left right leftIH rightIH =>
      rw [Expr.dataType]
      exact rightIH

theorem Expr.Statement.child {expr : Expr} (statement : expr.Statement) :
    ∀ child ∈ expr.children, child.1.Statement := by
  intro child member
  cases statement with
  | value pure =>
      cases pure with
      | binary operation left right =>
          simp only [Expr.children, List.mem_cons, List.not_mem_nil, or_false]
            at member
          rcases member with rfl | rfl
          · exact .value left
          · exact .value right
      | literalInt32 | literalFloat | variableRef => cases member
  | assignVariable var pure =>
      rw [List.mem_singleton.mp member]
      exact .value pure
  | «return» pure =>
      rw [List.mem_singleton.mp member]
      exact .value pure
  | block scope each =>
      exact each child.1 (List.fst_mem_of_mem_zipIdx member)

/-- A module of functions whose bodies are Blocks of statements. -/
def Module.Structured (owner : Module) : Prop :=
  ∀ entry ∈ owner.functions, ∃ func scope expressions,
    entry = some func ∧ func.body = .block scope expressions ∧
      ∀ child ∈ expressions, child.Statement

theorem Module.Structured.body {owner : Module}
    (structured : owner.Structured) {child : Nat} {entry : Option Function}
    (place : owner.functions[child]? = some entry) :
    ∃ func, entry = some func ∧ func.body.Statement := by
  rcases structured entry (List.mem_of_getElem? place) with
    ⟨func, scope, expressions, same, block, each⟩
  exact ⟨func, same, block ▸ .block scope each⟩

/-- What the callbacks of statements are about. -/
theorem Expr.Statement.callback {expr : Expr} (statement : expr.Statement)
    {path : Path} {site : Site} (member : site ∈ expr.sites path) :
    site.callback ≠ .nullArgument ∧
      ∀ lValue operation rValue,
        site.callback = .visitedBinary lValue operation rValue →
          lValue.Pure ∧ rValue.Pure := by
  rcases Expr.sites_hereditary (fun _ => Expr.Statement.child) expr statement
      member with
    ⟨part, partStatement, own⟩
  constructor
  · intro null
    rw [null, Expr.nullArgument_mem_ownCallbacks] at own
    cases partStatement with
    | value pure => cases pure <;> cases own
    | assignVariable | «return» | block => cases own
  · intro lValue operation rValue same
    rw [same] at own
    cases Expr.eq_of_visitedBinary own
    cases partStatement with
    | value pure =>
        cases pure with
        | binary operation left right => exact ⟨left, right⟩

theorem Module.Structured.statement {owner : Module}
    (structured : owner.Structured) {child : Nat} {func : Function}
    (place : owner.functions[child]? = some (some func)) :
    func.body.Statement := by
  rcases structured.body place with ⟨other, same, statement⟩
  cases same
  exact statement

/-! ## The height of the value stack -/

mutual

/-- The number of values after an expression, given the number before it. -/
def Expr.heightAfter (height : Nat) : Expr → Nat
  | .return _ => height
  | .block _ expressions => heightAfterEach height expressions - 1
  | _ => height + 1

/-- The number of values after the expressions of a Block. -/
def heightAfterEach (height : Nat) : List Expr → Nat
  | [] => height
  | expr :: rest => heightAfterEach (expr.heightAfter height) rest

end

/-- A callback finds the values it reads. -/
def Site.Supplied (site : Site) (height : Nat) : Prop :=
  site.callback.operands ≤ height

/-- Sites that find their operands from one height on and end in another. -/
abbrev Supplied (height : Nat) (sites : List Site) (final : Nat) : Prop :=
  Plan Site.onHeight Site.Supplied height sites final

theorem bracket_supplied {path : Path} {node : Node}
    {opening closing : List Callback} {children : List Site}
    {height opened walked closed : Nat}
    (opens : Supplied height (opening.map (Site.mk path)) opened)
    (inner : Supplied opened children walked)
    (closes : Supplied walked (closing.map (Site.mk path)) closed) :
    Supplied height (bracket path node opening children closing)
      (Site.onHeight closed ⟨path, .visitedNode node⟩) :=
  .cons (Nat.zero_le _) (((opens.append inner).append closes).append
    (.singleton (Nat.zero_le _)))

/-- A pure expression leaves its value on top of what was there. -/
theorem Expr.Pure.supplied {expr : Expr} (pure : expr.Pure) (height : Nat)
    (path : Path) : Supplied height (expr.sites path) (height + 1) := by
  induction pure generalizing height path with
  | literalInt32 value =>
      exact bracket_supplied (.cons (Nat.zero_le _) (.nil _)) (.nil _) (.nil _)
  | literalFloat value =>
      exact bracket_supplied (.cons (Nat.zero_le _) (.nil _)) (.nil _) (.nil _)
  | variableRef var =>
      exact bracket_supplied (.cons (Nat.zero_le _) (.nil _)) (.nil _) (.nil _)
  | binary operation left right leftIH rightIH =>
      rw [Expr.sites]
      refine bracket_supplied (.cons (Nat.zero_le _) (.nil _))
        ((leftIH _ _).append (rightIH _ _)) (.cons ?_ (.nil _))
      exact Nat.le_add_left 2 height

theorem Expr.Pure.heightAfter {expr : Expr} (pure : expr.Pure)
    (height : Nat) : expr.heightAfter height = height + 1 := by
  cases pure <;> rfl

/-- A statement finds its operands and leaves what `heightAfter` says. -/
theorem Expr.Statement.supplied {expr : Expr} (statement : expr.Statement)
    (height : Nat) {path : Path} (inside : path ≠ []) :
    Supplied height (expr.sites path) (expr.heightAfter height) := by
  induction statement generalizing height path with
  | value pure =>
      rw [pure.heightAfter]
      exact pure.supplied height path
  | assignVariable var pure =>
      rw [Expr.sites]
      refine bracket_supplied (.cons (Nat.zero_le _) (.nil _))
        (pure.supplied _ _) (.cons ?_ (.nil _))
      exact Nat.le_add_left 1 height
  | «return» pure =>
      rw [Expr.sites]
      refine bracket_supplied (.cons (Nat.zero_le _) (.nil _))
        (pure.supplied _ _) (.cons ?_ (.nil _))
      exact Nat.le_add_left 1 height
  | @block expressions scope each eachIH =>
      have children : ∀ node height child,
          Supplied height (childSites expressions node path child)
            (heightAfterEach height expressions) := by
        clear each
        induction expressions with
        | nil =>
            intro node height child
            exact .nil height
        | cons head rest ih =>
            intro node height child
            have first := eachIH head List.mem_cons_self height
              (List.cons_ne_nil ⟨node, child⟩ path)
            exact first.append (ih (fun expr member =>
              eachIH expr (List.mem_cons_of_mem _ member)) node _ (child + 1))
      rw [Expr.sites]
      rcases List.exists_cons_of_ne_nil inside with ⟨step, outer, rfl⟩
      exact bracket_supplied (.cons (Nat.zero_le _) (.nil _))
        (children _ height 0) (.cons (Nat.zero_le _) (.nil _))

theorem Function.supplied {func : Function} (statement : func.body.Statement)
    (height : Nat) (path : Path) :
    Supplied height (func.sites path) (func.body.heightAfter height) :=
  bracket_supplied (.cons (Nat.zero_le _) (.nil _))
    (statement.supplied height (List.cons_ne_nil _ _))
    (.cons (Nat.zero_le _) (.nil _))

private theorem functionSites_supplied {owner : Module}
    {functions : List (Option Function)}
    (each : ∀ entry ∈ functions, ∃ func, entry = some func ∧
      func.body.Statement) (height child : Nat) :
    ∃ final, Supplied height (functionSites owner functions child) final := by
  induction functions generalizing height child with
  | nil => exact ⟨height, .nil _⟩
  | cons entry rest ih =>
      rcases each entry List.mem_cons_self with ⟨func, rfl, statement⟩
      obtain ⟨final, later⟩ :=
        ih (fun entry member => each entry (List.mem_cons_of_mem _ member))
          (func.body.heightAfter height) (child + 1)
      exact ⟨final, (Function.supplied statement height _).append later⟩

/-- In a structured module every callback finds its operands. -/
theorem Module.Structured.supplied {owner : Module}
    (structured : owner.Structured) :
    ∃ final, Supplied 0 owner.sites final := by
  have each : ∀ entry ∈ owner.functions, ∃ func, entry = some func ∧
      func.body.Statement := by
    intro entry member
    rcases List.mem_iff_getElem?.mp member with ⟨child, place⟩
    exact structured.body place
  rcases functionSites_supplied each 0 0 with ⟨final, walked⟩
  exact ⟨_, bracket_supplied (.cons (Nat.zero_le _) (.nil _)) walked
    (.cons (Nat.zero_le _) (.nil _))⟩

section Structured

variable {owner : Module} (structured : owner.Structured)
variable {past future : List Site}

include structured

theorem Module.Structured.predictedFault_eq {site : Site}
    (split : owner.sites = past ++ site :: future) :
    predictedFault past site = treeFault past site := by
  rcases structured.supplied with ⟨final, plan⟩
  rw [split] at plan
  exact predictedFault_of_enough plan.expected

/-- In a structured module the tree alone tells how the walk goes. -/
theorem Module.Structured.faultless_iff
    (split : owner.sites = past ++ future) :
    Faultless predictedFault past ↔ Faultless treeFault past := by
  have same : ∀ before site after, past = before ++ site :: after →
      predictedFault before site = treeFault before site := by
    intro before site after earlier
    have occurs : owner.sites = before ++ site :: (after ++ future) := by
      rw [split, earlier, List.append_assoc, List.cons_append]
    exact structured.predictedFault_eq occurs
  constructor
  · intro faultless before site after earlier
    rw [← same before site after earlier]
    exact faultless before site after earlier
  · intro faultless before site after earlier
    rw [same before site after earlier]
    exact faultless before site after earlier

/-- The walk of a structured module gets past all sites without a fault. -/
theorem Module.Structured.completes_iff
    (split : owner.sites = past ++ future) :
    (∃ visitor, run codeGen.performAt past {} = .ok () visitor) ↔
      Faultless treeFault past := by
  rw [(codeGen_predicts owner).prefix_completes_iff split,
    structured.faultless_iff split]

end Structured

/-! ## What is left when a function is entered -/

theorem valuesAfter_append (first second : List Site) :
    valuesAfter (first ++ second) =
      second.foldl Site.onHeight (valuesAfter first) :=
  List.foldl_append

/-- Each function takes the height of the stack from its entry to its end. -/
theorem Module.Structured.valuesAfter_succ {owner : Module}
    (structured : owner.Structured) {child : Nat} {func : Function}
    (place : owner.functions[child]? = some (some func)) :
    valuesAfter (owner.sitesBefore (child + 1)) =
      func.body.heightAfter (valuesAfter (owner.sitesBefore child)) := by
  rw [Module.sitesBefore_succ place, valuesAfter_append]
  exact (Function.supplied (structured.statement place) _ _).final_eq.symm

/-- The callbacks that enter a function or leave the module. -/
def Callback.Entry : Callback → Prop
  | .visitingFunction _ => True
  | .visitedModule _ => True
  | _ => False

/-- A function is entered when the functions before it have been walked. -/
theorem Module.entry_cases {owner : Module}
    {past future : List Site} {site : Site}
    (split : owner.sites = past ++ site :: future)
    (entry : site.callback.Entry) :
    ∃ child ≤ owner.functions.length,
      (∃ later, past = owner.sitesBefore child ++ later) ∧
        valuesAfter past = valuesAfter (owner.sitesBefore child) := by
  have member : site ∈ owner.sites := by simp [split]
  rcases site with ⟨path, callback⟩
  rcases Module.mem_sites member with
    ⟨outermost, own⟩ | ⟨child, place, same⟩ |
      ⟨child, func, place, ⟨here, own⟩ | inBody⟩
  · subst outermost
    have same : callback = .visitedModule owner := by
      simp only [Module.ownCallbacks, List.mem_cons, List.not_mem_nil,
        or_false] at own
      rcases own with rfl | rfl | rfl | rfl <;>
        first | rfl | exact entry.elim
    subst same
    refine ⟨owner.functions.length, Nat.le_refl _, ⟨[], ?_⟩, ?_⟩
    · rw [List.append_nil]
      exact Module.past_unique split owner.sites_eq
    · rw [Module.past_unique split owner.sites_eq]
  · cases same
    exact entry.elim
  · subst here
    have same : callback = .visitingFunction func := by
      simp only [Function.ownCallbacks, List.mem_cons, List.not_mem_nil,
        or_false] at own
      rcases own with rfl | rfl | rfl | rfl <;>
        first | rfl | exact entry.elim
    subst same
    have occurs := Module.sites_around place
    rw [List.append_cons] at occurs
    rcases List.getElem?_eq_some_iff.mp place with ⟨inside, -⟩
    refine ⟨child, inside.le, ⟨_, Module.past_unique split occurs⟩, ?_⟩
    rw [Module.past_unique split occurs, valuesAfter_append]
    rfl
  · have inner := Expr.not_outer_of_mem_sites inBody
    cases callback <;> first | exact entry.elim | exact (inner trivial).elim

/-- After any number of functions, a function is entered or the module left. -/
theorem Module.Structured.entry_reached {owner : Module}
    (structured : owner.Structured) {child : Nat}
    (inside : child ≤ owner.functions.length)
    (faultless : Faultless treeFault (owner.sitesBefore child)) :
    ∃ past site visitor, owner.Reaches past site visitor ∧
      site.callback.Entry ∧
        valuesAfter past = valuesAfter (owner.sitesBefore child) := by
  have reaches : ∀ {past future : List Site} {site : Site},
      owner.sites = past ++ site :: future → Faultless treeFault past →
        ∃ visitor, owner.Reaches past site visitor := by
    intro past future site split faultFree
    rcases (structured.completes_iff split).mpr faultFree with
      ⟨visitor, completes⟩
    exact ⟨visitor, ⟨future, split⟩, completes⟩
  cases place : owner.functions[child]? with
  | none =>
      have last : child = owner.functions.length := by
        have outside := List.getElem?_eq_none_iff.mp place
        omega
      subst last
      rcases reaches owner.sites_eq faultless with ⟨visitor, reached⟩
      exact ⟨_, _, visitor, reached, trivial, rfl⟩
  | some entry =>
      rcases structured.body place with ⟨func, rfl, -⟩
      have split := Module.sites_around place
      rw [List.append_cons] at split
      rcases reaches split (faultless.append_singleton rfl) with
        ⟨visitor, reached⟩
      exact ⟨_, _, visitor, reached, trivial, valuesAfter_append _ _⟩

/-- The body of a function leaves nothing on an empty stack. -/
def Function.LeavesNothing (func : Function) : Prop :=
  func.body.heightAfter 0 = 0

/--
In a program made of statements the value stack is empty whenever a function is
entered and when the module is left, exactly if every body that the walk gets
through leaves nothing on an empty stack.
-/
theorem valueStack_empty_iff (owner : Module) (structured : owner.Structured) :
    (∀ past site visitor, owner.Reaches past site visitor →
        site.callback.Entry → visitor.valueStack_ = []) ↔
      ∀ child func, owner.functions[child]? = some (some func) →
        Faultless treeFault (owner.sitesBefore (child + 1)) →
          func.LeavesNothing := by
  constructor
  · intro empty child func place faultless
    rcases List.getElem?_eq_some_iff.mp place with ⟨inside, -⟩
    have none : ∀ number ≤ owner.functions.length,
        Faultless treeFault (owner.sitesBefore number) →
          valuesAfter (owner.sitesBefore number) = 0 := by
      intro number within faultFree
      rcases structured.entry_reached within faultFree with
        ⟨past, site, visitor, reached, entry, same⟩
      rw [← same, ← Module.Reaches.valueStack_length reached,
        empty past site visitor reached entry]
      rfl
    have after := none (child + 1) inside faultless
    rw [Module.sitesBefore_succ place] at faultless
    have before := none child inside.le faultless.init
    rw [structured.valuesAfter_succ place, before] at after
    exact after
  · intro leavesNothing past site visitor reached entry
    rcases reached.occurs with ⟨future, split⟩
    rcases Module.entry_cases split entry with
      ⟨child, inside, ⟨later, pastEq⟩, same⟩
    have faultless :=
      (structured.completes_iff split).mp ⟨visitor, reached.reaches⟩
    rw [pastEq] at faultless
    have none : ∀ number ≤ child,
        valuesAfter (owner.sitesBefore number) = 0 := by
      intro number
      induction number with
      | zero => exact fun _ => rfl
      | succ number ih =>
          intro within
          have place := List.getElem?_eq_getElem
            (show number < owner.functions.length by omega)
          rcases structured.body place with ⟨func, entryEq, -⟩
          rw [entryEq] at place
          rw [structured.valuesAfter_succ place, ih (by omega)]
          rcases owner.sitesBefore_le within with ⟨rest, parts⟩
          rw [parts, List.append_assoc] at faultless
          exact leavesNothing number func place faultless.init
    rw [← List.length_eq_zero_iff, reached.valueStack_length, same,
      none child (Nat.le_refl _)]

/-- A module of one function, `int f() { 1 + 2; return 7; }`. -/
def oneValue : Module :=
  let bb := (BlockBuilder.addExpression {}
    (.binary (.literalInt32 1) .add (.literalInt32 2))).addExpression
      (.return (.literalInt32 7))
  let fb : FunctionBuilder :=
    { name_ := "f", returnType_ := .int32, blockBuilder_ := bb }
  (ModuleBuilder.addFunction { name_ := "oneValue" }
    (some (fb.build .insertion .insertion))).build

theorem oneValue_structured : oneValue.Structured := by
  intro entry member
  refine ⟨_, _, _, List.mem_singleton.mp member, rfl, ?_⟩
  intro child inside
  simp only [BlockBuilder.addExpression, List.nil_append, List.cons_append,
    List.mem_cons, List.not_mem_nil, or_false] at inside
  rcases inside with rfl | rfl
  · exact .value (.binary .add (.literalInt32 1) (.literalInt32 2))
  · exact .return (.literalInt32 7)

/-- The Block drops the one value that is discarded. -/
theorem valueStack_empty_oneValue :
    oneValue.Structured ∧
      ∀ past site visitor, oneValue.Reaches past site visitor →
        site.callback.Entry → visitor.valueStack_ = [] := by
  refine ⟨oneValue_structured,
    (valueStack_empty_iff oneValue oneValue_structured).mpr ?_⟩
  intro child func place _
  have member := List.mem_of_getElem? place
  cases List.mem_singleton.mp member
  show _ = 0
  decide +kernel

/-- A module of one function, `int f() { 1; 2; return 3; }`. -/
def twoValues : Module :=
  let bb := ((BlockBuilder.addExpression {} (.literalInt32 1)).addExpression
    (.literalInt32 2)).addExpression (.return (.literalInt32 3))
  let fb : FunctionBuilder :=
    { name_ := "f", returnType_ := .int32, blockBuilder_ := bb }
  (ModuleBuilder.addFunction { name_ := "twoValues" }
    (some (fb.build .insertion .insertion))).build

theorem twoValues_structured : twoValues.Structured := by
  intro entry member
  refine ⟨_, _, _, List.mem_singleton.mp member, rfl, ?_⟩
  intro child inside
  simp only [BlockBuilder.addExpression, List.nil_append, List.cons_append,
    List.mem_cons, List.not_mem_nil, or_false] at inside
  rcases inside with rfl | rfl | rfl
  · exact .value (.literalInt32 1)
  · exact .value (.literalInt32 2)
  · exact .return (.literalInt32 3)

/-- Of two discarded values the Block drops only one. -/
theorem twoValues_leaves_a_value :
    twoValues.Structured ∧
      ¬ ∀ past site visitor, twoValues.Reaches past site visitor →
        site.callback.Entry → visitor.valueStack_ = [] := by
  refine ⟨twoValues_structured, fun empty => ?_⟩
  have completes :
      faultOf (run codeGen.performAt (twoValues.sitesBefore 1) {}) = none := by
    decide +kernel
  have faultless :=
    (twoValues_structured.completes_iff (twoValues.sites_eq)).mp
      (ends_iff.mpr completes)
  rcases twoValues_structured.entry_reached (Nat.le_refl 1) faultless with
    ⟨past, site, visitor, reached, entry, same⟩
  have height := Module.Reaches.valueStack_length reached
  rw [empty past site visitor reached entry, same] at height
  revert height
  decide +kernel

end Llast
