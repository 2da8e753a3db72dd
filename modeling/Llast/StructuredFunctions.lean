import Llast.Interpreter

/-!
# Functions made of statements

Statements that never return, in Blocks, and one Return at the end: the names are
declared and the types agree.  The interpreter runs such a function to its Return:
every variable holds `undef` or a datum of its type, and only a division can be
without a result.
-/

namespace Llast

/-! ## The programs -/

/-- `Int32` or `Float`. -/
def DataType.Numeric (dataType : DataType) : Prop :=
  dataType = .int32 ∨ dataType = .float

/-- A scope made by the builder for numeric variables. -/
structure Scope.Numeric (scope : Scope) : Prop where
  built : scope.Built
  numeric : ∀ var ∈ scope.variables, var.dataType.Numeric

/-- The data type of the innermost declaration of a name. -/
def declaredType (name : String) : List Scope → Option DataType
  | [] => none
  | scope :: outer =>
      match scope.variables.find? fun var => var.name = name with
      | some var => some var.dataType
      | none => declaredType name outer

/-- Expressions whose names are declared and whose operands have one type. -/
inductive Expr.Evaluable (scopes : List Scope) : Expr → Prop where
  | literalInt32 (value) : Evaluable scopes (.literalInt32 value)
  | literalFloat (value) : Evaluable scopes (.literalFloat value)
  | variableRef {var : Variable}
      (declared : declaredType var.name scopes = some var.dataType) :
      Evaluable scopes (.variableRef var)
  | binary {lValue rValue : Expr} {dataType : DataType} (operation)
      (left : lValue.Evaluable scopes) (right : rValue.Evaluable scopes)
      (leftType : lValue.dataType = .ok dataType)
      (rightType : rValue.dataType = .ok dataType)
      (numeric : dataType.Numeric) :
      Evaluable scopes (.binary lValue operation rValue)

/-- Statements: expressions, assignments, and Blocks of statements. -/
inductive Expr.Runs : List Scope → Expr → Prop where
  | value {scopes : List Scope} {expr : Expr}
      (evaluable : expr.Evaluable scopes) : Runs scopes expr
  | assignVariable {scopes : List Scope} {var : Variable} {valueExpr : Expr}
      (declared : declaredType var.name scopes = some var.dataType)
      (evaluable : valueExpr.Evaluable scopes)
      (assigned : valueExpr.dataType = .ok var.dataType) :
      Runs scopes (.assignVariable var valueExpr)
  | block {scopes : List Scope} {scope : Scope} {statements : List Expr}
      (numeric : scope.Numeric)
      (each : ∀ statement ∈ statements, statement.Runs (scope :: scopes)) :
      Runs scopes (.block scope statements)

/-- Bodies: Blocks of statements that end in a Return or in such a Block. -/
inductive Expr.Returns (returnType : DataType) : List Scope → Expr → Prop where
  | «return» {scopes : List Scope} {valueExpr : Expr}
      (evaluable : valueExpr.Evaluable scopes)
      (returned : valueExpr.dataType = .ok returnType) :
      Returns returnType scopes (.return valueExpr)
  | block {scopes : List Scope} {scope : Scope} {statements : List Expr}
      {tail : Expr} (numeric : scope.Numeric)
      (each : ∀ statement ∈ statements, statement.Runs (scope :: scopes))
      (returns : tail.Returns returnType (scope :: scopes)) :
      Returns returnType scopes (.block scope (statements ++ [tail]))

/--
The function is made of statements: its body is a Block that ends in a Return of the
function's type, or in such a Block.
-/
def Function.Structured (func : Function) : Prop :=
  func.body.Returns func.returnType []

theorem declaredType_numeric {name : String} {scopes : List Scope}
    {dataType : DataType} (numeric : ∀ scope ∈ scopes, scope.Numeric)
    (declared : declaredType name scopes = some dataType) :
    dataType.Numeric := by
  induction scopes with
  | nil => cases declared
  | cons scope outer ih =>
      rw [declaredType] at declared
      cases found : scope.variables.find? fun var => var.name = name with
      | some var =>
          rw [found] at declared
          cases declared
          exact (numeric scope List.mem_cons_self).numeric var
            (List.mem_of_find?_eq_some found)
      | none =>
          rw [found] at declared
          exact ih (fun other member =>
            numeric other (List.mem_cons_of_mem _ member)) declared

theorem Expr.Evaluable.numeric {scopes : List Scope} {expr : Expr}
    (evaluable : expr.Evaluable scopes) {dataType : DataType}
    (numeric : ∀ scope ∈ scopes, scope.Numeric)
    (typed : expr.dataType = .ok dataType) : dataType.Numeric := by
  cases evaluable with
  | literalInt32 value =>
      cases typed
      exact .inl rfl
  | literalFloat value =>
      cases typed
      exact .inr rfl
  | variableRef declared =>
      cases typed
      exact declaredType_numeric numeric declared
  | binary operation left right leftType rightType operands =>
      rw [Expr.dataType, rightType] at typed
      cases typed
      exact operands

/-- What a body returns is numeric. -/
theorem Expr.Returns.numeric {returnType : DataType} {scopes : List Scope}
    {body : Expr} (returns : body.Returns returnType scopes)
    (numeric : ∀ scope ∈ scopes, scope.Numeric) : returnType.Numeric := by
  induction returns with
  | «return» evaluable returned => exact evaluable.numeric numeric returned
  | block declared each tailReturns ih =>
      exact ih (List.forall_mem_cons.mpr ⟨declared, numeric⟩)

/-! ## What statements do -/

variable (arith : FloatArith)

/-- An expression as a statement is evaluated and changes nothing. -/
theorem Expr.Evaluable.interpret {scopes : List Scope} {expr : Expr}
    (evaluable : expr.Evaluable scopes) (env : Environment) :
    expr.interpret arith env =
      (expr.evaluate arith env).bind fun _ => some (.continues env) := by
  cases evaluable <;> rfl

theorem interpretEach_continues {statements : List Expr}
    (each : ∀ statement ∈ statements, ∀ env outcome,
      statement.interpret arith env = some outcome →
        ∃ next, outcome = .continues next)
    {env : Environment} {outcome : Outcome}
    (means : interpretEach arith env statements = some outcome) :
    ∃ next, outcome = .continues next := by
  induction statements generalizing env with
  | nil =>
      cases means
      exact ⟨env, rfl⟩
  | cons statement rest ih =>
      simp only [interpretEach, Option.bind_eq_bind, Option.bind_eq_some_iff]
        at means
      rcases means with ⟨first, inner, remaining⟩
      rcases each statement List.mem_cons_self env first inner with ⟨next, rfl⟩
      exact ih
        (fun later member => each later (List.mem_cons_of_mem _ member))
        remaining

/-- A statement never returns. -/
theorem Expr.Runs.continues {scopes : List Scope} {statement : Expr}
    (runs : statement.Runs scopes) {env : Environment} {outcome : Outcome}
    (means : statement.interpret arith env = some outcome) :
    ∃ next, outcome = .continues next := by
  induction runs generalizing env outcome with
  | value evaluable =>
      rw [evaluable.interpret, Option.bind_eq_some_iff] at means
      rcases means with ⟨datum, -, same⟩
      cases same
      exact ⟨env, rfl⟩
  | assignVariable declared evaluable assigned =>
      simp only [Expr.interpret, Option.bind_eq_bind, Option.bind_eq_some_iff]
        at means
      rcases means with ⟨datum, -, next, -, same⟩
      cases same
      exact ⟨next, rfl⟩
  | block numeric each ih =>
      simp only [Expr.interpret, Option.bind_eq_bind, Option.bind_eq_some_iff]
        at means
      rcases means with ⟨inner, walked, ends⟩
      obtain ⟨next, rfl⟩ := interpretEach_continues arith
        (fun statement member env outcome => ih statement member) walked
      cases ends
      exact ⟨next.tail, rfl⟩

/-- If statements that do not return are followed by a last one that does. -/
theorem interpretEach_append {statements : List Expr} {tail : Expr}
    (each : ∀ statement ∈ statements, ∀ env outcome,
      statement.interpret arith env = some outcome →
        ∃ next, outcome = .continues next)
    {env : Environment} {datum : Datum}
    (means : interpretEach arith env (statements ++ [tail]) =
      some (.returned datum)) :
    ∃ next, interpretEach arith env statements = some (.continues next) ∧
      tail.interpret arith next = some (.returned datum) := by
  induction statements generalizing env with
  | nil =>
      simp only [List.nil_append, interpretEach, Option.bind_eq_bind,
        Option.bind_eq_some_iff] at means
      rcases means with ⟨outcome, inner, ends⟩
      refine ⟨env, rfl, ?_⟩
      cases outcome <;> cases ends
      exact inner
  | cons statement rest ih =>
      simp only [List.cons_append, interpretEach, Option.bind_eq_bind,
        Option.bind_eq_some_iff] at means
      rcases means with ⟨first, inner, remaining⟩
      rcases each statement List.mem_cons_self env first inner with ⟨next, rfl⟩
      obtain ⟨last, walked, returns⟩ := ih
        (fun later member => each later (List.mem_cons_of_mem _ member))
        remaining
      refine ⟨last, ?_, returns⟩
      simp only [interpretEach, inner, Option.bind_eq_bind, Option.bind_some]
      exact walked

theorem Function.interpret_eq_some {func : Function} {datum : Datum}
    (returns : func.interpret arith = some datum) :
    func.body.interpret arith [] = some (.returned datum) := by
  simp only [Function.interpret, Option.bind_eq_bind, Option.bind_eq_some_iff]
    at returns
  rcases returns with ⟨outcome, inner, ends⟩
  cases outcome <;> cases ends
  exact inner

/-! ## Environments of the declared types -/

/-- The datum is of the type; `undef` is of any. -/
def Datum.Fits (dataType : DataType) : Datum → Prop
  | .int _ => dataType = .int32
  | .float _ => dataType = .float
  | .undef => True

/-- The variables of the scope, and only these, hold what fits their types. -/
def FrameTyped (scope : Scope) (frame : Environment.Frame) : Prop :=
  ∀ name,
    match scope.variables.find? fun var => var.name = name with
    | some var => ∃ datum, frame name = some datum ∧ datum.Fits var.dataType
    | none => frame name = none

/-- The frames are typed by the scopes. -/
def Environment.Typed (scopes : List Scope) (env : Environment) : Prop :=
  List.Forall₂ FrameTyped scopes env

theorem Environment.Typed.read {scopes : List Scope} {env : Environment}
    (typed : env.Typed scopes) {name : String} {dataType : DataType}
    (declared : declaredType name scopes = some dataType) :
    ∃ datum, env.read name = some datum ∧ datum.Fits dataType := by
  induction typed with
  | nil => cases declared
  | cons first others ih =>
      rename_i scope frame scopes env
      have here := first name
      rw [declaredType] at declared
      rw [Environment.read]
      cases found : scope.variables.find? fun var => var.name = name with
      | some var =>
          rw [found] at declared here
          cases declared
          rcases here with ⟨datum, holds, fits⟩
          rw [holds]
          exact ⟨datum, rfl, fits⟩
      | none =>
          rw [found] at declared here
          have missing : frame name = none := here
          rw [missing]
          exact ih declared

/-- Assigning what fits the innermost variable keeps the environment typed. -/
theorem Environment.Typed.assign {scopes : List Scope} {env : Environment}
    (typed : env.Typed scopes) {name : String} {dataType : DataType}
    (declared : declaredType name scopes = some dataType) {datum : Datum}
    (fits : datum.Fits dataType) :
    ∃ next, env.assign name datum = some next ∧ next.Typed scopes := by
  induction typed with
  | nil => cases declared
  | cons first others ih =>
      rename_i scope frame scopes env
      have here := first name
      rw [declaredType] at declared
      rw [Environment.assign]
      cases found : scope.variables.find? fun var => var.name = name with
      | some var =>
          rw [found] at declared here
          cases declared
          rcases here with ⟨old, holds, -⟩
          rw [holds]
          refine ⟨_, rfl, .cons (fun other => ?_) others⟩
          by_cases same : other = name
          · subst same
            rw [found]
            exact ⟨datum, Function.update_self .., fits⟩
          · rw [Function.update_of_ne same]
            exact first other
      | none =>
          rw [found] at declared here
          have missing : frame name = none := here
          rcases ih declared with ⟨next, assigns, later⟩
          rw [missing, assigns]
          exact ⟨_, rfl, .cons first later⟩

/-- Uninitialized variables are of any type. -/
theorem Environment.Typed.declare {scopes : List Scope} {env : Environment}
    (typed : env.Typed scopes) (scope : Scope) :
    Environment.Typed (scope :: scopes) (Environment.declare scope :: env) := by
  refine .cons (fun name => ?_) typed
  cases found : scope.variables.find? fun var => var.name = name with
  | some var =>
      have declares : scope.Declares name :=
        ⟨var, List.mem_of_find?_eq_some found, by
          simpa using List.find?_some found⟩
      exact ⟨.undef, if_pos declares, trivial⟩
  | none =>
      apply if_neg
      rintro ⟨var, member, same⟩
      exact List.find?_eq_none.mp found var member (by simpa using same)

/-! ## Divisions that are defined -/

/-- An integer divisor is a literal other than 0 and -1. -/
def Expr.Divisor (expr : Expr) : Prop :=
  expr.dataType = .ok .int32 →
    ∃ value, expr = .literalInt32 value ∧ value ≠ 0 ∧ value ≠ -1

mutual

/-- Every division has such a divisor. -/
def Expr.DividesSafely : Expr → Prop
  | .binary lValue operation rValue =>
      lValue.DividesSafely ∧ rValue.DividesSafely ∧
        (operation = .div → rValue.Divisor)
  | .assignVariable _ valueExpr => valueExpr.DividesSafely
  | .return valueExpr => valueExpr.DividesSafely
  | .block _ expressions => eachDividesSafely expressions
  | _ => True

/-- Every division in the expressions has such a divisor. -/
def eachDividesSafely : List Expr → Prop
  | [] => True
  | expr :: rest => expr.DividesSafely ∧ eachDividesSafely rest

end

theorem eachDividesSafely_iff (expressions : List Expr) :
    eachDividesSafely expressions ↔
      ∀ expr ∈ expressions, expr.DividesSafely := by
  induction expressions with
  | nil => simp [eachDividesSafely]
  | cons expr rest ih => simp [eachDividesSafely, ih]

theorem Datum.Fits.int {datum : Datum} (fits : datum.Fits .int32) :
    datum = .undef ∨ ∃ value, datum = .int value := by
  cases datum with
  | int value => exact .inr ⟨value, rfl⟩
  | float value => cases fits
  | undef => exact .inl rfl

theorem Datum.Fits.float {datum : Datum} (fits : datum.Fits .float) :
    datum = .undef ∨ ∃ value, datum = .float value := by
  cases datum with
  | int value => cases fits
  | float value => exact .inr ⟨value, rfl⟩
  | undef => exact .inl rfl

theorem Datum.onInts_fits (operation : BitVec 32 → BitVec 32 → BitVec 32)
    {lhs rhs : Datum} (left : lhs.Fits .int32) (right : rhs.Fits .int32) :
    ∃ datum, onInts operation lhs rhs = some datum ∧ datum.Fits .int32 := by
  rcases left.int with rfl | ⟨first, rfl⟩ <;>
    rcases right.int with rfl | ⟨second, rfl⟩
  · exact ⟨.undef, rfl, trivial⟩
  · exact ⟨.undef, rfl, trivial⟩
  · exact ⟨.undef, rfl, trivial⟩
  · exact ⟨.int (operation first second), rfl, rfl⟩

theorem Datum.onFloats_fits (operation : BitVec 32 → BitVec 32 → BitVec 32)
    {lhs rhs : Datum} (left : lhs.Fits .float) (right : rhs.Fits .float) :
    ∃ datum, onFloats operation lhs rhs = some datum ∧ datum.Fits .float := by
  rcases left.float with rfl | ⟨first, rfl⟩ <;>
    rcases right.float with rfl | ⟨second, rfl⟩
  · exact ⟨.undef, rfl, trivial⟩
  · exact ⟨.undef, rfl, trivial⟩
  · exact ⟨.undef, rfl, trivial⟩
  · exact ⟨.float (operation first second), rfl, rfl⟩

theorem Datum.divideInts_fits {lhs : Datum} {divisor : BitVec 32}
    (left : lhs.Fits .int32) (notZero : divisor ≠ 0)
    (notMinusOne : divisor ≠ -1) :
    ∃ datum, divideInts lhs (.int divisor) = some datum ∧
      datum.Fits .int32 := by
  rcases left.int with rfl | ⟨dividend, rfl⟩
  · refine ⟨.undef, if_neg ?_, trivial⟩
    rintro (zero | minusOne)
    · exact notZero zero
    · exact notMinusOne minusOne
  · refine ⟨.int (dividend.sdiv divisor), if_neg ?_, rfl⟩
    rintro (zero | ⟨-, minusOne⟩)
    · exact notZero zero
    · exact notMinusOne minusOne

/-- On data that fit a numeric type an operation has a result that fits it. -/
theorem OperationKind.compute_fits {dataType : DataType}
    (numeric : dataType.Numeric) (operation : OperationKind) {lhs rhs : Datum}
    (left : lhs.Fits dataType) (right : rhs.Fits dataType)
    (divisor : operation = .div → dataType = .int32 →
      ∃ value, rhs = .int value ∧ value ≠ 0 ∧ value ≠ -1) :
    ∃ datum, operation.compute arith dataType lhs rhs = some datum ∧
      datum.Fits dataType := by
  rcases numeric with rfl | rfl
  · cases operation with
    | add => exact Datum.onInts_fits _ left right
    | sub => exact Datum.onInts_fits _ left right
    | mul => exact Datum.onInts_fits _ left right
    | div =>
        rcases divisor rfl rfl with ⟨value, rfl, notZero, notMinusOne⟩
        exact Datum.divideInts_fits left notZero notMinusOne
  · cases operation with
    | add => exact Datum.onFloats_fits _ left right
    | sub => exact Datum.onFloats_fits _ left right
    | mul => exact Datum.onFloats_fits _ left right
    | div => exact Datum.onFloats_fits _ left right

/-! ## Nothing else goes wrong -/

/-- An expression has a value of its type. -/
theorem Expr.Evaluable.hasValue {scopes : List Scope} {expr : Expr}
    (evaluable : expr.Evaluable scopes) (safe : expr.DividesSafely)
    {env : Environment} (typed : env.Typed scopes) {dataType : DataType}
    (type : expr.dataType = .ok dataType) :
    ∃ datum, expr.evaluate arith env = some datum ∧ datum.Fits dataType := by
  induction evaluable generalizing dataType with
  | literalInt32 value =>
      cases type
      exact ⟨_, rfl, rfl⟩
  | literalFloat value =>
      cases type
      exact ⟨_, rfl, rfl⟩
  | variableRef declared =>
      cases type
      exact typed.read declared
  | binary operation left right leftType rightType numeric leftIH rightIH =>
      rename_i lValue rValue operands
      rw [Expr.DividesSafely] at safe
      rcases safe with ⟨leftSafe, rightSafe, divisor⟩
      rw [Expr.dataType, rightType] at type
      cases type
      rcases leftIH leftSafe leftType with ⟨lhs, leftValue, leftFits⟩
      rcases rightIH rightSafe rightType with ⟨rhs, rightValue, rightFits⟩
      have defined : operation = .div → operands = .int32 →
          ∃ value, rhs = .int value ∧ value ≠ 0 ∧ value ≠ -1 := by
        rintro divides rfl
        rcases divisor divides rightType with ⟨value, rfl, notZero, notMinusOne⟩
        cases rightValue
        exact ⟨value, rfl, notZero, notMinusOne⟩
      rcases operation.compute_fits arith numeric leftFits rightFits defined with
        ⟨datum, result, fits⟩
      refine ⟨datum, ?_, fits⟩
      simp [Expr.evaluate, leftValue, rightValue, rightType, Except.toOption,
        result]

theorem Expr.Evaluable.hasType {scopes : List Scope} {expr : Expr}
    (evaluable : expr.Evaluable scopes) :
    ∃ dataType, expr.dataType = .ok dataType := by
  induction evaluable with
  | literalInt32 value => exact ⟨_, rfl⟩
  | literalFloat value => exact ⟨_, rfl⟩
  | variableRef declared => exact ⟨_, rfl⟩
  | binary operation left right leftType rightType numeric leftIH rightIH =>
      rw [Expr.dataType]
      exact ⟨_, rightType⟩

/-- Statements of which each goes on go on together. -/
theorem interpretEach_goesOn {scopes : List Scope} {statements : List Expr}
    (each : ∀ statement ∈ statements, ∀ env, Environment.Typed scopes env →
      ∃ next, statement.interpret arith env = some (.continues next) ∧
        next.Typed scopes)
    {env : Environment} (typed : env.Typed scopes) :
    ∃ next, interpretEach arith env statements = some (.continues next) ∧
      next.Typed scopes := by
  induction statements generalizing env with
  | nil => exact ⟨env, rfl, typed⟩
  | cons statement rest ih =>
      rcases each statement List.mem_cons_self env typed with
        ⟨middle, first, middleTyped⟩
      rcases ih (fun later member => each later (List.mem_cons_of_mem _ member))
        middleTyped with ⟨next, remaining, nextTyped⟩
      refine ⟨next, ?_, nextTyped⟩
      simp [interpretEach, first, remaining]

/-- What follows statements that went on is interpreted where these ended. -/
theorem interpretEach_after {statements : List Expr} {env next : Environment}
    (walked : interpretEach arith env statements = some (.continues next))
    (rest : List Expr) :
    interpretEach arith env (statements ++ rest) =
      interpretEach arith next rest := by
  induction statements generalizing env with
  | nil =>
      cases walked
      rfl
  | cons statement others ih =>
      simp only [interpretEach, Option.bind_eq_bind, Option.bind_eq_some_iff]
        at walked
      rcases walked with ⟨outcome, first, remaining⟩
      cases outcome with
      | returned datum => cases remaining
      | continues middle =>
          simp only [List.cons_append, interpretEach, first, Option.bind_eq_bind,
            Option.bind_some]
          exact ih remaining

/-- A statement goes on, and the environment stays typed. -/
theorem Expr.Runs.goesOn {scopes : List Scope} {statement : Expr}
    (runs : statement.Runs scopes) (safe : statement.DividesSafely)
    {env : Environment} (typed : env.Typed scopes) :
    ∃ next, statement.interpret arith env = some (.continues next) ∧
      next.Typed scopes := by
  induction runs generalizing env with
  | value evaluable =>
      rcases evaluable.hasType with ⟨dataType, type⟩
      rcases evaluable.hasValue arith safe typed type with ⟨datum, value, -⟩
      refine ⟨env, ?_, typed⟩
      rw [evaluable.interpret, value]
      rfl
  | assignVariable declared evaluable assigned =>
      rw [Expr.DividesSafely] at safe
      rcases evaluable.hasValue arith safe typed assigned with
        ⟨datum, value, fits⟩
      rcases typed.assign declared fits with ⟨next, assigns, nextTyped⟩
      refine ⟨next, ?_, nextTyped⟩
      simp [Expr.interpret, value, assigns]
  | block numeric each ih =>
      rename_i scopes scope statements
      rw [Expr.DividesSafely, eachDividesSafely_iff] at safe
      rcases interpretEach_goesOn arith
        (fun statement member env inner => ih statement member
          (safe statement member) inner) (typed.declare scope) with
        ⟨inner, walked, innerTyped⟩
      cases innerTyped with
      | cons frame outer =>
          refine ⟨_, ?_, outer⟩
          simp [Expr.interpret, walked]

/-- A body ends at its Return, with a datum of the returned type. -/
theorem Expr.Returns.reachesReturn {returnType : DataType} {scopes : List Scope}
    {body : Expr} (returns : body.Returns returnType scopes)
    (safe : body.DividesSafely) {env : Environment} (typed : env.Typed scopes) :
    ∃ datum, body.interpret arith env = some (.returned datum) ∧
      datum.Fits returnType := by
  induction returns generalizing env with
  | «return» evaluable returned =>
      rw [Expr.DividesSafely] at safe
      rcases evaluable.hasValue arith safe typed returned with
        ⟨datum, value, fits⟩
      refine ⟨datum, ?_, fits⟩
      simp [Expr.interpret, value]
  | block numeric each tailReturns ih =>
      rename_i scopes scope statements tail
      rw [Expr.DividesSafely, eachDividesSafely_iff] at safe
      rcases interpretEach_goesOn arith
        (fun statement member env inner => (each statement member).goesOn arith
          (safe statement (List.mem_append_left _ member)) inner)
        (typed.declare scope) with ⟨next, walked, nextTyped⟩
      rcases ih (safe tail (by simp)) nextTyped with ⟨datum, ends, fits⟩
      refine ⟨datum, ?_, fits⟩
      have inside : interpretEach arith (Environment.declare scope :: env)
          (statements ++ [tail]) = some (.returned datum) := by
        rw [interpretEach_after arith walked]
        simp [interpretEach, ends]
      simp [Expr.interpret, inside]

/--
A function made of statements returns a datum of its type, if its integer divisors
are literals other than 0 and -1.
-/
theorem Function.Structured.returns {func : Function}
    (structured : func.Structured) (safe : func.body.DividesSafely) :
    ∃ datum, func.interpret arith = some datum ∧
      datum.Fits func.returnType := by
  rcases Expr.Returns.reachesReturn arith structured safe .nil with
    ⟨datum, ends, fits⟩
  refine ⟨datum, ?_, fits⟩
  simp [Function.interpret, ends]

end Llast
