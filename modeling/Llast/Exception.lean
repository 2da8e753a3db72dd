import Mathlib.Data.List.Basic

/-!
# Exceptions and undefined behaviour

`Exception.hpp` declares the exceptions a walk of the tree can end in.  The
sources also contain operations whose failure C++ does not define: `top()` and
`pop()` of an empty `std::stack`, a call through a null pointer, `back()` of an
empty `std::vector`, and an LLVM `cast` to the wrong class.  The two ways of
not completing are kept apart in `Fault`: an exception is an answer, undefined
behaviour is not.

`LLAST_DEBUG` is off, so `DEBUG_ASSERT` expands to nothing.
-/

namespace Llast

/-- `enum class CompileError`. -/
inductive CompileError where
  | noError
  | binaryExprDataTypeMismatch
deriving DecidableEq, Repr

/-- The exception classes of `Exception.hpp`, each with what it was built from. -/
inductive Exception where
  | fatalException (message : String)
  | invalidArgumentException (argumentName : String)
  | unhandledSwitchCase
  | invalidStateException (message : String)
  | compileException (error : CompileError) (message : String)
deriving DecidableEq, Repr

/-- The operations of the sources that C++ leaves undefined. -/
inductive Undefined where
  | emptyStack
  | nullPointer
  | emptyVector
  | badCast
deriving DecidableEq, Repr

/-- How a walk can fail to complete. -/
inductive Fault where
  | thrown (exception : Exception)
  | undefined (behaviour : Undefined)
deriving DecidableEq, Repr

/--
What `ARG_NOT_NULL(arg)` throws.  The macro quotes its own stringification
operator, so the argument's name never reaches the message.
-/
def argNotNull : Fault :=
  .thrown (.invalidArgumentException "##arg")

end Llast
