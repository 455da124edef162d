/-
Formshift/Lib/Raised.lean

Python exceptions: the classes of the standard library, and what an `except`
clause catches.

A clause catches an exception when one of the classes it names is the
exception's own or above it (`Raised.isA`).
-/
import Formshift.Lib.Except
import Formshift.Lib.Str

namespace Py

/-- Exception classes; `own` are those of a program, straight under
`Exception`. -/
inductive ExceptionClass where
  | exception
  | arithmeticError
  | overflowError
  | zeroDivisionError
  | attributeError
  | lookupError
  | keyError
  | indexError
  | typeError
  | valueError
  | own (name : String)
  deriving DecidableEq

namespace ExceptionClass

/-- The class and what is above it. -/
def mro : ExceptionClass → List ExceptionClass
  | exception => [exception]
  | overflowError => [overflowError, arithmeticError, exception]
  | zeroDivisionError => [zeroDivisionError, arithmeticError, exception]
  | keyError => [keyError, lookupError, exception]
  | indexError => [indexError, lookupError, exception]
  | c => [c, exception]

/-- `__name__`. -/
def name : ExceptionClass → String
  | exception => "Exception"
  | arithmeticError => "ArithmeticError"
  | overflowError => "OverflowError"
  | zeroDivisionError => "ZeroDivisionError"
  | attributeError => "AttributeError"
  | lookupError => "LookupError"
  | keyError => "KeyError"
  | indexError => "IndexError"
  | typeError => "TypeError"
  | valueError => "ValueError"
  | own name => name

end ExceptionClass

/-- An exception and its argument. -/
structure Raised where
  type : ExceptionClass
  arg : String
  deriving DecidableEq

/-- `isinstance(exc, clause)`. -/
def Raised.isA (e : Raised) (clause : List ExceptionClass) : Bool := e.type.mro.any (· ∈ clause)

/-- `repr(exc)`. -/
def Raised.text (repr : Str → String) (e : Raised) : String :=
  e.type.name ++ "(" ++ repr e.arg ++ ")"

theorem Raised.isA_of_mem {e : Raised} {clause : List ExceptionClass} (h : e.type ∈ clause) :
    e.isA clause = true := by
  refine List.any_eq_true.mpr ⟨e.type, ?_, decide_eq_true h⟩
  cases e.type <;> simp [ExceptionClass.mro]

/-- The exceptions a clause catches. -/
def Caught (clause : List ExceptionClass) (e : Raised) : Prop := e.isA clause = true

instance (clause : List ExceptionClass) (e : Raised) : Decidable (Caught clause e) :=
  inferInstanceAs (Decidable (e.isA clause = true))

theorem Within.raise {α : Type} {clause : List ExceptionClass} {e : Raised} (h : e.type ∈ clause) :
    Within (Caught clause) (.error e : Except Raised α) :=
  within_error.mpr (Raised.isA_of_mem h)

end Py
