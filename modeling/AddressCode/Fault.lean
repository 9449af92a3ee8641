import AddressCode.Instr.Line
import AddressCode.Value.Basic

/-!
# AddressCode.Fault — what goes wrong in a run

A fault has a cause, and the place where it was raised.  Each cause belongs to a kind, and each
kind has a code; `Cause.message` is the only place where faults are put into words.
-/

namespace AddressCode

/-- The kinds of faults. -/
inductive FaultKind where
  | unknownVariable
  | missingOperand
  | unknownOperator
  | invalidPointerReference
  | invalidTypeConversion
  | undefinedLabel
  | invalidMethodCall
  | indexOutOfBound
  | unrecognizedInstruction
  | internalError
deriving Repr, DecidableEq, Inhabited

namespace FaultKind

/-- The code of a kind. -/
def code : FaultKind → Int
  | unknownVariable => 100
  | missingOperand => 101
  | unknownOperator => 102
  | invalidPointerReference => 104
  | invalidTypeConversion => 105
  | undefinedLabel => 106
  | invalidMethodCall => 107
  | indexOutOfBound => 108
  | unrecognizedInstruction => 109
  | internalError => 120

/-- The kind with the code `n`; a code of no kind stands for an internal error. -/
def ofCode (n : Int) : FaultKind :=
  if n = 100 then unknownVariable
  else if n = 101 then missingOperand
  else if n = 102 then unknownOperator
  else if n = 104 then invalidPointerReference
  else if n = 105 then invalidTypeConversion
  else if n = 106 then undefinedLabel
  else if n = 107 then invalidMethodCall
  else if n = 108 then indexOutOfBound
  else if n = 109 then unrecognizedInstruction
  else internalError

/-- The name of a kind. -/
def name : FaultKind → String
  | unknownVariable => "UnknownVariable"
  | missingOperand => "MissingOperand"
  | unknownOperator => "UnknownOperator"
  | invalidPointerReference => "InvalidPointerReference"
  | invalidTypeConversion => "InvalidTypeConversion"
  | undefinedLabel => "UndefinedLabel"
  | invalidMethodCall => "InvalidMethodCall"
  | indexOutOfBound => "IndexOutOfBound"
  | unrecognizedInstruction => "UnrecognizedInstruction"
  | internalError => "InternalError"

end FaultKind

/-- Why an instruction cannot be carried out. -/
inductive Cause where
  /-- a variable or element is read whose variable is not defined, or is no array -/
  | unknownVariable (x : Operand)
  | missingOperand
  | unknownOperator (op : String)
  /-- the address is taken of something that is no variable -/
  | noAddress (x : Operand)
  /-- something that is no variable is read through as a pointer -/
  | noPointer (x : Operand)
  /-- a target lies behind too many pointers -/
  | tooDeep (target : Target)
  /-- a variable on the way from `start` is not defined -/
  | brokenChain (start : String)
  /-- a variable on the way from `start` is no pointer -/
  | notAPointer (start name : String) (kind : Value.Kind)
  /-- the variable at the end of the way from `start` is not defined -/
  | dangling (start : String)
  | cannotNegate (kind : Value.Kind) (x : Operand)
  | cannotIndex (kind : Value.Kind) (x : Expr)
  | cannotApply (op : String) (kind : Value.Kind)
  | notAnArray (kind : Value.Kind) (name : String)
  | undefinedLabel (label : String)
  | undefinedProcedure (name : String)
  | wrongCount (name : String) (arity count : Int)
  | tooManyCalls (limit : Nat) (name : String)
  | tooFewParams (name : String) (arity : Int) (pending : Nat)
  /-- an index is no number -/
  | indexNaN (x : Expr)
  /-- there is no element at an index -/
  | noElement (x : Operand)
  | unrecognized (e : SyntaxError)
  | strayEnd
  | internal (message : String)
deriving Repr, DecidableEq, Inhabited

namespace Cause

/-- The kind of a cause. -/
def kind : Cause → FaultKind
  | unknownVariable _ => .unknownVariable
  | missingOperand => .missingOperand
  | unknownOperator _ => .unknownOperator
  | noAddress _ | noPointer _ | tooDeep _ | brokenChain _ | notAPointer _ _ _ | dangling _ =>
    .invalidPointerReference
  | cannotNegate _ _ | cannotIndex _ _ | cannotApply _ _ | notAnArray _ _ =>
    .invalidTypeConversion
  | undefinedLabel _ => .undefinedLabel
  | undefinedProcedure _ | wrongCount _ _ _ | tooManyCalls _ _ | tooFewParams _ _ _ =>
    .invalidMethodCall
  | indexNaN _ | noElement _ => .indexOutOfBound
  | unrecognized _ | strayEnd => .unrecognizedInstruction
  | internal _ => .internalError

/-- The text of an invalid pointer reference. -/
def pointerText (s : String) : String := "Invalid Pointer Reference '" ++ s ++ "'"

/-- The text of an invalid conversion. -/
def conversionText (s : String) : String := "Invalid Type Conversion - cannot " ++ s

/-- The text of an invalid call. -/
def callText (s : String) : String := "Invalid method call - " ++ s

/-- The text of a cause. -/
def message : Cause → String
  | unknownVariable x => "Unknown variable '" ++ x.text ++ "'"
  | missingOperand => "Missing Operand"
  | unknownOperator op => "Unknown operator '" ++ op ++ "'"
  | noAddress x => pointerText ("&" ++ x.text)
  | noPointer x => pointerText x.text
  | tooDeep target => pointerText target.text
  | brokenChain start => pointerText start
  | notAPointer start name kind =>
    pointerText start ++ " (" ++ name ++ " is a " ++ kind.name ++ ")"
  | dangling start => pointerText start ++ " (dangling)"
  | cannotNegate kind x => conversionText ("negate " ++ kind.name ++ " '" ++ x.text ++ "'")
  | cannotIndex kind x => conversionText ("use " ++ kind.name ++ " '" ++ x.text ++ "' as index")
  | cannotApply op kind => conversionText ("apply '" ++ op ++ "' to " ++ kind.name)
  | notAnArray kind name =>
    conversionText ("convert " ++ kind.name ++ " '" ++ name ++ "' to array")
  | undefinedLabel label => "Undefined Label '" ++ label ++ "'"
  | undefinedProcedure name => callText ("undefined procedure '" ++ name ++ "'")
  | wrongCount name arity count =>
    callText ("'" ++ name ++ "' takes " ++ toString arity ++ " parameters, not " ++ toString count)
  | tooManyCalls limit name =>
    callText ("maximum call depth " ++ toString limit ++ " exceeded by '" ++ name ++ "'")
  | tooFewParams name arity pending =>
    callText ("'" ++ name ++ "' takes " ++ toString arity ++ " parameters, " ++
      toString pending ++ " on stack")
  | indexNaN x => "Array index out of bound '" ++ x.text ++ "'"
  | noElement x => "Array index out of bound '" ++ x.text ++ "'"
  | unrecognized e => e.message
  | strayEnd => "Unrecognized instruction 'EndFunc' outside of procedure definition"
  | internal message => "Internal error: " ++ message

end Cause

/-- The name of the frame at the bottom of the call stack. -/
def rootName : String := "root"

/-- A cause with the line and the procedure that raised it.  A line that is not positive is
unknown. -/
structure Fault where
  cause : Cause
  line : Int
  proc : String
deriving Repr, DecidableEq, Inhabited

namespace Fault

/-- A message with its place, as far as that is known; the top level has no name. -/
def located (message : String) (line : Int) (proc : String) : String :=
  if line ≤ 0 then message
  else if proc = "" ∨ proc = rootName then message ++ " in line " ++ toString line
  else message ++ " in line " ++ toString line ++ " of " ++ proc

/-- The kind of a fault. -/
def kind (f : Fault) : FaultKind := f.cause.kind

/-- The code of a fault. -/
def code (f : Fault) : Int := f.kind.code

/-- The text of a fault. -/
def text (f : Fault) : String := located f.cause.message f.line f.proc

end Fault

end AddressCode
