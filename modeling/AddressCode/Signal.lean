import AddressCode.Fault
import AddressCode.Store

/-!
# AddressCode.Signal — how an instruction ends

An instruction changes the state of its frame and ends in a signal, which says what the run has to
do next.
-/

namespace AddressCode

/-- How an instruction ends. -/
inductive Signal where
  /-- go on with the next line -/
  | next
  /-- go on at a position -/
  | jump (position : Nat)
  /-- leave the frame, with a value that may be undefined -/
  | ret (value : Value)
  /-- print a value -/
  | print (value : Value) (line : Int)
  | fault (cause : Cause)
deriving Repr, DecidableEq, Inhabited

namespace Signal

/-- The text of a fault signal. -/
def faultText (code : Int) (message : String) : String :=
  "Fault(" ++ toString code ++ ": " ++ message ++ ")"

/-- The text of a jump. -/
def jumpText (position : Int) : String := "Jump(" ++ toString position ++ ")"

/-- The text of a signal, unless its value contains itself. -/
def text? (s : Store) : Signal → Option String
  | next => some "none"
  | jump position => some (jumpText position)
  | ret v => (s.text? v).map fun t => "Return(" ++ t ++ ")"
  | print v line => (s.text? v).map fun t => "Print(" ++ t ++ ", " ++ toString line ++ ")"
  | fault c => some (faultText c.kind.code c.message)

end Signal

end AddressCode
