import AddressCode.Number.Reading
import AddressCode.Text.Blank
import AddressCode.Text.Quoted
import AddressCode.Text.Split

/-!
# AddressCode.Cli.Inputs — the inputs of a program

Inputs are numbers with commas between them.  Blanks around a number do not matter, and a text of
blanks only is no input at all.
-/

namespace AddressCode

/-- A field of the inputs that is no number. -/
structure InputError where
  field : String
  reason : ReadError
deriving Repr, DecidableEq

/-- The text of the error. -/
def InputError.message (e : InputError) : String :=
  "illegal input " ++ Text.quote e.field ++ ": strconv.ParseFloat: parsing " ++
    Text.quote (Text.trim e.field) ++ ": " ++
    (match e.reason with
      | .malformed => "invalid syntax"
      | .outOfRange => "value out of range")

/-- The number in a field. -/
def inputField (field : String) : Except InputError Number :=
  match Number.parse (Text.trim field) with
  | .ok x => .ok x
  | .error reason => .error ⟨field, reason⟩

/-- The inputs in a text. -/
def parseInputs (s : String) : Except InputError (List Number) :=
  if Text.allBlank s then .ok [] else (Text.splitOn "," s).mapM inputField

end AddressCode
