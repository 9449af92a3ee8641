import AddressCode.Number.Basic

/-!
# AddressCode.Value.Basic — values

What a variable or an element holds.  An array value is a reference to a cell of the store, so
that two variables may hold the same array; a reference to no cell at all is an array without
storage.  A pointer is the name of a variable.
-/

namespace AddressCode

/-- A value.  Arrays are references. -/
inductive Value where
  | undefined
  | scalar (x : Number)
  | boolean (b : Bool)
  | pointer (name : String)
  | array (cell : Option Nat)
deriving Repr, DecidableEq, Inhabited

/-- The kinds of values, in the order of their codes. -/
inductive Value.Kind where
  | undefined
  | scalar
  | boolean
  | pointer
  | array
deriving Repr, DecidableEq

namespace Value

namespace Kind

/-- The name of a kind. -/
def name : Kind → String
  | undefined => "undefined"
  | scalar => "scalar"
  | boolean => "boolean"
  | pointer => "pointer"
  | array => "array"

/-- The kind with the code `n`; codes of no kind stand for what is undefined. -/
def ofCode (n : Int) : Kind :=
  if n = 1 then scalar
  else if n = 2 then boolean
  else if n = 3 then pointer
  else if n = 4 then array
  else undefined

end Kind

/-- The kind of a value. -/
def kind : Value → Kind
  | undefined => .undefined
  | scalar _ => .scalar
  | boolean _ => .boolean
  | pointer _ => .pointer
  | array _ => .array

/-- Is a value defined? -/
def isDefined : Value → Bool
  | undefined => false
  | _ => true

/-- The number of a scalar or boolean. -/
def number? : Value → Option Number
  | scalar x => some x
  | boolean b => some (if b then .one else .zero)
  | _ => none

/-- The variable a pointer names. -/
def ref? : Value → Option String
  | pointer name => some name
  | _ => none

/-- Does a value count as true?  Neither zero nor what is no number does. -/
def truthy : Value → Bool
  | undefined => false
  | scalar x => !x.isZero && !x.isNaN
  | boolean b => b
  | pointer _ => true
  | array _ => true

/-- Are two values equal?  Arrays are if they are the same storage; nothing that is no number
equals itself. -/
def equal : Value → Value → Bool
  | undefined, undefined => true
  | scalar x, scalar y => x.eq y
  | boolean a, boolean b => a == b
  | pointer p, pointer q => p == q
  | array c, array d => c == d
  | _, _ => false

end Value

end AddressCode
