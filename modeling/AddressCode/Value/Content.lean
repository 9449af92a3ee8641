import AddressCode.Number.Layout

/-!
# AddressCode.Value.Content — values written out

The content of a value has its arrays written out instead of referred to.  Two values with the
same content look the same, whatever cells they use.  Where an array is found inside itself, the
content says so and goes no deeper; such a content has no text.
-/

namespace AddressCode

/-- A value with its arrays written out. -/
inductive Content where
  | undefined
  | scalar (x : Number)
  | boolean (b : Bool)
  | pointer (name : String)
  /-- an array without storage -/
  | unallocated
  | array (items : List (Number × Content))
  /-- an array that is already being written out -/
  | cycle
deriving Repr, Inhabited

namespace Content

/-- Texts with a blank between them. -/
def spaced : List String → String
  | [] => ""
  | [s] => s
  | s :: rest => s ++ " " ++ spaced rest

mutual

/-- The text of a content, unless there is a cycle in it. -/
def text? : Content → Option String
  | undefined => some "undefined"
  | scalar x => some x.text
  | boolean b => some (if b then "true" else "false")
  | pointer name => some ("&" ++ name)
  | unallocated => some "[]"
  | array items => (itemTexts? items).map fun ts => "[" ++ spaced ts ++ "]"
  | cycle => none

/-- The texts of the elements of an array: the index, a colon and the element. -/
def itemTexts? : List (Number × Content) → Option (List String)
  | [] => some []
  | (i, c) :: rest =>
    match c.text?, itemTexts? rest with
    | some t, some ts => some ((i.text ++ ":" ++ t) :: ts)
    | _, _ => none

end

end Content

end AddressCode
