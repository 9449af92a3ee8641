import AddressCode.Text.Split

/-!
# AddressCode.Cli.Folder — finding a file by its name

A name is a sequence of parts with slashes between them, each looked up in the folder that the parts
before it lead to.  A name that begins with a slash starts at the outermost folder, any other one at
the current folder.
-/

namespace AddressCode

/-- Why a file cannot be read. -/
inductive FileError where
  | missing
  /-- a part of the name other than the last one is no folder -/
  | notFolder
  | nameTooLong
  | forbidden
  /-- the name leads to a folder -/
  | folder
deriving Repr, DecidableEq

/-- The text of the error for the file `name`. -/
def FileError.message (name : String) (e : FileError) : String :=
  "unable to read program file: " ++
    (match e with
      | missing => "open " ++ name ++ ": no such file or directory"
      | notFolder => "open " ++ name ++ ": not a directory"
      | nameTooLong => "open " ++ name ++ ": file name too long"
      | forbidden => "open " ++ name ++ ": permission denied"
      | folder => "read " ++ name ++ ": is a directory")

/-- What a name can lead to. -/
inductive Entry where
  | file (content : List UInt8)
  | folder (entries : List (String × Entry))
deriving Repr, Inhabited

namespace Entry

/-- The longest part of a name, in bytes. -/
def maxPart : Nat := 255

/-- The longest name, in bytes. -/
def maxName : Nat := 4095

/-- The entry of a name in some entries. -/
def lookup? (part : String) : List (String × Entry) → Option Entry
  | [] => none
  | (name, e) :: rest => if name = part then some e else lookup? part rest

/-- Where the parts of a name lead from an entry that is inside the folders `outer`, the nearest one
in front. -/
def walk (outer : List Entry) (e : Entry) : List String → Except FileError Entry
  | [] => .ok e
  | part :: rest =>
    match e with
    | file _ => .error .notFolder
    | folder es =>
      if part = "" ∨ part = "." then walk outer e rest
      else if part = ".." then
        match outer with
        | [] => walk [] e rest
        | up :: outer => walk outer up rest
      else if maxPart < part.utf8ByteSize then .error .nameTooLong
      else match lookup? part es with
        | none => .error .missing
        | some found => walk (e :: outer) found rest

/-- The content of a file. -/
def content : Entry → Except FileError (List UInt8)
  | file content => .ok content
  | folder _ => .error .folder

/-- Read the file `name`.  The current folder is inside the folders `outer`. -/
def read (outer : List Entry) (current : Entry) (name : String) :
    Except FileError (List UInt8) :=
  if name = "" then .error .missing
  else if maxName < name.utf8ByteSize then .error .nameTooLong
  else
    let parts := Text.splitOn "/" name
    let found :=
      if name.toList.head? = some '/' then walk [] (outer.getLast?.getD current) parts
      else walk outer current parts
    match found with
    | .error e => .error e
    | .ok e => e.content

end Entry

end AddressCode
