import AddressCode.Instr.Line
import AddressCode.Ordered
import AddressCode.Tree

/-!
# AddressCode.Procedure — procedures and where they are known

A procedure is known in the scope that defines it and in all scopes inside that one.  The scopes
around a place in a program are a chain, the innermost in front; looking up a procedure walks along
the chain, and the part of it from the scope that defines the procedure on is where the procedure is
at home.

A `ScopeTree` holds scopes that are defined in while others stand inside them.  A scope is named by
the number of scopes older than it, and its parent is one of these.
-/

namespace AddressCode

/-- A named list of lines that takes a number of parameters. -/
structure Procedure where
  name : String
  arity : Int
  body : Array Line
deriving DecidableEq

/-- The text of a procedure. -/
def Procedure.text (p : Procedure) : String :=
  "<proc " ++ p.name ++ "/" ++ toString p.arity ++ " (" ++ toString p.body.size ++ " lines)>"

/-- A table of procedures. -/
structure Scope where
  name : String
  procs : Ordered String Procedure
deriving DecidableEq

namespace Scope

/-- A scope without procedures. -/
def new (name : String) : Scope := ⟨name, .empty⟩

/-- The text of a scope. -/
def text (s : Scope) : String := "<scope " ++ s.name ++ ">"

/-- Define a procedure, in place of one of the same name. -/
def define (s : Scope) (p : Procedure) : Scope := { s with procs := s.procs.insert p.name p }

/-- The procedure that a scope itself defines. -/
def find? (s : Scope) (name : String) : Option Procedure := s.procs.get? name

/-- Add a line to the body of a procedure. -/
def append (s : Scope) (name : String) (line : Line) : Scope :=
  { s with procs := s.procs.modify name fun p => { p with body := p.body.push line } }

/-- The names of the procedures that a scope itself defines, in order. -/
def names (s : Scope) : List String := Tree.sortKeys s.procs.keys

/-- The procedure that a name stands for in a chain of scopes, and its home: the chain from the
scope that defines it on. -/
def resolve? (name : String) : List Scope → Option (Procedure × List Scope)
  | [] => none
  | s :: outer =>
    match s.find? name with
    | some p => some (p, s :: outer)
    | none => resolve? name outer

end Scope

/-! ## Trees of scopes -/

/-- A scope with the number of its parent. -/
structure ScopeTree.Node where
  scope : Scope
  parent : Option Nat

/-- Scopes with their parents, the youngest in front. -/
structure ScopeTree where
  nodes : List ScopeTree.Node

namespace ScopeTree

/-- A tree with a root only. -/
def new (rootName : String) : ScopeTree := ⟨[⟨.new rootName, none⟩]⟩

/-- Add a scope. -/
def add (t : ScopeTree) (name : String) (parent : Option Nat) : ScopeTree :=
  ⟨⟨.new name, parent⟩ :: t.nodes⟩

/-- The number of scopes. -/
def size (t : ScopeTree) : Nat := t.nodes.length

/-- The chain of the scope with the number `id` among some nodes. -/
def chainIn : List Node → Nat → List Scope
  | [], _ => []
  | n :: older, id =>
    if older.length = id then
      n.scope :: (match n.parent with
        | some parent => chainIn older parent
        | none => [])
    else chainIn older id

/-- The scope with the number `id` and all scopes around it. -/
def chain (t : ScopeTree) (id : Nat) : List Scope := chainIn t.nodes id

/-- Define a procedure in the scope with the number `id`. -/
def define (t : ScopeTree) (id : Nat) (p : Procedure) : ScopeTree where
  nodes := t.nodes.mapIdx fun i n =>
    if t.nodes.length = i + 1 + id then { n with scope := n.scope.define p } else n

end ScopeTree

end AddressCode
