import AddressCode.Number.Basic

/-!
# AddressCode.Instr.Basic — instructions

The instructions of three-address code.  An operand may be missing, and an operator may be any run
of operator characters: both are errors of execution, not of form, so that the text of a line can
be shown together with the fault it raises.
-/

namespace AddressCode

mutual

/-- What an operator is applied to. -/
inductive Operand where
  /-- nothing, at the end of a line -/
  | missing
  /-- a constant, with its text if it was read from a line -/
  | literal (value : Number) (lexeme : Option String)
  /-- a variable -/
  | variable (name : String)
  /-- an element of an array variable -/
  | element (name : String) (index : Expr)

/-- An expression has at most one operator. -/
inductive Expr where
  | atomic (x : Operand)
  | unary (op : String) (x : Operand)
  | binary (op : String) (x y : Operand)

end

deriving instance Repr, DecidableEq, Inhabited for Operand, Expr

/-- The target of an assignment. -/
inductive Target where
  /-- a variable, reached through `depth` pointers -/
  | variable (depth : Nat) (name : String)
  /-- an element of an array variable -/
  | element (name : String) (index : Expr)
deriving Repr, DecidableEq, Inhabited

/-- An instruction. -/
inductive Instr where
  | noop
  /-- run the action if the condition is true -/
  | ifThen (cond : Expr) (action : Instr)
  | print (x : Expr)
  | ret (x : Option Expr)
  | goto (label : String)
  /-- call `proc` with a number of parameters, unless that is left open, and keep what it returns
  in `result` or in the default variable -/
  | call (proc : String) (count : Option Nat) (result : Option String)
  | param (x : Expr)
  | beginFunc (name : String) (arity : Nat)
  | endFunc
  | assign (target : Target) (x : Expr)
  | expression (x : Expr)
deriving Repr, DecidableEq, Inhabited

namespace Operand

/-- Is there no operand? -/
def isMissing : Operand → Bool
  | missing => true
  | _ => false

/-- Is this an element of an array? -/
def isElement : Operand → Bool
  | element _ _ => true
  | _ => false

end Operand

/-! ## Kinds -/

/-- The kinds of instructions, in the order of their codes. -/
inductive Instr.Kind where
  | noop
  | ifThen
  | print
  | ret
  | goto
  | call
  | param
  | beginFunc
  | endFunc
  | assign
  | expression
deriving Repr, DecidableEq

namespace Instr

/-- The kind of an instruction. -/
def kind : Instr → Kind
  | noop => .noop
  | ifThen _ _ => .ifThen
  | print _ => .print
  | ret _ => .ret
  | goto _ => .goto
  | call _ _ _ => .call
  | param _ => .param
  | beginFunc _ _ => .beginFunc
  | endFunc => .endFunc
  | assign _ _ => .assign
  | expression _ => .expression

namespace Kind

/-- All kinds, in the order of their codes. -/
def all : List Kind :=
  [.noop, .ifThen, .print, .ret, .goto, .call, .param, .beginFunc, .endFunc, .assign, .expression]

/-- The name of a kind. -/
def name : Kind → String
  | .noop => "noop"
  | .ifThen => "if"
  | .print => "print"
  | .ret => "return"
  | .goto => "goto"
  | .call => "call"
  | .param => "param"
  | .beginFunc => "BeginFunc"
  | .endFunc => "EndFunc"
  | .assign => "assign"
  | .expression => "expr"

/-- The name of the kind with the code `n`.  A code beyond the last kind is shown as a number, and
a negative code has no name. -/
def nameOfCode? (n : Int) : Option String :=
  if n < 0 then none
  else match all[n.toNat]? with
    | some k => some k.name
    | none => some ("kind(" ++ toString n ++ ")")

end Kind

end Instr

end AddressCode
