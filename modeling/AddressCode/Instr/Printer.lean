import AddressCode.Instr.Basic
import AddressCode.Number.Layout

/-!
# AddressCode.Instr.Printer — instructions as text

The text of an instruction.  A constant is shown as it was written; a missing operand is shown as
nothing.
-/

namespace AddressCode

mutual

/-- The text of an operand. -/
def Operand.text : Operand → String
  | .missing => ""
  | .literal x none => Layout.constant.format x
  | .literal _ (some lexeme) => lexeme
  | .variable name => name
  | .element name index => name ++ "[" ++ index.text ++ "]"

/-- The text of an expression. -/
def Expr.text : Expr → String
  | .atomic x => x.text
  | .unary op x => op ++ x.text
  | .binary op x y => x.text ++ " " ++ op ++ " " ++ y.text

end

/-- The text of a target: a star for each pointer on the way. -/
def Target.text : Target → String
  | .variable depth name => String.ofList (List.replicate depth '*') ++ name
  | .element name index => name ++ "[" ++ index.text ++ "]"

/-- The text of an instruction. -/
def Instr.text : Instr → String
  | .noop => "noop"
  | .ifThen cond action => "if " ++ cond.text ++ " " ++ action.text
  | .print x => "print " ++ x.text
  | .ret none => "return"
  | .ret (some x) => "return " ++ x.text
  | .goto label => "goto " ++ label
  | .call proc count result =>
    (match result with
      | some r => r ++ " = "
      | none => "") ++
    "call " ++ proc ++
    (match count with
      | some n => ", " ++ toString n
      | none => "")
  | .param x => "param " ++ x.text
  | .beginFunc name arity => "BeginFunc " ++ name ++ ", " ++ toString arity
  | .endFunc => "EndFunc"
  | .assign target x => target.text ++ " = " ++ x.text
  | .expression x => x.text

end AddressCode
