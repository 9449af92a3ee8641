import AddressCode.Fault
import AddressCode.Heap
import AddressCode.Number.Remainder

/-!
# AddressCode.Eval — the value of an expression

Expressions are evaluated against the variables of a frame and the store; neither is changed.
Operators work on numbers, and booleans count as numbers; equality is also defined between other
values.  A pointer is followed by name, so each variable on the way has to be defined.
-/

namespace AddressCode

/-! ## Operators -/

/-- The operators whose result is a number. -/
inductive Arithmetic where
  | add
  | sub
  | mul
  | div
  | rem
deriving Repr, DecidableEq

/-- Apply an arithmetic operator. -/
def Arithmetic.apply : Arithmetic → Number → Number → Number
  | add, x, y => x.add y
  | sub, x, y => x.sub y
  | mul, x, y => x.mul y
  | div, x, y => x.div y
  | rem, x, y => x.rem y

/-- The operators whose result is a boolean. -/
inductive Relation where
  | eq
  | ne
  | lt
  | gt
  | le
  | ge
deriving Repr, DecidableEq

/-- Does a relation hold between two numbers? -/
def Relation.holds : Relation → Number → Number → Bool
  | eq, x, y => x.eq y
  | ne, x, y => !x.eq y
  | lt, x, y => x.lt y
  | gt, x, y => y.lt x
  | le, x, y => x.le y
  | ge, x, y => y.le x

/-- An operator between two operands. -/
inductive BinaryOp where
  | arithmetic (op : Arithmetic)
  | relation (op : Relation)
deriving Repr, DecidableEq

/-- The operator of a text. -/
def BinaryOp.ofText? : String → Option BinaryOp
  | "+" => some (.arithmetic .add)
  | "-" => some (.arithmetic .sub)
  | "*" => some (.arithmetic .mul)
  | "/" => some (.arithmetic .div)
  | "%" => some (.arithmetic .rem)
  | "==" => some (.relation .eq)
  | "!=" => some (.relation .ne)
  | "<" => some (.relation .lt)
  | ">" => some (.relation .gt)
  | "<=" => some (.relation .le)
  | ">=" => some (.relation .ge)
  | _ => none

/-- Apply an operator to two numbers. -/
def BinaryOp.apply : BinaryOp → Number → Number → Value
  | arithmetic op, x, y => .scalar (op.apply x y)
  | relation op, x, y => .boolean (op.holds x y)

/-- Apply an operator, written as `text`, to two values.  Between values that are not both numbers
there is only equality; otherwise the first value that is no number is to blame. -/
def BinaryOp.applyValues (op : BinaryOp) (text : String) (x y : Value) : Except Cause Value :=
  match x.number?, y.number? with
  | some a, some b => .ok (op.apply a b)
  | a, _ =>
    match op with
    | relation .eq => .ok (.boolean (x.equal y))
    | relation .ne => .ok (.boolean (!x.equal y))
    | _ => .error (.cannotApply text (if a.isSome then y.kind else x.kind))

/-- An operator in front of an operand. -/
inductive UnaryOp where
  | neg
  /-- read through a number of pointers -/
  | deref (depth : Nat)
  | address
deriving Repr, DecidableEq

/-- The operator of a text. -/
def UnaryOp.ofText? : String → Option UnaryOp
  | "-" => some .neg
  | "*" => some (.deref 1)
  | "**" => some (.deref 2)
  | "&" => some .address
  | _ => none

/-! ## Pointers -/

namespace Heap

/-- Follow `depth` pointers, the first of them in the variable `name`.  The way began at the
variable `start`; the variable at its end has to be defined. -/
def followFrom (h : Heap) (start : String) : Nat → String → Except Cause String
  | 0, name => if h.has name then .ok name else .error (.dangling start)
  | depth + 1, name =>
    match h.lookup? name with
    | none => .error (.brokenChain start)
    | some v =>
      match v.ref? with
      | none => .error (.notAPointer start name v.kind)
      | some ref => h.followFrom start depth ref

/-- The variable at the end of a chain of `depth` pointers. -/
def follow (h : Heap) (name : String) (depth : Nat) : Except Cause String :=
  h.followFrom name depth name

/-- Read through `depth` pointers. -/
def deref (h : Heap) (x : Operand) (depth : Nat) : Except Cause Value :=
  match x with
  | .variable name =>
    if h.has name then
      match h.follow name depth with
      | .ok target => .ok ((h.lookup? target).getD .undefined)
      | .error c => .error c
    else .error (.unknownVariable x)
  | _ => .error (.noPointer x)

/-- A pointer to a variable. -/
def addressOf (h : Heap) (x : Operand) : Except Cause Value :=
  match x with
  | .variable name => if h.has name then .ok (.pointer name) else .error (.unknownVariable x)
  | _ => .error (.noAddress x)

end Heap

/-! ## Expressions -/

/-- The index that the value of an expression stands for. -/
def Value.asIndex (v : Value) (x : Expr) : Except Cause Number :=
  match v.number? with
  | none => .error (.cannotIndex v.kind x)
  | some i => if i.isNaN then .error (.indexNaN x) else .ok i

/-- The element of an array at an index; `x` is the operand that asks for it. -/
def Store.element (s : Store) (cell : Option Nat) (i : Number) (x : Operand) :
    Except Cause Value :=
  match cell.bind s.get? with
  | none => .error (.internal "array without storage")
  | some es =>
    match es.get? i with
    | some v => .ok v
    | none => .error (.noElement x)

/-- The negative of the value of an operand. -/
def Value.negate (v : Value) (x : Operand) : Except Cause Value :=
  match v.number? with
  | some n => .ok (.scalar n.neg)
  | none => .error (.cannotNegate v.kind x)

mutual

/-- The value of an operand. -/
def Operand.eval (h : Heap) (s : Store) : Operand → Except Cause Value
  | .missing => .error .missingOperand
  | .literal x _ => .ok (.scalar x)
  | .variable name =>
    match h.lookup? name with
    | some v => .ok v
    | none => .error (.unknownVariable (.variable name))
  | .element name index =>
    match h.lookup? name with
    | some (.array cell) =>
      match index.eval h s with
      | .error c => .error c
      | .ok v =>
        match v.asIndex index with
        | .error c => .error c
        | .ok i => s.element cell i (.element name index)
    | _ => .error (.unknownVariable (.element name index))

/-- The value of an expression.  The operator is looked up before the operands of a binary
expression, and behind a missing operand of a unary one. -/
def Expr.eval (h : Heap) (s : Store) : Expr → Except Cause Value
  | .atomic x => x.eval h s
  | .unary op x =>
    if x.isMissing then .error .missingOperand
    else match UnaryOp.ofText? op with
      | some .neg =>
        match x.eval h s with
        | .error c => .error c
        | .ok v => v.negate x
      | some (.deref depth) => h.deref x depth
      | some .address => h.addressOf x
      | none => .error (.unknownOperator op)
  | .binary op x y =>
    match BinaryOp.ofText? op with
    | none => .error (.unknownOperator op)
    | some o =>
      match x.eval h s with
      | .error c => .error c
      | .ok v =>
        match y.eval h s with
        | .error c => .error c
        | .ok w => o.applyValues op v w

end

/-- The index that an expression stands for. -/
def Expr.evalIndex (h : Heap) (s : Store) (x : Expr) : Except Cause Number :=
  match x.eval h s with
  | .error c => .error c
  | .ok v => v.asIndex x

end AddressCode
