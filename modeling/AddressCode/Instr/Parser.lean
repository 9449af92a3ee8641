import AddressCode.Instr.Basic
import AddressCode.Instr.Tokens
import AddressCode.Number.Reading

/-!
# AddressCode.Instr.Parser — instructions from tokens

Recursive descent over a list of tokens.  A parser takes what it needs from the front of the list
and hands back the rest; an instruction has to use up the whole list.  The forms of instructions
are tried in a fixed order, and one that does not fit leaves the tokens to the next.
-/

namespace AddressCode.Parse

/-- The tokens of a line, as far as they are not used up. -/
abbrev Tokens := List (Token Word)

/-- Takes a value from the front of the tokens, and leaves the rest. -/
abbrev Parser (α : Type) := Tokens → Option (α × Tokens)

/-- The value of a parser that uses up all tokens. -/
def complete {α : Type} (p : Parser α) (toks : Tokens) : Option α :=
  match p toks with
  | some (a, []) => some a
  | _ => none

/-! ## Single tokens -/

/-- Take the identifier `word`. -/
def keyword (word : String) : Tokens → Option Tokens
  | t :: rest => if t.kind = .ident ∧ t.lexeme = word then some rest else none
  | [] => none

/-- Take a token of the given kind. -/
def sign (kind : Word) : Tokens → Option Tokens
  | t :: rest => if t.kind = kind then some rest else none
  | [] => none

/-- Take any identifier. -/
def ident : Parser String
  | t :: rest => if t.kind = .ident then some (t.lexeme, rest) else none
  | [] => none

/-- The natural of a text of digits, if it is less than `2 ^ 63`. -/
def count? (s : String) : Option Nat :=
  let cs := s.toList
  if cs.isEmpty || !cs.all Char.isDigit then none
  else
    let n := cs.foldl (fun n c => n * 10 + (c.toNat - '0'.toNat)) 0
    if n < Nat.pow 2 63 then some n else none

/-- Take a number that is a count. -/
def integer : Parser Nat
  | t :: rest => if t.kind = .num then (count? t.lexeme).map (·, rest) else none
  | [] => none

/-- Go on with the operator tokens that touch the ones read, which are `op` at `span`. -/
def opTail (op : String) (span : Span) : Tokens → String × Tokens
  | t :: rest =>
    if t.kind = .op ∧ span.touches t.span then opTail (op ++ t.lexeme) (span.extend t.span) rest
    else (op, t :: rest)
  | [] => (op, [])

/-- Take an operator: all operator tokens up to the first gap. -/
def opRun : Parser String
  | t :: rest => if t.kind = .op then some (opTail t.lexeme t.span rest) else none
  | [] => none

/-! ## Expressions -/

/-- Take an operand, whose index is read by `index`.  At the end of the line the operand is
missing. -/
def operandWith (index : Parser Expr) : Parser Operand
  | [] => some (.missing, [])
  | t :: rest =>
    match t.kind with
    | .num =>
      match Number.parse t.lexeme with
      | .ok x => some (.literal x (some t.lexeme), rest)
      | .error _ => none
    | .ident =>
      match sign .lbracket rest with
      | none => some (.variable t.lexeme, rest)
      | some rest =>
        match index rest with
        | none => none
        | some (i, rest) =>
          match sign .rbracket rest with
          | none => none
          | some rest => some (.element t.lexeme i, rest)
    | _ => none

/-- Does an operator other than a lone equals sign follow? -/
def startsOperator : Tokens → Bool
  | t :: _ => t.kind == .op && t.lexeme != "="
  | [] => false

/-- Take an expression, whose operands are read by `operand`. -/
def exprWith (operand : Parser Operand) : Parser Expr := fun toks =>
  match opRun toks with
  | some (op, rest) =>
    match operand rest with
    | some (x, rest) => some (.unary op x, rest)
    | none => none
  | none =>
    match operand toks with
    | none => none
    | some (x, rest) =>
      if !x.isMissing && startsOperator rest then
        match opRun rest with
        | none => none
        | some (op, rest) =>
          match operand rest with
          | some (y, rest) => some (.binary op x y, rest)
          | none => none
      else some (.atomic x, rest)

/-- Take an operand with at most `depth` brackets inside each other. -/
def operand : Nat → Parser Operand
  | 0 => operandWith fun _ => none
  | depth + 1 => operandWith (exprWith (operand depth))

/-- Take an expression.  Each bracket is a token, so there are never more of them than tokens. -/
def expr : Parser Expr := fun toks => exprWith (operand toks.length) toks

/-! ## Targets -/

/-- Take operator tokens made of stars, and count the stars. -/
def stars (depth : Nat) : Tokens → Option (Nat × Tokens)
  | t :: rest =>
    if t.kind = .op then
      if t.lexeme.toList.all (· == '*') then stars (depth + t.lexeme.length) rest else none
    else some (depth, t :: rest)
  | [] => some (depth, [])

/-- Take the target of an assignment.  Only a plain variable can be indexed. -/
def target : Parser Target := fun toks =>
  match stars 0 toks with
  | none => none
  | some (depth, rest) =>
    match ident rest with
    | none => none
    | some (name, rest) =>
      match sign .lbracket rest with
      | none => some (.variable depth name, rest)
      | some rest =>
        if depth ≠ 0 then none
        else match expr rest with
          | none => none
          | some (i, rest) =>
            match sign .rbracket rest with
            | none => none
            | some rest => some (.element name i, rest)

/-! ## Instructions -/

/-- What follows the word `call`: a procedure and a count, or a result variable and a
procedure. -/
def callTail : Parser Instr := fun toks =>
  match ident toks with
  | none => none
  | some (first, rest) =>
    match sign .comma rest with
    | none => none
    | some rest =>
      match integer rest with
      | some (n, rest) => some (.call first (some n) none, rest)
      | none =>
        match ident rest with
        | some (second, rest) => some (.call second none (some first), rest)
        | none => none

/-- `word` followed by an expression. -/
def wordForm (word : String) (f : Expr → Instr) (toks : Tokens) : Option Instr :=
  (keyword word toks).bind fun rest => (complete expr rest).map f

/-- `return`, alone or with an expression. -/
def returnForm (toks : Tokens) : Option Instr :=
  (keyword "return" toks).bind fun rest =>
    if rest.isEmpty then some (.ret none) else (complete expr rest).map fun x => .ret (some x)

/-- `goto` and a label. -/
def gotoForm (toks : Tokens) : Option Instr :=
  (keyword "goto" toks).bind fun rest => (complete ident rest).map .goto

/-- `call` and its tail. -/
def callForm (toks : Tokens) : Option Instr :=
  (keyword "call" toks).bind fun rest => complete callTail rest

/-- `BeginFunc`, a name and the number of parameters. -/
def beginFuncForm (toks : Tokens) : Option Instr :=
  (keyword "BeginFunc" toks).bind fun rest =>
    match ident rest with
    | none => none
    | some (name, rest) => (sign .comma rest).bind fun rest =>
      (complete integer rest).map fun n => .beginFunc name n

/-- `EndFunc`, alone. -/
def endFuncForm (toks : Tokens) : Option Instr :=
  (keyword "EndFunc" toks).bind fun rest => if rest.isEmpty then some .endFunc else none

/-- The right side of an assignment to `target`.  A call can be assigned to a plain variable if it
names no result of its own. -/
def assigned (target : Target) (toks : Tokens) : Option Instr :=
  match target with
  | .variable 0 name =>
    match keyword "call" toks with
    | some rest =>
      match complete callTail rest with
      | some (.call proc count none) => some (.call proc count (some name))
      | _ => none
    | none => (complete expr toks).map (.assign target)
  | _ => (complete expr toks).map (.assign target)

/-- An assignment, if there is an equals sign, and an expression otherwise. -/
def assignForm (toks : Tokens) : Option Instr :=
  match toks.dropWhile (·.lexeme != "=") with
  | [] => (complete expr toks).map .expression
  | _ :: right =>
    (complete target (toks.takeWhile (·.lexeme != "="))).bind fun t => assigned t right

/-- The forms that begin with a word, apart from `if` and from the limits of procedures. -/
def wordForms (toks : Tokens) : Option Instr :=
  wordForm "print" .print toks <|> returnForm toks <|> gotoForm toks <|> callForm toks <|>
    wordForm "param" .param toks

/-- `if`, a condition and an action, which is read by `action`. -/
def ifForm (action : Tokens → Option Instr) (toks : Tokens) : Option Instr :=
  (keyword "if" toks).bind fun rest =>
    match expr rest with
    | none => none
    | some (cond, rest) =>
      if rest.isEmpty then none else (action rest).map fun a => .ifThen cond a

/-- The action of an `if`, with at most `depth` further ones inside. -/
def action : Nat → Tokens → Option Instr
  | 0, toks => wordForms toks <|> assignForm toks
  | depth + 1, toks => ifForm (action depth) toks <|> wordForms toks <|> assignForm toks

/-- The instruction of all tokens of a line.  Each `if` is a token, so there are never more of them
than tokens. -/
def instr (toks : Tokens) : Option Instr :=
  ifForm (action toks.length) toks <|> wordForms toks <|> beginFuncForm toks <|>
    endFuncForm toks <|> assignForm toks

end AddressCode.Parse
