import AddressCode.Instr.Parser
import Mathlib.Algebra.Group.Nat.Defs
import Mathlib.Data.List.TakeWhile

/-!
# AddressCode.Proofs.Grammar — the grammar of instructions

`Parse` reads instructions by recursive descent.  This module states the language that is read as a
grammar over lists of tokens, without mention of a parser, and proves that the two agree.

* `IsOpRun`, `IsOperand`, `IsExpr` and `IsTarget` relate the tokens of a phrase, its tree and the
  tokens behind it.  A phrase depends on what follows: an operator takes all operator tokens that
  touch, an operand is missing at the end of the line only, and a name in front of a bracket is no
  variable.
* `Derives` lists the forms of instructions.  A line may have several of them, since the words that
  begin a form are also names: `print = 3` prints an expression that begins with an operator, or it
  assigns to a variable.  `Chosen` picks the first form.
* `Recognizes` says of a parser that it takes exactly the tokens of a phrase, of which there is at
  most one.  The main theorem, `recognizes_grammar`, says so of the parsers of expressions, operands
  and targets, and that an instruction is read from a list of tokens if and only if one of the forms
  derives it.
-/

namespace AddressCode

theorem Operand.isMissing_iff {x : Operand} : x.isMissing = true ↔ x = .missing := by
  cases x <;> simp [Operand.isMissing]

namespace Parse

variable {t : Token Word} {toks taken rest : Tokens}

/-! ## Phrases -/

/-- The token is the identifier `word`. -/
def IsWord (word : String) (t : Token Word) : Prop := t.kind = .ident ∧ t.lexeme = word

/-- The token is a number that is written with digits only and denotes `n`, which is small enough
for a count. -/
structure IsCount (t : Token Word) (n : Nat) : Prop where
  kind : t.kind = .num
  ne_nil : t.lexeme.toList ≠ []
  digits : ∀ c ∈ t.lexeme.toList, c.isDigit = true
  value : n = Nat.ofDigitChars 10 t.lexeme.toList 0
  bound : n < 2 ^ 63

/-- The lexemes of some tokens, one after the other. -/
def lexemes (run : Tokens) : String := String.join (run.map (·.lexeme))

/-- Operator tokens each of which begins where those before it end, the first one at `n`; the last
one ends at `m`. -/
inductive Touching : Nat → Tokens → Nat → Prop where
  | nil {n : Nat} : Touching n [] n
  | cons {n m : Nat} {t : Token Word} {run : Tokens} (hkind : t.kind = .op)
      (hstart : n = t.span.start) (hrun : Touching (max n t.span.stop) run m) :
      Touching n (t :: run) m

/-- A run of operator tokens that touch, and that no further one touches. -/
inductive IsOpRun : Tokens → String → Tokens → Prop where
  | mk {t : Token Word} {run rest : Tokens} {n : Nat} (hkind : t.kind = .op)
      (hrun : Touching t.span.stop run n)
      (hend : ∀ u ∈ rest.head?, u.kind = .op → n ≠ u.span.start) :
      IsOpRun (t :: run) (lexemes (t :: run)) rest

mutual

/-- The tokens of an operand, its tree and the tokens behind it. -/
inductive IsOperand : Tokens → Operand → Tokens → Prop where
  /-- nothing, at the end of the list -/
  | missing : IsOperand [] .missing []
  | literal {t : Token Word} {x : Number} {rest : Tokens} (hkind : t.kind = .num)
      (hvalue : Number.parse t.lexeme = .ok x) : IsOperand [t] (.literal x (some t.lexeme)) rest
  | variable {t : Token Word} {rest : Tokens} (hkind : t.kind = .ident)
      (hnext : ∀ u ∈ rest.head?, u.kind ≠ .lbracket) : IsOperand [t] (.variable t.lexeme) rest
  | element {t l r : Token Word} {taken rest : Tokens} {index : Expr} (hkind : t.kind = .ident)
      (hl : l.kind = .lbracket) (hindex : IsExpr taken index (r :: rest))
      (hr : r.kind = .rbracket) :
      IsOperand (t :: l :: (taken ++ [r])) (.element t.lexeme index) rest

/-- The tokens of an expression, its tree and the tokens behind it. -/
inductive IsExpr : Tokens → Expr → Tokens → Prop where
  | unary {run taken rest : Tokens} {op : String} {x : Operand}
      (hop : IsOpRun run op (taken ++ rest)) (hx : IsOperand taken x rest) :
      IsExpr (run ++ taken) (.unary op x) rest
  /-- an operator that does not begin with a lone equals sign, between two operands -/
  | binary {left run right rest : Tokens} {op : String} {x y : Operand}
      (hx : IsOperand left x (run ++ (right ++ rest))) (hpresent : x ≠ .missing)
      (hop : IsOpRun run op (right ++ rest)) (hfirst : ∀ u ∈ run.head?, u.lexeme ≠ "=")
      (hy : IsOperand right y rest) : IsExpr (left ++ (run ++ right)) (.binary op x y) rest
  /-- an operand that no operator follows, except for a lone equals sign -/
  | atomic {taken rest : Tokens} {x : Operand} (hx : IsOperand taken x rest)
      (hnext : ∀ u ∈ rest.head?, u.kind = .op → u.lexeme = "=") : IsExpr taken (.atomic x) rest

end

/-- Operator tokens made of stars, `depth` of them together. -/
inductive IsStars : Tokens → Nat → Prop where
  | nil : IsStars [] 0
  | cons {t : Token Word} {toks : Tokens} {depth : Nat} (hkind : t.kind = .op)
      (hstars : ∀ c ∈ t.lexeme.toList, c = '*') (htoks : IsStars toks depth) :
      IsStars (t :: toks) (t.lexeme.length + depth)

/-- The tokens of the target of an assignment, its tree and the tokens behind it.  There is no star
in front of an element. -/
inductive IsTarget : Tokens → Target → Tokens → Prop where
  | variable {stars rest : Tokens} {t : Token Word} {depth : Nat} (hstars : IsStars stars depth)
      (hkind : t.kind = .ident) (hnext : ∀ u ∈ rest.head?, u.kind ≠ .lbracket) :
      IsTarget (stars ++ [t]) (.variable depth t.lexeme) rest
  | element {stars taken rest : Tokens} {t l r : Token Word} {index : Expr}
      (hstars : IsStars stars 0) (hkind : t.kind = .ident) (hl : l.kind = .lbracket)
      (hindex : IsExpr taken index (r :: rest)) (hr : r.kind = .rbracket) :
      IsTarget (stars ++ t :: l :: (taken ++ [r])) (.element t.lexeme index) rest

/-! ## Forms -/

/-- The forms of instructions. -/
inductive Form where
  | ifThen
  | print
  | ret
  | goto
  | call
  | param
  | beginFunc
  | endFunc
  /-- an assignment or an expression -/
  | assign
deriving Repr, DecidableEq

namespace Form

/-- The forms, in the order in which they are tried. -/
def order : List Form :=
  [.ifThen, .print, .ret, .goto, .call, .param, .beginFunc, .endFunc, .assign]

/-- The forms of an action of an `if`. -/
def actions : List Form := order.filter fun f => f ≠ .beginFunc ∧ f ≠ .endFunc

end Form

/-- What follows the word `call`: a procedure and a count, or a result and a procedure. -/
inductive IsCallTail : Tokens → Instr → Prop where
  | counted {f c k : Token Word} {n : Nat} (hf : f.kind = .ident) (hc : c.kind = .comma)
      (hk : IsCount k n) : IsCallTail [f, c, k] (.call f.lexeme (some n) none)
  | result {r c f : Token Word} (hr : r.kind = .ident) (hc : c.kind = .comma)
      (hf : f.kind = .ident) : IsCallTail [r, c, f] (.call f.lexeme none (some r.lexeme))

/-- All of the tokens have one of the forms of an instruction. -/
inductive Derives : Form → Tokens → Instr → Prop where
  | ifThen {t : Token Word} {taken rest : Tokens} {cond : Expr} {f : Form} {action : Instr}
      (ht : IsWord "if" t) (hcond : IsExpr taken cond rest) (hrest : rest ≠ [])
      (hf : f ∈ Form.actions) (haction : Derives f rest action) :
      Derives .ifThen (t :: (taken ++ rest)) (.ifThen cond action)
  | print {t : Token Word} {taken : Tokens} {x : Expr} (ht : IsWord "print" t)
      (hx : IsExpr taken x []) : Derives .print (t :: taken) (.print x)
  | ret {t : Token Word} (ht : IsWord "return" t) : Derives .ret [t] (.ret none)
  | retWith {t : Token Word} {taken : Tokens} {x : Expr} (ht : IsWord "return" t)
      (hne : taken ≠ []) (hx : IsExpr taken x []) : Derives .ret (t :: taken) (.ret (some x))
  | goto {t l : Token Word} (ht : IsWord "goto" t) (hl : l.kind = .ident) :
      Derives .goto [t, l] (.goto l.lexeme)
  | call {t : Token Word} {tail : Tokens} {ins : Instr} (ht : IsWord "call" t)
      (htail : IsCallTail tail ins) : Derives .call (t :: tail) ins
  | param {t : Token Word} {taken : Tokens} {x : Expr} (ht : IsWord "param" t)
      (hx : IsExpr taken x []) : Derives .param (t :: taken) (.param x)
  | beginFunc {t f c k : Token Word} {n : Nat} (ht : IsWord "BeginFunc" t) (hf : f.kind = .ident)
      (hc : c.kind = .comma) (hk : IsCount k n) :
      Derives .beginFunc [t, f, c, k] (.beginFunc f.lexeme n)
  | endFunc {t : Token Word} (ht : IsWord "EndFunc" t) : Derives .endFunc [t] .endFunc
  /-- a target, the first equals sign and an expression; behind a plain variable, `call` is no
  variable -/
  | assign {left right : Tokens} {e : Token Word} {target : Target} {x : Expr}
      (htarget : IsTarget left target []) (hleft : ∀ t ∈ left, t.lexeme ≠ "=") (he : e.lexeme = "=")
      (hcall : ∀ name, target = .variable 0 name → ∀ t ∈ right.head?, ¬ IsWord "call" t)
      (hx : IsExpr right x []) : Derives .assign (left ++ e :: right) (.assign target x)
  | result {left tail : Tokens} {e c : Token Word} {name proc : String} {n : Nat}
      (htarget : IsTarget left (.variable 0 name) []) (hleft : ∀ t ∈ left, t.lexeme ≠ "=")
      (he : e.lexeme = "=") (hc : IsWord "call" c)
      (htail : IsCallTail tail (.call proc (some n) none)) :
      Derives .assign (left ++ e :: c :: tail) (.call proc (some n) (some name))
  | expression {toks : Tokens} {x : Expr} (hnone : ∀ t ∈ toks, t.lexeme ≠ "=")
      (hx : IsExpr toks x []) : Derives .assign toks (.expression x)

/-- The first of the given forms that all of the tokens have.  The action of an `if` is chosen in
the same way. -/
inductive Chosen : List Form → Tokens → Instr → Prop where
  | ifThen {t : Token Word} {taken rest : Tokens} {cond : Expr} {action : Instr} {forms : List Form}
      (ht : IsWord "if" t) (hcond : IsExpr taken cond rest) (hrest : rest ≠ [])
      (haction : Chosen Form.actions rest action) :
      Chosen (.ifThen :: forms) (t :: (taken ++ rest)) (.ifThen cond action)
  | here {f : Form} {toks : Tokens} {ins : Instr} {forms : List Form} (hf : f ≠ .ifThen)
      (h : Derives f toks ins) : Chosen (f :: forms) toks ins
  | later {f : Form} {toks : Tokens} {ins : Instr} {forms : List Form}
      (hnot : ∀ ins, ¬ Derives f toks ins) (h : Chosen forms toks ins) :
      Chosen (f :: forms) toks ins

/-! ## Recognition -/

/-- A parser takes from some tokens exactly a phrase, and there is at most one phrase to take. -/
structure Recognizes {α : Type} (p : Parser α) (phrase : Tokens → α → Tokens → Prop)
    (toks : Tokens) : Prop where
  takes : ∀ a rest, p toks = some (a, rest) ↔ ∃ taken, toks = taken ++ rest ∧ phrase taken a rest
  unique : ∀ taken rest a taken' rest' a', toks = taken ++ rest → phrase taken a rest →
    toks = taken' ++ rest' → phrase taken' a' rest' → taken = taken' ∧ a = a'

section

variable {α : Type} {p : Parser α} {phrase : Tokens → α → Tokens → Prop} {a : α}

theorem Recognizes.of_takes
    (h : ∀ a rest, p toks = some (a, rest) ↔ ∃ taken, toks = taken ++ rest ∧ phrase taken a rest) :
    Recognizes p phrase toks := by
  refine ⟨h, ?_⟩
  intro taken rest a taken' rest' a' htoks hphrase htoks' hphrase'
  have hp := (h a rest).mpr ⟨taken, htoks, hphrase⟩
  have hp' := (h a' rest').mpr ⟨taken', htoks', hphrase'⟩
  obtain ⟨rfl, rfl⟩ := Prod.mk.inj (Option.some.inj (hp.symm.trans hp'))
  exact ⟨List.append_cancel_right (htoks.symm.trans htoks'), rfl⟩

theorem complete_eq_some_iff : complete p toks = some a ↔ p toks = some (a, []) := by
  unfold complete
  split
  · next heq => rw [heq]; simp
  · next hne =>
    simp only [false_iff, reduceCtorEq]
    exact fun h => hne _ h

theorem Recognizes.complete_iff (h : Recognizes p phrase toks) :
    complete p toks = some a ↔ phrase toks a [] := by
  rw [complete_eq_some_iff, h.takes]
  simp

end

/-! ## Tokens -/

theorem keyword_eq_some_iff {word : String} :
    keyword word toks = some rest ↔ ∃ t, toks = t :: rest ∧ IsWord word t := by
  cases toks with
  | nil => simp [keyword]
  | cons t toks =>
    simp only [keyword, IsWord, Option.ite_none_right_eq_some, Option.some_inj, List.cons.injEq]
    grind

theorem keyword_eq_none_iff {word : String} :
    keyword word toks = none ↔ ∀ t ∈ toks.head?, ¬ IsWord word t := by
  cases toks <;> simp [keyword, IsWord]

theorem sign_eq_some_iff {kind : Word} :
    sign kind toks = some rest ↔ ∃ t, toks = t :: rest ∧ t.kind = kind := by
  cases toks with
  | nil => simp [sign]
  | cons t toks =>
    simp only [sign, Option.ite_none_right_eq_some, Option.some_inj, List.cons.injEq]
    grind

theorem sign_eq_none_iff {kind : Word} :
    sign kind toks = none ↔ ∀ t ∈ toks.head?, t.kind ≠ kind := by
  cases toks <;> simp [sign]

theorem ident_eq_some_iff {name : String} :
    ident toks = some (name, rest) ↔ ∃ t, toks = t :: rest ∧ t.kind = .ident ∧ t.lexeme = name := by
  cases toks with
  | nil => simp [ident]
  | cons t toks =>
    simp only [ident, Option.ite_none_right_eq_some, Option.some_inj, List.cons.injEq,
      Prod.mk.injEq]
    grind

theorem count?_eq_some_iff {s : String} {n : Nat} :
    count? s = some n ↔ s.toList ≠ [] ∧ (∀ c ∈ s.toList, c.isDigit = true) ∧
      n = Nat.ofDigitChars 10 s.toList 0 ∧ n < 2 ^ 63 := by
  have hvalue : s.toList.foldl (fun n c => n * 10 + (c.toNat - '0'.toNat)) 0 =
      Nat.ofDigitChars 10 s.toList 0 := by
    simp only [Nat.ofDigitChars_eq_foldl, Nat.mul_comm]
  simp only [count?, hvalue, ← Nat.pow_eq]
  split
  · next h =>
    simp only [reduceCtorEq, false_iff]
    rintro ⟨hne, hdigits, -⟩
    simp [hne, List.all_eq_true.mpr hdigits] at h
  · next h =>
    simp only [Bool.or_eq_true, Bool.not_eq_true', not_or, List.isEmpty_iff,
      Bool.not_eq_false, List.all_eq_true] at h
    grind

theorem integer_eq_some_iff {n : Nat} :
    integer toks = some (n, rest) ↔ ∃ t, toks = t :: rest ∧ IsCount t n := by
  cases toks with
  | nil => simp [integer]
  | cons t toks =>
    rw [integer]
    split
    · next hkind =>
      simp only [Option.map_eq_some_iff, count?_eq_some_iff]
      constructor
      · rintro ⟨m, ⟨hne, hdigits, hvalue, hbound⟩, hpair⟩
        obtain ⟨rfl, rfl⟩ := Prod.mk.inj hpair
        exact ⟨t, rfl, hkind, hne, hdigits, hvalue, hbound⟩
      · rintro ⟨u, heq, hcount⟩
        obtain ⟨rfl, rfl⟩ := List.cons.inj heq
        exact ⟨n, ⟨hcount.ne_nil, hcount.digits, hcount.value, hcount.bound⟩, rfl⟩
    · next hkind =>
      simp only [reduceCtorEq, false_iff]
      rintro ⟨u, heq, hcount⟩
      obtain ⟨rfl, rfl⟩ := List.cons.inj heq
      exact hkind hcount.kind

theorem lexemes_cons {run : Tokens} : lexemes (t :: run) = t.lexeme ++ lexemes run :=
  String.join_cons

theorem opTail_eq_iff {op op' : String} {span : Span} :
    opTail op span toks = (op', rest) ↔
      ∃ run n, toks = run ++ rest ∧ Touching span.stop run n ∧
        (∀ u ∈ rest.head?, u.kind = .op → n ≠ u.span.start) ∧ op' = op ++ lexemes run := by
  induction toks generalizing op span with
  | nil =>
    rw [opTail]
    constructor
    · rintro h
      obtain ⟨rfl, rfl⟩ := Prod.mk.inj h
      exact ⟨[], span.stop, rfl, .nil, by simp, by simp [lexemes]⟩
    · rintro ⟨run, n, htoks, -, -, rfl⟩
      obtain ⟨rfl, rfl⟩ := List.append_eq_nil_iff.mp htoks.symm
      simp [lexemes]
  | cons t toks ih =>
    rw [opTail]
    split
    · next htouch =>
      rw [ih]
      obtain ⟨hkind, hstart⟩ := htouch
      have hstart' : span.stop = t.span.start := by simpa [Span.touches] using hstart
      constructor
      · rintro ⟨run, n, rfl, hrun, hend, rfl⟩
        exact ⟨t :: run, n, rfl, .cons hkind hstart' hrun, hend,
          by rw [lexemes_cons, String.append_assoc]⟩
      · rintro ⟨run, n, htoks, hrun, hend, rfl⟩
        cases hrun with
        | nil =>
          subst htoks
          exact absurd hstart' (hend t rfl hkind)
        | cons hkind' _ hrun =>
          obtain ⟨rfl, rfl⟩ := List.cons.inj htoks
          exact ⟨_, n, rfl, hrun, hend, by rw [lexemes_cons, String.append_assoc]⟩
    · next hnot =>
      constructor
      · intro h
        obtain ⟨rfl, rfl⟩ := Prod.mk.inj h
        refine ⟨[], span.stop, rfl, .nil, ?_, by simp [lexemes]⟩
        rintro u ⟨⟩ hkind hstart
        exact hnot ⟨hkind, by simpa [Span.touches] using hstart⟩
      · rintro ⟨run, n, htoks, hrun, hend, rfl⟩
        cases hrun with
        | nil =>
          subst htoks
          simp [lexemes]
        | cons hkind hstart hrun =>
          obtain ⟨rfl, rfl⟩ := List.cons.inj htoks
          exact absurd ⟨hkind, by simpa [Span.touches] using hstart⟩ hnot

theorem opRun_eq_some_iff {op : String} :
    opRun toks = some (op, rest) ↔ ∃ run, toks = run ++ rest ∧ IsOpRun run op rest := by
  cases toks with
  | nil =>
    simp only [opRun, reduceCtorEq, false_iff]
    rintro ⟨run, htoks, hrun⟩
    cases hrun
    cases htoks
  | cons t toks =>
    rw [opRun]
    split
    · next hkind =>
      rw [Option.some_inj, opTail_eq_iff]
      constructor
      · rintro ⟨run, n, rfl, hrun, hend, rfl⟩
        rw [← lexemes_cons]
        exact ⟨t :: run, rfl, .mk hkind hrun hend⟩
      · rintro ⟨_, htoks, hrun⟩
        cases hrun with
        | mk _ hrun hend =>
          obtain ⟨rfl, rfl⟩ := List.cons.inj htoks
          exact ⟨_, _, rfl, hrun, hend, lexemes_cons⟩
    · next hkind =>
      simp only [reduceCtorEq, false_iff]
      rintro ⟨_, htoks, hrun⟩
      cases hrun with
      | mk hkind' _ _ =>
        obtain ⟨rfl, -⟩ := List.cons.inj htoks
        exact hkind hkind'

theorem opRun_eq_none_iff : opRun toks = none ↔ ∀ t ∈ toks.head?, t.kind ≠ .op := by
  cases toks <;> simp [opRun]

/-! ## Expressions -/

theorem isOperand_of_operandWith {index : Parser Expr} {x : Operand}
    (hindex : ∀ us : Tokens, us.length < toks.length → Recognizes index IsExpr us)
    (h : operandWith index toks = some (x, rest)) :
    ∃ taken, toks = taken ++ rest ∧ IsOperand taken x rest := by
  cases toks with
  | nil =>
    obtain ⟨rfl, rfl⟩ := Prod.mk.inj (Option.some.inj h)
    exact ⟨[], rfl, .missing⟩
  | cons t toks =>
    simp only [operandWith] at h
    split at h
    · next hkind =>
      split at h
      · next hvalue =>
        obtain ⟨rfl, rfl⟩ := Prod.mk.inj (Option.some.inj h)
        exact ⟨[t], rfl, .literal hkind hvalue⟩
      · cases h
    · next hkind =>
      split at h
      · next hnext =>
        obtain ⟨rfl, rfl⟩ := Prod.mk.inj (Option.some.inj h)
        exact ⟨[t], rfl, .variable hkind (sign_eq_none_iff.mp hnext)⟩
      · next hsign =>
        obtain ⟨l, rfl, hl⟩ := sign_eq_some_iff.mp hsign
        split at h
        · cases h
        · next hread =>
          split at h
          · cases h
          · next hsign' =>
            obtain ⟨rfl, rfl⟩ := Prod.mk.inj (Option.some.inj h)
            obtain ⟨r, rfl, hr⟩ := sign_eq_some_iff.mp hsign'
            have hless : ∀ us : Tokens, us.length < (t :: l :: us).length := by
              intro us
              simp only [List.length_cons]
              omega
            obtain ⟨taken, rfl, htaken⟩ := ((hindex _ (hless _)).takes _ _).mp hread
            exact ⟨t :: l :: (taken ++ [r]), by simp, .element hkind hl htaken hr⟩
    · cases h

theorem operandWith_of_isOperand {index : Parser Expr} {x : Operand}
    (hindex : ∀ us : Tokens, us.length < (taken ++ rest).length → Recognizes index IsExpr us)
    (h : IsOperand taken x rest) : operandWith index (taken ++ rest) = some (x, rest) := by
  cases h with
  | missing => rfl
  | literal hkind hvalue => simp [operandWith, hkind, hvalue]
  | «variable» hkind hnext => simp [operandWith, hkind, sign_eq_none_iff.mpr hnext]
  | @element t l r taken rest i hkind hl hi hr =>
    have hless : (taken ++ r :: rest).length < (t :: l :: (taken ++ [r]) ++ rest).length := by
      simp only [List.length_append, List.length_cons, List.length_nil]
      omega
    have hread : index (taken ++ r :: rest) = some (i, r :: rest) :=
      ((hindex _ hless).takes _ _).mpr ⟨taken, rfl, hi⟩
    simp [operandWith, sign, hkind, hl, hread, hr]

/-- Operands are recognized if their indices are. -/
theorem recognizes_operandWith {index : Parser Expr}
    (hindex : ∀ us : Tokens, us.length < toks.length → Recognizes index IsExpr us) :
    Recognizes (operandWith index) IsOperand toks := by
  refine .of_takes fun x rest => ⟨isOperand_of_operandWith hindex, ?_⟩
  rintro ⟨taken, rfl, h⟩
  exact operandWith_of_isOperand hindex h

theorem startsOperator_eq_false_iff :
    startsOperator toks = false ↔ ∀ u ∈ toks.head?, u.kind = .op → u.lexeme = "=" := by
  cases toks <;> simp [startsOperator]

/-- An operand does not begin with an operator. -/
theorem IsOperand.head?_ne_op {x : Operand} (h : IsOperand taken x rest) :
    ∀ t ∈ (taken ++ rest).head?, t.kind ≠ .op := by
  cases h <;> simp_all

theorem isExpr_of_exprWith {operand : Parser Operand} {x : Expr}
    (hoperand : ∀ us : Tokens, us.length ≤ toks.length → Recognizes operand IsOperand us)
    (h : exprWith operand toks = some (x, rest)) :
    ∃ taken, toks = taken ++ rest ∧ IsExpr taken x rest := by
  unfold exprWith at h
  split at h
  · next hrun =>
    obtain ⟨run, rfl, hop⟩ := opRun_eq_some_iff.mp hrun
    split at h
    · next hread =>
      obtain ⟨rfl, rfl⟩ := Prod.mk.inj (Option.some.inj h)
      obtain ⟨taken, rfl, hx⟩ := ((hoperand _ (by simp)).takes _ _).mp hread
      exact ⟨run ++ taken, by simp, .unary hop hx⟩
    · cases h
  · next hnone =>
    split at h
    · cases h
    · next x right hread =>
      obtain ⟨left, rfl, hx⟩ := ((hoperand _ (Nat.le_refl _)).takes _ _).mp hread
      split at h
      · next hcond =>
        obtain ⟨hpresent, hstart⟩ := Bool.and_eq_true_iff.mp hcond
        split at h
        · cases h
        · next hrun =>
          obtain ⟨run, rfl, hop⟩ := opRun_eq_some_iff.mp hrun
          split at h
          · next hread' =>
            obtain ⟨rfl, rfl⟩ := Prod.mk.inj (Option.some.inj h)
            obtain ⟨right, rfl, hy⟩ := ((hoperand _ (by simp; omega)).takes _ _).mp hread'
            refine ⟨left ++ (run ++ right), by simp, .binary hx ?_ hop ?_ hy⟩
            · rintro rfl
              cases hpresent
            · cases hop
              rintro u ⟨⟩
              simp only [startsOperator, List.cons_append, Bool.and_eq_true, bne_iff_ne] at hstart
              exact hstart.2
          · cases h
      · next hcond =>
        obtain ⟨rfl, rfl⟩ := Prod.mk.inj (Option.some.inj h)
        refine ⟨left, rfl, .atomic hx ?_⟩
        -- a missing operand ends the line, and any other one is followed by no operator
        cases hx with
        | missing => simp
        | literal => exact startsOperator_eq_false_iff.mp (by simpa [Operand.isMissing] using hcond)
        | «variable» =>
          exact startsOperator_eq_false_iff.mp (by simpa [Operand.isMissing] using hcond)
        | element => exact startsOperator_eq_false_iff.mp (by simpa [Operand.isMissing] using hcond)

theorem exprWith_of_isExpr {operand : Parser Operand} {x : Expr}
    (hoperand : ∀ us : Tokens, us.length ≤ (taken ++ rest).length → Recognizes operand IsOperand us)
    (h : IsExpr taken x rest) : exprWith operand (taken ++ rest) = some (x, rest) := by
  cases h with
  | @unary run taken _ op y hop hy =>
    have hrun : opRun (run ++ (taken ++ rest)) = some (op, taken ++ rest) :=
      opRun_eq_some_iff.mpr ⟨run, rfl, hop⟩
    have hread : operand (taken ++ rest) = some (y, rest) :=
      ((hoperand _ (by simp)).takes _ _).mpr ⟨taken, rfl, hy⟩
    simp [exprWith, hrun, hread]
  | @binary left run right _ op x y hx hpresent hop hfirst hy =>
    have hrun : opRun (run ++ (right ++ rest)) = some (op, right ++ rest) :=
      opRun_eq_some_iff.mpr ⟨run, rfl, hop⟩
    have hread : operand (left ++ (run ++ (right ++ rest))) = some (x, run ++ (right ++ rest)) :=
      ((hoperand _ (by simp)).takes _ _).mpr ⟨left, rfl, hx⟩
    have hread' : operand (right ++ rest) = some (y, rest) :=
      ((hoperand _ (by simp; omega)).takes _ _).mpr ⟨right, rfl, hy⟩
    have hnone : opRun (left ++ (run ++ (right ++ rest))) = none :=
      opRun_eq_none_iff.mpr hx.head?_ne_op
    have hstart : startsOperator (run ++ (right ++ rest)) = true := by
      cases hop with
      | mk hkind _ _ => simp [startsOperator, hkind, hfirst _ rfl]
    have hmissing : x.isMissing = false := by
      simpa [← Operand.isMissing_iff] using hpresent
    simp [exprWith, hnone, hread, hmissing, hstart, hrun, hread']
  | @atomic _ _ x hx hnext =>
    have hread : operand (taken ++ rest) = some (x, rest) :=
      ((hoperand _ (Nat.le_refl _)).takes _ _).mpr ⟨taken, rfl, hx⟩
    have hnone : opRun (taken ++ rest) = none := opRun_eq_none_iff.mpr hx.head?_ne_op
    simp [exprWith, hnone, hread, startsOperator_eq_false_iff.mpr hnext]

/-- Expressions are recognized if their operands are. -/
theorem recognizes_exprWith {operand : Parser Operand}
    (hoperand : ∀ us : Tokens, us.length ≤ toks.length → Recognizes operand IsOperand us) :
    Recognizes (exprWith operand) IsExpr toks := by
  refine .of_takes fun x rest => ⟨isExpr_of_exprWith hoperand, ?_⟩
  rintro ⟨taken, rfl, h⟩
  exact exprWith_of_isExpr hoperand h

/-- Operands are recognized if there are at most as many tokens as brackets are allowed inside each
other. -/
theorem recognizes_operand {depth : Nat} (hdepth : toks.length ≤ depth) :
    Recognizes (operand depth) IsOperand toks := by
  induction depth generalizing toks with
  | zero => exact recognizes_operandWith fun us hus => absurd hus (by omega)
  | succ depth ih =>
    refine recognizes_operandWith fun us hus => ?_
    exact recognizes_exprWith fun vs hvs => ih (by omega)

theorem recognizes_expr : Recognizes expr IsExpr toks :=
  ⟨(recognizes_exprWith fun _ h => recognizes_operand h).takes,
    (recognizes_exprWith fun _ h => recognizes_operand h).unique⟩

theorem IsExpr.unique {taken' rest' : Tokens} {x y : Expr} (h : IsExpr taken x rest)
    (h' : IsExpr taken' y rest') (htoks : taken ++ rest = taken' ++ rest') :
    taken = taken' ∧ rest = rest' := by
  obtain ⟨rfl, -⟩ := recognizes_expr.unique _ _ _ _ _ _ rfl h htoks h'
  exact ⟨rfl, List.append_cancel_left htoks⟩

/-! ## Targets -/

theorem stars_eq_some_iff {depth depth' : Nat} :
    stars depth toks = some (depth', rest) ↔ ∃ taken n, toks = taken ++ rest ∧ IsStars taken n ∧
      depth' = depth + n ∧ ∀ t ∈ rest.head?, t.kind ≠ .op := by
  induction toks generalizing depth with
  | nil =>
    simp only [stars, Option.some_inj, Prod.mk.injEq]
    constructor
    · rintro ⟨rfl, rfl⟩
      exact ⟨[], 0, rfl, .nil, rfl, by simp⟩
    · rintro ⟨taken, n, htoks, hstars, rfl, -⟩
      obtain ⟨rfl, rfl⟩ := List.append_eq_nil_iff.mp htoks.symm
      cases hstars
      exact ⟨rfl, rfl⟩
  | cons t toks ih =>
    rw [stars]
    split
    · next hkind =>
      constructor
      · intro h
        obtain ⟨hall, h⟩ := Option.ite_none_right_eq_some.mp h
        obtain ⟨taken, n, rfl, hstars, rfl, hrest⟩ := ih.mp h
        refine ⟨t :: taken, t.lexeme.length + n, rfl, .cons hkind ?_ hstars, by omega, hrest⟩
        simpa using hall
      · rintro ⟨taken, n, htoks, hstars, rfl, hrest⟩
        cases hstars with
        | nil =>
          subst htoks
          exact absurd hkind (hrest t rfl)
        | cons _ hall hstars =>
          obtain ⟨rfl, rfl⟩ := List.cons.inj htoks
          rw [if_pos (by simpa using hall)]
          exact ih.mpr ⟨_, _, rfl, hstars, by omega, hrest⟩
    · next hkind =>
      simp only [Option.some_inj, Prod.mk.injEq]
      constructor
      · rintro ⟨rfl, rfl⟩
        exact ⟨[], 0, rfl, .nil, rfl, by simpa using hkind⟩
      · rintro ⟨taken, n, htoks, hstars, rfl, hrest⟩
        cases hstars with
        | nil => exact ⟨rfl, htoks⟩
        | cons hkind' _ _ =>
          obtain ⟨rfl, -⟩ := List.cons.inj htoks
          exact absurd hkind' hkind

theorem isTarget_of_target {x : Target} (h : target toks = some (x, rest)) :
    ∃ taken, toks = taken ++ rest ∧ IsTarget taken x rest := by
  unfold target at h
  split at h
  · cases h
  · next hread =>
    obtain ⟨stars, depth, rfl, hstars, hdepth, -⟩ := stars_eq_some_iff.mp hread
    rw [Nat.zero_add] at hdepth
    subst hdepth
    split at h
    · cases h
    · next hident =>
      obtain ⟨t, rfl, hkind, rfl⟩ := ident_eq_some_iff.mp hident
      split at h
      · next hnext =>
        obtain ⟨rfl, rfl⟩ := Prod.mk.inj (Option.some.inj h)
        exact ⟨stars ++ [t], by simp, .variable hstars hkind (sign_eq_none_iff.mp hnext)⟩
      · next hsign =>
        obtain ⟨l, rfl, hl⟩ := sign_eq_some_iff.mp hsign
        split at h
        · cases h
        · next hzero =>
          obtain rfl := Decidable.not_not.mp hzero
          split at h
          · cases h
          · next hindex =>
            split at h
            · cases h
            · next hsign' =>
              obtain ⟨rfl, rfl⟩ := Prod.mk.inj (Option.some.inj h)
              obtain ⟨r, rfl, hr⟩ := sign_eq_some_iff.mp hsign'
              obtain ⟨taken, rfl, htaken⟩ := (recognizes_expr.takes _ _).mp hindex
              exact ⟨stars ++ t :: l :: (taken ++ [r]), by simp,
                .element hstars hkind hl htaken hr⟩

theorem target_of_isTarget {x : Target} (h : IsTarget taken x rest) :
    target (taken ++ rest) = some (x, rest) := by
  cases h with
  | @«variable» ss _ t depth hstars hkind hnext =>
    have hread : stars 0 (ss ++ t :: rest) = some (depth, t :: rest) :=
      stars_eq_some_iff.mpr ⟨ss, depth, rfl, hstars, by simp, by simp [hkind]⟩
    simp [target, hread, ident, hkind, sign_eq_none_iff.mpr hnext]
  | @element ss taken _ t l r index hstars hkind hl hindex hr =>
    have hread : stars 0 (ss ++ t :: l :: (taken ++ r :: rest)) =
        some (0, t :: l :: (taken ++ r :: rest)) :=
      stars_eq_some_iff.mpr ⟨ss, 0, rfl, hstars, by simp, by simp [hkind]⟩
    have hread' : expr (taken ++ r :: rest) = some (index, r :: rest) :=
      (recognizes_expr.takes _ _).mpr ⟨taken, rfl, hindex⟩
    simp [target, hread, ident, hkind, sign, hl, hread', hr]

theorem recognizes_target : Recognizes target IsTarget toks := by
  refine .of_takes fun x rest => ⟨isTarget_of_target, ?_⟩
  rintro ⟨taken, rfl, h⟩
  exact target_of_isTarget h

/-! ## Instructions -/

theorem complete_callTail_iff {ins : Instr} :
    complete callTail toks = some ins ↔ IsCallTail toks ins := by
  rw [complete_eq_some_iff]
  constructor
  · intro h
    unfold callTail at h
    split at h
    · cases h
    · next hident =>
      obtain ⟨f, rfl, hf, rfl⟩ := ident_eq_some_iff.mp hident
      split at h
      · cases h
      · next hsign =>
        obtain ⟨c, rfl, hc⟩ := sign_eq_some_iff.mp hsign
        split at h
        · next hint =>
          obtain ⟨rfl, rfl⟩ := Prod.mk.inj (Option.some.inj h)
          obtain ⟨k, rfl, hk⟩ := integer_eq_some_iff.mp hint
          exact .counted hf hc hk
        · next hint =>
          split at h
          · next hident' =>
            obtain ⟨rfl, rfl⟩ := Prod.mk.inj (Option.some.inj h)
            obtain ⟨g, rfl, hg, rfl⟩ := ident_eq_some_iff.mp hident'
            exact .result hf hc hg
          · cases h
  · intro h
    cases h with
    | @counted f c k n hf hc hk =>
      have hint : integer [k] = some (n, []) := integer_eq_some_iff.mpr ⟨k, rfl, hk⟩
      simp [callTail, ident, sign, hf, hc, hint]
    | result hr hc hf => simp [callTail, ident, sign, integer, hr, hc, hf]

theorem wordForm_eq_some_iff {word : String} {f : Expr → Instr} {ins : Instr} :
    wordForm word f toks = some ins ↔
      ∃ t taken x, toks = t :: taken ∧ IsWord word t ∧ IsExpr taken x [] ∧ ins = f x := by
  simp only [wordForm, Option.bind_eq_some_iff, keyword_eq_some_iff, Option.map_eq_some_iff,
    recognizes_expr.complete_iff]
  constructor
  · rintro ⟨taken, ⟨t, rfl, ht⟩, x, hx, rfl⟩
    exact ⟨t, taken, x, rfl, ht, hx, rfl⟩
  · rintro ⟨t, taken, x, rfl, ht, hx, rfl⟩
    exact ⟨taken, ⟨t, rfl, ht⟩, x, hx, rfl⟩

theorem returnForm_eq_some_iff {ins : Instr} :
    returnForm toks = some ins ↔ Derives .ret toks ins := by
  simp only [returnForm, Option.bind_eq_some_iff, keyword_eq_some_iff]
  constructor
  · rintro ⟨taken, ⟨t, rfl, ht⟩, h⟩
    split at h
    · next hempty =>
      obtain rfl := List.isEmpty_iff.mp hempty
      obtain rfl := Option.some.inj h
      exact .ret ht
    · next hempty =>
      obtain ⟨x, hx, rfl⟩ := Option.map_eq_some_iff.mp h
      exact .retWith ht (by simpa using hempty) (recognizes_expr.complete_iff.mp hx)
  · intro h
    cases h with
    | ret ht => exact ⟨[], ⟨_, rfl, ht⟩, rfl⟩
    | @retWith t taken x ht hne hx =>
      refine ⟨taken, ⟨t, rfl, ht⟩, ?_⟩
      simp [hne, recognizes_expr.complete_iff.mpr hx]

theorem gotoForm_eq_some_iff {ins : Instr} :
    gotoForm toks = some ins ↔ Derives .goto toks ins := by
  simp only [gotoForm, Option.bind_eq_some_iff, keyword_eq_some_iff, Option.map_eq_some_iff,
    complete_eq_some_iff, ident_eq_some_iff]
  constructor
  · rintro ⟨_, ⟨t, rfl, ht⟩, _, ⟨l, rfl, hl, rfl⟩, rfl⟩
    exact .goto ht hl
  · intro h
    cases h with
    | @goto t l ht hl => exact ⟨[l], ⟨t, rfl, ht⟩, l.lexeme, ⟨l, rfl, hl, rfl⟩, rfl⟩

theorem callForm_eq_some_iff {ins : Instr} :
    callForm toks = some ins ↔ Derives .call toks ins := by
  simp only [callForm, Option.bind_eq_some_iff, keyword_eq_some_iff, complete_callTail_iff]
  constructor
  · rintro ⟨tail, ⟨t, rfl, ht⟩, htail⟩
    exact .call ht htail
  · intro h
    cases h with
    | @call t tail _ ht htail => exact ⟨tail, ⟨t, rfl, ht⟩, htail⟩

theorem beginFuncForm_eq_some_iff {ins : Instr} :
    beginFuncForm toks = some ins ↔ Derives .beginFunc toks ins := by
  simp only [beginFuncForm, Option.bind_eq_some_iff, keyword_eq_some_iff]
  constructor
  · rintro ⟨_, ⟨t, rfl, ht⟩, h⟩
    split at h
    · cases h
    · next hident =>
      obtain ⟨f, rfl, hf, rfl⟩ := ident_eq_some_iff.mp hident
      obtain ⟨_, hsign, hmap⟩ := Option.bind_eq_some_iff.mp h
      obtain ⟨c, rfl, hc⟩ := sign_eq_some_iff.mp hsign
      obtain ⟨n, hint, rfl⟩ := Option.map_eq_some_iff.mp hmap
      obtain ⟨k, rfl, hk⟩ := integer_eq_some_iff.mp (complete_eq_some_iff.mp hint)
      exact .beginFunc ht hf hc hk
  · intro h
    cases h with
    | @beginFunc t f c k n ht hf hc hk =>
      have hint : complete integer [k] = some n :=
        complete_eq_some_iff.mpr (integer_eq_some_iff.mpr ⟨k, rfl, hk⟩)
      exact ⟨[f, c, k], ⟨t, rfl, ht⟩, by simp [ident, sign, hf, hc, hint]⟩

theorem endFuncForm_eq_some_iff {ins : Instr} :
    endFuncForm toks = some ins ↔ Derives .endFunc toks ins := by
  simp only [endFuncForm, Option.bind_eq_some_iff, keyword_eq_some_iff,
    Option.ite_none_right_eq_some, List.isEmpty_iff, Option.some_inj]
  constructor
  · rintro ⟨_, ⟨t, rfl, ht⟩, rfl, rfl⟩
    exact .endFunc ht
  · intro h
    cases h with
    | @endFunc t ht => exact ⟨[], ⟨t, rfl, ht⟩, rfl, rfl⟩

/-- What stands to the right of an equals sign is an expression or, behind a plain variable, a call
with a count. -/
theorem assigned_eq_some_iff {x : Target} {ins : Instr} :
    assigned x toks = some ins ↔
      (∃ y, IsExpr toks y [] ∧ ins = .assign x y ∧
        ∀ name, x = .variable 0 name → ∀ t ∈ toks.head?, ¬ IsWord "call" t) ∨
      ∃ name c tail proc n, x = .variable 0 name ∧ toks = c :: tail ∧ IsWord "call" c ∧
        IsCallTail tail (.call proc (some n) none) ∧ ins = .call proc (some n) (some name) := by
  constructor
  · intro h
    unfold assigned at h
    split at h
    · next name =>
      split at h
      · next hcall =>
        obtain ⟨c, rfl, hc⟩ := keyword_eq_some_iff.mp hcall
        split at h
        · next proc count htail =>
          obtain rfl := Option.some.inj h
          have htail' := complete_callTail_iff.mp htail
          cases count with
          | some n => exact Or.inr ⟨name, c, _, proc, n, rfl, rfl, hc, htail', rfl⟩
          | none => cases htail'
        · cases h
      · next hcall =>
        obtain ⟨y, hy, rfl⟩ := Option.map_eq_some_iff.mp h
        exact Or.inl ⟨y, recognizes_expr.complete_iff.mp hy, rfl,
          fun _ _ => keyword_eq_none_iff.mp hcall⟩
    · next hplain =>
      obtain ⟨y, hy, rfl⟩ := Option.map_eq_some_iff.mp h
      exact Or.inl ⟨y, recognizes_expr.complete_iff.mp hy, rfl,
        fun name hname => absurd hname (hplain name)⟩
  · rintro (⟨y, hy, rfl, hcall⟩ | ⟨name, c, tail, proc, n, rfl, rfl, hc, htail, rfl⟩)
    · have hread := recognizes_expr.complete_iff.mpr hy
      unfold assigned
      split
      · next name =>
        rw [keyword_eq_none_iff.mpr (hcall name rfl)]
        simp [hread]
      · simp [hread]
    · have hcall : keyword "call" (c :: tail) = some tail := keyword_eq_some_iff.mpr ⟨c, rfl, hc⟩
      simp [assigned, hcall, complete_callTail_iff.mpr htail]

theorem assignForm_eq_some_iff {ins : Instr} :
    assignForm toks = some ins ↔ Derives .assign toks ins := by
  constructor
  · intro h
    unfold assignForm at h
    split at h
    · next hnone =>
      obtain ⟨x, hx, rfl⟩ := Option.map_eq_some_iff.mp h
      refine .expression ?_ (recognizes_expr.complete_iff.mp hx)
      simpa using List.dropWhile_eq_nil_iff.mp hnone
    · next e right hdrop =>
      obtain ⟨target, htarget, h⟩ := Option.bind_eq_some_iff.mp h
      replace htarget := recognizes_target.complete_iff.mp htarget
      have hleft : ∀ t ∈ toks.takeWhile (·.lexeme != "="), t.lexeme ≠ "=" := by
        intro t ht
        simpa using List.mem_takeWhile_imp ht
      have he : e.lexeme = "=" := by
        have hhead := List.head_dropWhile_not (fun t : Token Word => t.lexeme != "=") (l := toks)
          (by simp [hdrop])
        simpa [hdrop] using hhead
      rw [← List.takeWhile_append_dropWhile (p := fun t => t.lexeme != "=") (l := toks), hdrop]
      rcases assigned_eq_some_iff.mp h with
        ⟨y, hy, rfl, hcall⟩ | ⟨name, c, tail, proc, n, rfl, rfl, hc, htail, rfl⟩
      · exact .assign htarget hleft he hcall hy
      · exact .result htarget hleft he hc htail
  · have hsplit : ∀ (right : Tokens) {left : Tokens} {e : Token Word},
        (∀ t ∈ left, t.lexeme ≠ "=") → e.lexeme = "=" →
        (left ++ e :: right).takeWhile (·.lexeme != "=") = left ∧
          (left ++ e :: right).dropWhile (·.lexeme != "=") = e :: right := by
      intro right left e hleft he
      have hall : ∀ t ∈ left, (t.lexeme != "=") = true := by simpa using hleft
      rw [List.takeWhile_append_of_pos hall, List.dropWhile_append_of_pos hall]
      simp [he]
    intro h
    cases h with
    | @assign left right e target x htarget hleft he hcall hx =>
      obtain ⟨htake, hdrop⟩ := hsplit right hleft he
      have hread := assigned_eq_some_iff.mpr (Or.inl ⟨x, hx, rfl, hcall⟩)
      simp [assignForm, hdrop, htake, recognizes_target.complete_iff.mpr htarget, hread]
    | @result left tail e c name proc n htarget hleft he hc htail =>
      obtain ⟨htake, hdrop⟩ := hsplit (c :: tail) hleft he
      have hread := assigned_eq_some_iff.mpr
        (Or.inr ⟨name, c, tail, proc, n, rfl, rfl, hc, htail, rfl⟩)
      simp [assignForm, hdrop, htake, recognizes_target.complete_iff.mpr htarget, hread]
    | @expression _ x hnone hx =>
      have hdrop : toks.dropWhile (·.lexeme != "=") = [] :=
        List.dropWhile_eq_nil_iff.mpr (by simpa using hnone)
      simp [assignForm, hdrop, recognizes_expr.complete_iff.mpr hx]

/-! ## The choice of a form -/

/-- The parser of a form, in which the action of an `if` is read by `action`. -/
def Form.read (action : Tokens → Option Instr) : Form → Tokens → Option Instr
  | .ifThen => ifForm action
  | .print => wordForm "print" .print
  | .ret => returnForm
  | .goto => gotoForm
  | .call => callForm
  | .param => wordForm "param" .param
  | .beginFunc => beginFuncForm
  | .endFunc => endFuncForm
  | .assign => assignForm

variable {ins : Instr} {action : Tokens → Option Instr} {f : Form} {forms : List Form}

theorem Form.read_eq_some_iff (hf : f ≠ .ifThen) :
    f.read action toks = some ins ↔ Derives f toks ins := by
  cases f with
  | ifThen => exact absurd rfl hf
  | print =>
    simp only [Form.read, wordForm_eq_some_iff]
    constructor
    · rintro ⟨t, taken, x, rfl, ht, hx, rfl⟩
      exact .print ht hx
    · intro h
      cases h with
      | @print t taken x ht hx => exact ⟨t, taken, x, rfl, ht, hx, rfl⟩
  | ret => exact returnForm_eq_some_iff
  | goto => exact gotoForm_eq_some_iff
  | call => exact callForm_eq_some_iff
  | param =>
    simp only [Form.read, wordForm_eq_some_iff]
    constructor
    · rintro ⟨t, taken, x, rfl, ht, hx, rfl⟩
      exact .param ht hx
    · intro h
      cases h with
      | @param t taken x ht hx => exact ⟨t, taken, x, rfl, ht, hx, rfl⟩
  | beginFunc => exact beginFuncForm_eq_some_iff
  | endFunc => exact endFuncForm_eq_some_iff
  | assign => exact assignForm_eq_some_iff

theorem ifForm_eq_some_iff :
    ifForm action toks = some ins ↔ ∃ t taken rest cond a, toks = t :: (taken ++ rest) ∧
      IsWord "if" t ∧ IsExpr taken cond rest ∧ rest ≠ [] ∧ action rest = some a ∧
      ins = .ifThen cond a := by
  simp only [ifForm, Option.bind_eq_some_iff, keyword_eq_some_iff]
  constructor
  · rintro ⟨_, ⟨t, rfl, ht⟩, h⟩
    split at h
    · cases h
    · next cond rest hread =>
      obtain ⟨taken, rfl, hcond⟩ := (recognizes_expr.takes _ _).mp hread
      obtain ⟨hrest, h⟩ := Option.ite_none_left_eq_some.mp h
      obtain ⟨a, ha, rfl⟩ := Option.map_eq_some_iff.mp h
      exact ⟨t, taken, rest, cond, a, rfl, ht, hcond, by simpa using hrest, ha, rfl⟩
  · rintro ⟨t, taken, rest, cond, a, rfl, ht, hcond, hrest, ha, rfl⟩
    have hread : expr (taken ++ rest) = some (cond, rest) :=
      (recognizes_expr.takes _ _).mpr ⟨taken, rfl, hcond⟩
    exact ⟨_, ⟨t, rfl, ht⟩, by simp [hread, hrest, ha]⟩

/-- The chosen form is one that the tokens have. -/
theorem Chosen.derives (h : Chosen forms toks ins) : ∃ f ∈ forms, Derives f toks ins := by
  induction h with
  | ifThen ht hcond hrest _ ih =>
    obtain ⟨f, hf, haction⟩ := ih
    exact ⟨_, List.mem_cons_self, .ifThen ht hcond hrest hf haction⟩
  | here _ h => exact ⟨_, List.mem_cons_self, h⟩
  | later _ _ ih =>
    obtain ⟨f, hf, h⟩ := ih
    exact ⟨f, List.mem_cons_of_mem _ hf, h⟩

/-- What is left behind a word and a phrase is shorter. -/
theorem length_rest_lt (t : Token Word) (taken rest : Tokens) :
    rest.length < (t :: (taken ++ rest)).length := by
  rw [List.length_cons, List.length_append]
  omega

/-- A form is chosen if there is one to choose. -/
theorem exists_chosen (hf : f ∈ forms) (h : Derives f toks ins) : ∃ a, Chosen forms toks a := by
  -- on the number of tokens, since another form than `f` may come first, with an action of its own
  induction hn : toks.length using Nat.strong_induction_on generalizing toks f ins forms with
  | _ n ih =>
    induction forms with
    | nil => cases hf
    | cons g forms ihforms =>
      by_cases hg : ∃ a, Derives g toks a
      · obtain ⟨a, ha⟩ := hg
        by_cases hif : g = .ifThen
        · subst hif
          cases ha with
          | ifThen ht hcond hrest hmem haction =>
            obtain ⟨a, ha⟩ := ih _ (hn ▸ length_rest_lt ..) hmem haction rfl
            exact ⟨_, .ifThen ht hcond hrest ha⟩
        · exact ⟨a, .here hif ha⟩
      · have hnot : ∀ a, ¬ Derives g toks a := fun a ha => hg ⟨a, ha⟩
        rcases List.mem_cons.mp hf with rfl | hmem
        · exact absurd h (hnot ins)
        · obtain ⟨a, ha⟩ := ihforms hmem
          exact ⟨a, .later hnot ha⟩

section

variable (haction : ∀ us : Tokens, us.length < toks.length →
  ∀ a, action us = some a ↔ Chosen Form.actions us a)

include haction

/-- Nothing is read by a form if and only if the tokens do not have it. -/
theorem Form.read_eq_none_iff : f.read action toks = none ↔ ∀ a, ¬ Derives f toks a := by
  constructor
  · intro hnone a ha
    by_cases hf : f = .ifThen
    · subst hf
      cases ha with
      | ifThen ht hcond hrest hmem hderives =>
        obtain ⟨b, hb⟩ := exists_chosen hmem hderives
        have hread := ifForm_eq_some_iff.mpr
          ⟨_, _, _, _, b, rfl, ht, hcond, hrest, (haction _ (length_rest_lt ..) b).mpr hb, rfl⟩
        cases hnone.symm.trans hread
    · cases hnone.symm.trans ((Form.read_eq_some_iff hf).mpr ha)
  · intro hnot
    rw [Option.eq_none_iff_forall_ne_some]
    intro a hread
    by_cases hf : f = .ifThen
    · subst hf
      obtain ⟨t, taken, rest, cond, b, rfl, ht, hcond, hrest, hb, rfl⟩ :=
        ifForm_eq_some_iff.mp hread
      obtain ⟨g, hg, hderives⟩ := ((haction _ (length_rest_lt ..) b).mp hb).derives
      exact hnot _ (.ifThen ht hcond hrest hg hderives)
    · exact hnot a ((Form.read_eq_some_iff hf).mp hread)

/-- The first form is chosen if it reads something, and one of the others if not. -/
theorem chosen_cons_iff :
    Chosen (f :: forms) toks ins ↔
      f.read action toks = some ins ∨ f.read action toks = none ∧ Chosen forms toks ins := by
  constructor
  · intro h
    cases h with
    | ifThen ht hcond hrest h =>
      exact Or.inl (ifForm_eq_some_iff.mpr
        ⟨_, _, _, _, _, rfl, ht, hcond, hrest, (haction _ (length_rest_lt ..) _).mpr h, rfl⟩)
    | here hf h => exact Or.inl ((Form.read_eq_some_iff hf).mpr h)
    | later hnot h => exact Or.inr ⟨(Form.read_eq_none_iff haction).mpr hnot, h⟩
  · rintro (hread | ⟨hnone, h⟩)
    · by_cases hf : f = .ifThen
      · subst hf
        obtain ⟨t, taken, rest, cond, a, rfl, ht, hcond, hrest, ha, rfl⟩ :=
          ifForm_eq_some_iff.mp hread
        exact .ifThen ht hcond hrest ((haction _ (length_rest_lt ..) a).mp ha)
      · exact .here hf ((Form.read_eq_some_iff hf).mp hread)
    · exact .later ((Form.read_eq_none_iff haction).mp hnone) h

/-- Trying some forms in turn chooses one, if this is so of the actions inside. -/
theorem findSome?_read_iff :
    forms.findSome? (·.read action toks) = some ins ↔ Chosen forms toks ins := by
  induction forms with
  | nil =>
    simp only [List.findSome?_nil, reduceCtorEq, false_iff]
    intro h
    cases h
  | cons f forms ih =>
    rw [List.findSome?_cons, chosen_cons_iff haction]
    cases hread : f.read action toks with
    | some a => simp
    | none => simpa using ih

end

theorem findSome?_cons_eq_or {α β : Type} (p : α → Option β) (a : α) (l : List α) :
    (a :: l).findSome? p = (p a).or (l.findSome? p) := by
  rw [List.findSome?_cons]
  cases p a <;> rfl

theorem Form.findSome?_actions :
    Form.actions.findSome? (·.read action toks) =
      (ifForm action toks <|> wordForms toks <|> assignForm toks) := by
  have hactions : Form.actions = [.ifThen, .print, .ret, .goto, .call, .param, .assign] := rfl
  simp [hactions, findSome?_cons_eq_or, Form.read, wordForms, Option.or_assoc]

theorem Form.findSome?_order :
    Form.order.findSome? (·.read action toks) =
      (ifForm action toks <|> wordForms toks <|> beginFuncForm toks <|> endFuncForm toks <|>
        assignForm toks) := by
  simp [Form.order, findSome?_cons_eq_or, Form.read, wordForms, Option.or_assoc]

theorem action_eq_some_iff {depth : Nat} (hdepth : toks.length ≤ depth) :
    Parse.action depth toks = some ins ↔ Chosen Form.actions toks ins := by
  induction depth generalizing toks ins with
  | zero =>
    obtain rfl := List.length_eq_zero_iff.mp (Nat.le_zero.mp hdepth)
    -- no word is left that could be an `if`
    have hread : Parse.action 0 [] = Form.actions.findSome? (·.read (fun _ => none) []) := by
      rw [Form.findSome?_actions]
      rfl
    rw [hread]
    exact findSome?_read_iff fun us hus => absurd hus (by simp)
  | succ depth ih =>
    rw [Parse.action, ← Form.findSome?_actions]
    exact findSome?_read_iff fun us hus a => ih (by omega)

theorem instr_eq_some_iff : instr toks = some ins ↔ Chosen Form.order toks ins := by
  rw [instr, ← Form.findSome?_order]
  exact findSome?_read_iff fun us hus a => action_eq_some_iff (Nat.le_of_lt hus)

/-- The parsers take exactly what the grammar derives.  The parsers of expressions, operands and
targets take a phrase from the front of the tokens, and the only one there is; an operand may be
read with any depth that is enough for the tokens.  An instruction is read from a list of tokens if
and only if all of them have one of the forms, and then it is that of the first form. -/
theorem recognizes_grammar (toks : Tokens) :
    Recognizes expr IsExpr toks ∧
      (∀ extra, Recognizes (operand (toks.length + extra)) IsOperand toks) ∧
      Recognizes target IsTarget toks ∧
      (∀ ins, instr toks = some ins ↔ Chosen Form.order toks ins) ∧
      ((∃ ins, instr toks = some ins) ↔ ∃ f ∈ Form.order, ∃ ins, Derives f toks ins) := by
  refine ⟨recognizes_expr, fun extra => recognizes_operand (Nat.le_add_right _ _),
    recognizes_target, fun ins => instr_eq_some_iff, ?_⟩
  simp only [instr_eq_some_iff]
  constructor
  · rintro ⟨ins, h⟩
    obtain ⟨f, hf, hderives⟩ := h.derives
    exact ⟨f, hf, ins, hderives⟩
  · rintro ⟨f, hf, ins, h⟩
    exact exists_chosen hf h

/-- A word that begins a form is taken for it if it can be. -/
example :
    instr (Word.tokenize "print = x").1 = some (.print (.unary "=" (.variable "x"))) ∧
      instr (Word.tokenize "if = x").1 =
        some (.assign (.variable 0 "if") (.atomic (.variable "x"))) := by
  decide +kernel

end Parse

end AddressCode
