import AddressCode.Lexer.Pattern
import AddressCode.Lexer.Token
import AddressCode.Ordered

/-!
# AddressCode.Lexer.Scan — cutting a text into tokens

A lexer is a list of rules.  At each position the longest match counts, and among rules that
match equally far the first one.  A match is delivered as a token or dropped.  Where no rule
matches, the scan goes on behind the first byte at which no rule could go on, and the text in
between is reported.
-/

namespace AddressCode

/-- What becomes of a match. -/
inductive Action (τ : Type) where
  | emit (kind : τ)
  | skip
deriving Repr, DecidableEq

/-- A pattern and what becomes of its matches. -/
structure Rule (τ : Type) where
  pattern : Pattern
  action : Action τ
deriving Repr, DecidableEq

/-- A list of rules, of which there is at least one, and none of which matches the empty
string. -/
structure Lexer (τ : Type) where
  rules : List (Rule τ)
  nonempty : rules ≠ []
  proper : ∀ r ∈ rules, r.pattern.nullable = false

/-- A line and column, both counted from one; a line feed is in column zero of the next line. -/
structure Position where
  line : Nat
  column : Nat
deriving Repr, DecidableEq

/-- The position of the byte at `offset`. -/
def Position.of (text : List UInt8) (offset : Nat) : Position :=
  let seen := text.take (offset + 1)
  ⟨1 + seen.count 0x0A, (seen.reverse.takeWhile (· != 0x0A)).length⟩

/-- The text of a position. -/
def Position.text (p : Position) : String := toString p.line ++ ":" ++ toString p.column

/-- A piece of text that no rule matches. -/
structure LexError where
  start : Position
  failing : Position
  unmatched : List UInt8
deriving Repr, DecidableEq

/-- The text of an error. -/
def LexError.message (e : LexError) : String :=
  "Lexer error: could not match text starting at " ++ e.start.text ++ " failing at " ++
    e.failing.text ++ ".\n\tunmatched text: " ++ Text.quoteBytes e.unmatched

namespace Lexer

variable {τ : Type}

/-- Why some rules are no lexer. -/
inductive RuleError where
  /-- a fixed lexeme is empty -/
  | emptyLexeme
  /-- there are no rules, or one of them matches the empty string -/
  | improper
deriving Repr, DecidableEq

/-- The rules of a table of fixed lexemes, in the order of the lexemes. -/
def fixedRules {κ : Type} (action : κ → Action τ) (table : Ordered String κ) : List (Rule τ) :=
  table.entries.map fun e => ⟨.ofLexeme e.1, action e.2⟩

/-- A lexer of the given rules, unless there are none or one matches the empty string. -/
def ofRules (rules : List (Rule τ)) : Except RuleError (Lexer τ) :=
  if h₁ : rules ≠ [] then
    if h₂ : ∀ r ∈ rules, r.pattern.nullable = false then .ok ⟨rules, h₁, h₂⟩
    else .error .improper
  else .error .improper

/-- A lexer of some rules followed by those of a table of fixed lexemes, none of which may be
empty. -/
def compile {κ : Type} (rules : List (Rule τ)) (action : κ → Action τ)
    (table : Ordered String κ) : Except RuleError (Lexer τ) :=
  if table.keys.contains "" then .error .emptyLexeme
  else ofRules (rules ++ fixedRules action table)

/-- The outcome of matching at one position. -/
inductive Munch (τ : Type) where
  /-- the longest match, and its length -/
  | matched (action : Action τ) (length : Nat)
  /-- the number of bytes to pass over -/
  | failed (length : Nat)
deriving Repr, DecidableEq

/-- The best match so far, or failure after `n` bytes. -/
def Munch.ofBest (best : Option (Action τ × Nat)) (n : Nat) : Munch τ :=
  match best with
  | some (a, k) => .matched a k
  | none => .failed n

/-- The rules that may still match behind the byte `b`. -/
def advance (b : UInt8) (rules : List (Rule τ)) : List (Rule τ) :=
  (rules.map fun r => { r with pattern := r.pattern.derive b }).filter (·.pattern != .never)

/-- Match on, `n` bytes having led to the rules `live` and to the best match `best`. -/
def munchFrom (live : List (Rule τ)) (n : Nat) (best : Option (Action τ × Nat)) :
    List UInt8 → Munch τ
  | [] => .ofBest best n
  | b :: rest =>
    let live := advance b live
    if live.isEmpty then .ofBest best (n + 1)
    else
      let best :=
        match live.find? (·.pattern.nullable) with
        | some r => some (r.action, n + 1)
        | none => best
      munchFrom live (n + 1) best rest

/-- The longest match at the beginning of a text. -/
def munch (rules : List (Rule τ)) (text : List UInt8) : Munch τ := munchFrom rules 0 none text

/-- What a scan delivers. -/
inductive Item (τ : Type) where
  | token (t : Token τ)
  /-- a piece that no rule matches -/
  | gap (span : Span)
deriving Repr, DecidableEq

/-- Scan the rest of a text from `offset`.  `skip` counts the bytes that belong to a piece already
taken. -/
def scanFrom (rules : List (Rule τ)) : Nat → Nat → List UInt8 → List (Item τ)
  | _, _, [] => []
  | skip + 1, offset, _ :: rest => scanFrom rules skip (offset + 1) rest
  | 0, offset, b :: rest =>
    match munch rules (b :: rest) with
    | .matched (.emit kind) n =>
      .token ⟨kind, (b :: rest).take n, ⟨offset, offset + n⟩⟩ ::
        scanFrom rules (n - 1) (offset + 1) rest
    | .matched .skip n => scanFrom rules (n - 1) (offset + 1) rest
    | .failed n => .gap ⟨offset, offset + n⟩ :: scanFrom rules (n - 1) (offset + 1) rest

/-- The tokens and gaps of a text, in order. -/
def scan (l : Lexer τ) (text : List UInt8) : List (Item τ) := scanFrom l.rules 0 0 text

/-- The tokens among the items of a scan. -/
def tokens (items : List (Item τ)) : List (Token τ) :=
  items.filterMap fun
    | .token t => some t
    | .gap _ => none

/-- The gaps among the items of a scan. -/
def gaps (items : List (Item τ)) : List Span :=
  items.filterMap fun
    | .token _ => none
    | .gap span => some span

/-- The report of a gap in a text. -/
def unmatched (text : List UInt8) (span : Span) : LexError where
  start := .of text span.start
  failing := .of text (if span.stop < text.length then span.stop else span.stop - 1)
  unmatched := (text.drop span.start).take (span.stop - span.start)

/-- The reports of all gaps that a scan of a text has found. -/
def errors (text : List UInt8) (items : List (Item τ)) : List LexError :=
  (gaps items).map (unmatched text)

/-- The report of the first gap that a scan of a text has found. -/
def firstError? (text : List UInt8) (items : List (Item τ)) : Option LexError :=
  (gaps items).head?.map (unmatched text)

/-- Cut the items of a scan at the first token of a kind that ends it.  The second list begins
behind that token. -/
def splitAtEnd (isEnd : τ → Bool) : List (Item τ) → List (Item τ) × List (Item τ)
  | [] => ([], [])
  | .token t :: rest =>
    if isEnd t.kind then ([], rest)
    else
      let (before, after) := splitAtEnd isEnd rest
      (.token t :: before, after)
  | .gap span :: rest =>
    let (before, after) := splitAtEnd isEnd rest
    (.gap span :: before, after)

end Lexer

end AddressCode
