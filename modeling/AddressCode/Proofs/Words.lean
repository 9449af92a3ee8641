import AddressCode.Instr.Tokens
import AddressCode.Proofs.Munch

/-!
# AddressCode.Proofs.Words — the words of a line

`Word.Lexeme` says which byte strings are identifiers, numbers, blanks, operators and signs, without
mention of patterns: a name is letters, digits and underscores with no digit in front, a number is
digits with possibly a point and more digits, blanks are blanks, tabs and line ends.  These are the
pieces of the lexer of instructions (`piece_iff`); the first byte of a piece decides its class
(`Lexeme.class_eq`), so that no two rules describe the same string.  The bytes of a lexeme are of
one group, so that texts which end and begin in different groups can be cut one after the other
(`cuts_append`).

With the longest match of `Munch` it follows that a line is read without an error if and only if it
is used up by taking the longest lexeme again and again, and that the tokens are then the pieces
that are not blank, each where it stands in the line (`tokenize_maximal_munch`).
-/

namespace AddressCode

namespace Pattern

variable {p q : Pattern} {C D : UInt8 → Prop} {s : List UInt8}

/-- A pattern describes the strings of one byte with the property `C`. -/
structure OneByte (p : Pattern) (C : UInt8 → Prop) : Prop where
  mem_iff : ∀ {s}, s ∈ p.language ↔ ∃ b, s = [b] ∧ C b

theorem oneByte_range (lo hi : UInt8) : (range lo hi).OneByte fun b => lo ≤ b ∧ b ≤ hi :=
  ⟨mem_range⟩

theorem oneByte_byte (b : UInt8) : (byte b).OneByte (· = b) := by
  refine ⟨fun {s} => ?_⟩
  rw [byte, mem_range]
  constructor
  · rintro ⟨c, rfl, hlo, hhi⟩
    exact ⟨c, rfl, UInt8.le_antisymm hhi hlo⟩
  · rintro ⟨c, rfl, rfl⟩
    exact ⟨c, rfl, UInt8.le_refl c, UInt8.le_refl c⟩

theorem OneByte.alt (hp : p.OneByte C) (hq : q.OneByte D) :
    (alt p q).OneByte fun b => C b ∨ D b := by
  refine ⟨fun {s} => ?_⟩
  rw [language, Language.mem_add, hp.mem_iff, hq.mem_iff]
  constructor
  · rintro (⟨b, rfl, hb⟩ | ⟨b, rfl, hb⟩)
    · exact ⟨b, rfl, Or.inl hb⟩
    · exact ⟨b, rfl, Or.inr hb⟩
  · rintro ⟨b, rfl, hb | hb⟩
    · exact Or.inl ⟨b, rfl, hb⟩
    · exact Or.inr ⟨b, rfl, hb⟩

theorem OneByte.congr (hp : p.OneByte C) (h : ∀ b, C b ↔ D b) : p.OneByte D := by
  refine ⟨fun {s} => ?_⟩
  rw [hp.mem_iff]
  simp only [h]

/-- A byte followed by a string. -/
theorem OneByte.mem_seq (hp : p.OneByte C) :
    s ∈ (seq p q).language ↔ ∃ b u, s = b :: u ∧ C b ∧ u ∈ q.language := by
  rw [language, Language.mem_mul]
  constructor
  · rintro ⟨u, hu, v, hv, rfl⟩
    obtain ⟨b, rfl, hb⟩ := hp.mem_iff.mp hu
    exact ⟨b, v, rfl, hb, hv⟩
  · rintro ⟨b, u, rfl, hb, hu⟩
    exact ⟨[b], hp.mem_iff.mpr ⟨b, rfl, hb⟩, u, hu, rfl⟩

theorem OneByte.mem_star (hp : p.OneByte C) : s ∈ (star p).language ↔ ∀ b ∈ s, C b := by
  rw [language]
  induction s with
  | nil => simp [Language.nil_mem_kstar]
  | cons b s ih =>
    rw [cons_mem_kstar, List.forall_mem_cons]
    constructor
    · rintro ⟨u, v, rfl, hu, hv⟩
      obtain ⟨c, hc, hC⟩ := hp.mem_iff.mp hu
      obtain ⟨rfl, rfl⟩ := List.cons.inj hc
      exact ⟨hC, ih.mp hv⟩
    · rintro ⟨hb, hs⟩
      exact ⟨[], s, rfl, hp.mem_iff.mpr ⟨b, rfl, hb⟩, ih.mpr hs⟩

theorem OneByte.mem_plus (hp : p.OneByte C) :
    s ∈ (plus p).language ↔ s ≠ [] ∧ ∀ b ∈ s, C b := by
  rw [plus, hp.mem_seq]
  constructor
  · rintro ⟨b, u, rfl, hb, hu⟩
    exact ⟨by simp, List.forall_mem_cons.mpr ⟨hb, hp.mem_star.mp hu⟩⟩
  · rintro ⟨hne, hall⟩
    obtain ⟨b, u, rfl⟩ := List.exists_cons_of_ne_nil hne
    obtain ⟨hb, hu⟩ := List.forall_mem_cons.mp hall
    exact ⟨b, u, rfl, hb, hp.mem_star.mpr hu⟩

theorem mem_optional : s ∈ (optional p).language ↔ s ∈ p.language ∨ s = [] := by
  rw [optional, language, Language.mem_add]
  rfl

theorem mem_inOrder_byte (bs : List UInt8) : s ∈ (inOrder (bs.map byte)).language ↔ s = bs := by
  induction bs generalizing s with
  | nil => rfl
  | cons b bs ih =>
    cases bs with
    | nil =>
      rw [List.map_singleton, inOrder, (oneByte_byte b).mem_iff]
      simp
    | cons c bs =>
      rw [List.map_cons, List.map_cons, inOrder, ← List.map_cons, (oneByte_byte b).mem_seq]
      · constructor
        · rintro ⟨b', u, rfl, rfl, hu⟩
          rw [ih.mp hu]
        · rintro rfl
          exact ⟨b, c :: bs, rfl, rfl, ih.mpr rfl⟩
      · simp

/-- An exact pattern describes its text and nothing else. -/
theorem mem_exactly (t : String) : s ∈ (exactly t).language ↔ s = Text.Utf8.encode t :=
  mem_inOrder_byte _

end Pattern

namespace Word

open Pattern MaxMunch

/-! ## Lexemes -/

/-- A letter or the underscore. -/
def NameStart (b : UInt8) : Prop :=
  (0x61 ≤ b ∧ b ≤ 0x7A) ∨ (0x41 ≤ b ∧ b ≤ 0x5A) ∨ b = 0x5F

/-- A decimal digit. -/
def Digit (b : UInt8) : Prop := 0x30 ≤ b ∧ b ≤ 0x39

/-- A blank, a tab, a carriage return or a line feed. -/
def Blank (b : UInt8) : Prop := b = 0x20 ∨ b = 0x09 ∨ b = 0x0D ∨ b = 0x0A

/-- The byte strings that a line is made of, with what becomes of them: there are fifteen operators
and four other signs. -/
inductive Lexeme : Action Word → List UInt8 → Prop where
  | identifier {b : UInt8} {s : List UInt8} (hb : NameStart b)
      (hs : ∀ c ∈ s, NameStart c ∨ Digit c) : Lexeme (.emit .ident) (b :: s)
  | natural {s : List UInt8} (hne : s ≠ []) (hs : ∀ b ∈ s, Digit b) : Lexeme (.emit .num) s
  /-- digits on both sides of a point -/
  | decimal {s u : List UInt8} (hne : s ≠ []) (hs : ∀ b ∈ s, Digit b) (hne' : u ≠ [])
      (hu : ∀ b ∈ u, Digit b) : Lexeme (.emit .num) (s ++ 0x2E :: u)
  | blanks {s : List UInt8} (hne : s ≠ []) (hs : ∀ b ∈ s, Blank b) : Lexeme .skip s
  | operator {s : String}
      (hs : s ∈ ["+", "-", "*", "/", "%", "&", "=", "<", ">", "!", "==", "!=", "<=", ">=", "**"]) :
      Lexeme (.emit .op) (Text.Utf8.encode s)
  | sign {s : String} {kind : Word}
      (hs : (s, kind) ∈ [("[", lbracket), ("]", rbracket), (",", comma), (":", colon)]) :
      Lexeme (.emit kind) (Text.Utf8.encode s)

theorem oneByte_letter : letter.OneByte fun b => (0x61 ≤ b ∧ b ≤ 0x7A) ∨ (0x41 ≤ b ∧ b ≤ 0x5A) :=
  (oneByte_range _ _).alt (oneByte_range _ _)

theorem oneByte_digit : digit.OneByte Digit := oneByte_range _ _

theorem mem_identifier {s : List UInt8} :
    s ∈ identifier.language ↔
      ∃ b u, s = b :: u ∧ NameStart b ∧ ∀ c ∈ u, NameStart c ∨ Digit c := by
  have hstart : (alt letter (ascii '_')).OneByte NameStart :=
    (oneByte_letter.alt (oneByte_byte 0x5F)).congr fun b => or_assoc
  have hrest : (anyOf [letter, digit, ascii '_']).OneByte fun b => NameStart b ∨ Digit b := by
    refine (oneByte_letter.alt (oneByte_digit.alt (oneByte_byte 0x5F))).congr fun b => ?_
    unfold NameStart
    tauto
  rw [identifier, hstart.mem_seq]
  simp only [hrest.mem_star]

theorem mem_numeral {s : List UInt8} :
    s ∈ numeral.language ↔ Lexeme (.emit .num) s := by
  have hfraction : ∀ {v : List UInt8}, v ∈ (seq (ascii '.') (plus digit)).language ↔
      ∃ u, v = 0x2E :: u ∧ u ≠ [] ∧ ∀ b ∈ u, Digit b := by
    intro v
    rw [ascii, (oneByte_byte _).mem_seq]
    simp only [oneByte_digit.mem_plus]
    constructor
    · rintro ⟨b, u, rfl, rfl, hu⟩
      exact ⟨u, rfl, hu⟩
    · rintro ⟨u, rfl, hu⟩
      exact ⟨_, u, rfl, rfl, hu⟩
  rw [numeral, language, Language.mem_mul]
  simp only [oneByte_digit.mem_plus, mem_optional, hfraction]
  constructor
  · rintro ⟨v, ⟨hne, hv⟩, w, ⟨u, rfl, hne', hu⟩ | rfl, rfl⟩
    · exact .decimal hne hv hne' hu
    · rw [List.append_nil]
      exact .natural hne hv
  · intro h
    cases h with
    | natural hne hs => exact ⟨s, ⟨hne, hs⟩, [], Or.inr rfl, List.append_nil s⟩
    | @decimal v u hne hs hne' hu =>
      exact ⟨v, ⟨hne, hs⟩, 0x2E :: u, Or.inl ⟨u, rfl, hne', hu⟩, rfl⟩
    | sign hs => simp at hs

theorem mem_blanks {s : List UInt8} : s ∈ blanks.language ↔ Lexeme .skip s := by
  have hblank : (anyOf [ascii ' ', ascii '\t', ascii '\r', ascii '\n']).OneByte Blank :=
    (oneByte_byte 0x20).alt
      ((oneByte_byte 0x09).alt ((oneByte_byte 0x0D).alt (oneByte_byte 0x0A)))
  rw [blanks, hblank.mem_plus]
  constructor
  · rintro ⟨hne, hs⟩
    exact .blanks hne hs
  · intro h
    cases h with
    | blanks hne hs => exact ⟨hne, hs⟩

/-- The lexemes are what the rules describe. -/
theorem exists_rule_iff {a : Action Word} {s : List UInt8} :
    (∃ r ∈ rules, r.action = a ∧ s ∈ r.pattern.language) ↔ Lexeme a s := by
  constructor
  · rintro ⟨r, hr, rfl, hs⟩
    simp only [rules, List.mem_append, List.mem_cons, List.mem_map, List.not_mem_nil,
      or_false] at hr
    rcases hr with ((rfl | rfl | rfl) | ⟨o, ho, rfl⟩) | ⟨⟨o, kind⟩, ho, rfl⟩
    · obtain ⟨b, u, rfl, hb, hu⟩ := mem_identifier.mp hs
      exact .identifier hb hu
    · exact mem_numeral.mp hs
    · exact mem_blanks.mp hs
    · rw [(mem_exactly o).mp hs]
      exact .operator ho
    · rw [(mem_exactly o).mp hs]
      exact .sign ho
  · intro h
    have hnum : ∀ {s}, Lexeme (.emit .num) s →
        ∃ r ∈ rules, r.action = .emit .num ∧ s ∈ r.pattern.language :=
      fun h => ⟨⟨numeral, .emit .num⟩, by simp [rules], rfl, mem_numeral.mpr h⟩
    cases h with
    | @identifier b u hb hu =>
      exact ⟨⟨Word.identifier, .emit .ident⟩, by simp [rules], rfl,
        mem_identifier.mpr ⟨b, u, rfl, hb, hu⟩⟩
    | natural hne hs => exact hnum (.natural hne hs)
    | decimal hne hs hne' hu => exact hnum (.decimal hne hs hne' hu)
    | blanks hne hs =>
      exact ⟨⟨Word.blanks, .skip⟩, by simp [rules], rfl, mem_blanks.mpr (.blanks hne hs)⟩
    | @operator o ho =>
      refine ⟨⟨exactly o, .emit .op⟩, ?_, rfl, (mem_exactly o).mpr rfl⟩
      simp only [rules, List.mem_append, List.mem_map]
      exact Or.inl (Or.inr ⟨o, ho, rfl⟩)
    | @sign o kind ho =>
      refine ⟨⟨exactly o, .emit kind⟩, ?_, rfl, (mem_exactly o).mpr rfl⟩
      simp only [rules, List.mem_append, List.mem_map]
      exact Or.inr ⟨(o, kind), ho, rfl⟩

/-! ## Classes -/

instance (b : UInt8) : Decidable (NameStart b) := inferInstanceAs (Decidable (_ ∨ _))
instance (b : UInt8) : Decidable (Digit b) := inferInstanceAs (Decidable (_ ∧ _))
instance (b : UInt8) : Decidable (Blank b) := inferInstanceAs (Decidable (_ ∨ _))

/-- What becomes of the lexemes that begin with a byte. -/
def classOf (b : UInt8) : Action Word :=
  if NameStart b then .emit .ident
  else if Digit b then .emit .num
  else if Blank b then .skip
  else if b = 0x5B then .emit .lbracket
  else if b = 0x5D then .emit .rbracket
  else if b = 0x2C then .emit .comma
  else if b = 0x3A then .emit .colon
  else .emit .op

theorem Digit.not_nameStart {b : UInt8} (h : Digit b) : ¬ NameStart b := by
  unfold Digit at h
  unfold NameStart
  grind

theorem Blank.not_nameStart {b : UInt8} (h : Blank b) : ¬ NameStart b ∧ ¬ Digit b := by
  rcases h with rfl | rfl | rfl | rfl <;> decide

theorem head?_encode_operator :
    ∀ o ∈ operators, (Text.Utf8.encode o).head?.map classOf = some (.emit .op) := by
  decide

theorem head?_encode_sign :
    ∀ o ∈ signs, (Text.Utf8.encode o.1).head?.map classOf = some (.emit o.2) := by
  decide

variable {a a' : Action Word} {s : List UInt8}

/-- The first byte of a lexeme decides its class. -/
theorem Lexeme.class_eq (h : Lexeme a s) : s.head?.map classOf = some a := by
  have hdigit : ∀ {b}, Digit b → classOf b = .emit .num := by
    intro b hb
    simp [classOf, hb, hb.not_nameStart]
  cases h with
  | identifier hb hs => simp [classOf, hb]
  | natural hne hs =>
    obtain ⟨b, u, rfl⟩ := List.exists_cons_of_ne_nil hne
    simp [hdigit (hs b (by simp))]
  | decimal hne hs _ _ =>
    obtain ⟨b, u, rfl⟩ := List.exists_cons_of_ne_nil hne
    simp [hdigit (hs b (by simp))]
  | blanks hne hs =>
    obtain ⟨b, u, rfl⟩ := List.exists_cons_of_ne_nil hne
    have hb : Blank b := hs b (by simp)
    simp [classOf, hb, hb.not_nameStart]
  | operator ho => exact head?_encode_operator _ ho
  | @sign o kind ho => exact head?_encode_sign (o, kind) ho

theorem Lexeme.unique (h : Lexeme a s) (h' : Lexeme a' s) : a = a' :=
  Option.some.inj (h.class_eq.symm.trans h'.class_eq)

theorem Lexeme.ne_nil (h : Lexeme a s) : s ≠ [] := by
  rintro rfl
  have hclass := h.class_eq
  cases hclass

/-- The first rule that describes a string makes a lexeme of it. -/
theorem lexeme_of_find? {r : Rule Word}
    (h : lexer.rules.find? (·.pattern.accepts s) = some r) : Lexeme r.action s := by
  have hs : r.pattern.accepts s = true := by simpa using List.find?_some h
  exact exists_rule_iff.mp ⟨r, List.mem_of_find?_eq_some h, rfl, (Pattern.accepts_iff _ _).mp hs⟩

/-- The lexemes are the pieces of the lexer. -/
theorem piece_iff : Lexer.Piece lexer.rules a s ↔ Lexeme a s := by
  unfold Lexer.Piece Lexer.first?
  constructor
  · intro h
    obtain ⟨r, hr, rfl⟩ := Option.map_eq_some_iff.mp h
    exact lexeme_of_find? hr
  · intro h
    obtain ⟨r, hr, -, hs⟩ := exists_rule_iff.mpr h
    -- some rule describes the string, and the first that does agrees on its class
    cases hfind : lexer.rules.find? (·.pattern.accepts s) with
    | none =>
      exact absurd ((Pattern.accepts_iff _ _).mpr hs) (List.find?_eq_none.mp hfind r hr)
    | some r' => rw [Option.map_some, (lexeme_of_find? hfind).unique h]

theorem piece_eq_lexeme : Lexer.Piece lexer.rules = Lexeme := by
  funext a s
  exact propext piece_iff

/-! ## Lexemes side by side -/

section SideBySide

open Text.Utf8

variable {u v : List UInt8} {ps qs : List (Action Word × List UInt8)}

/-- What a byte may be part of. -/
inductive Group where
  /-- a name or a number -/
  | word
  | blank
  | operator
  | sign
deriving DecidableEq

/-- The group of a byte. -/
def groupOf (b : UInt8) : Group :=
  if NameStart b ∨ Digit b ∨ b = 0x2E then .word
  else if Blank b then .blank
  else if b = 0x5B ∨ b = 0x5D ∨ b = 0x2C ∨ b = 0x3A then .sign
  else .operator

/-- The group of the bytes of a lexeme. -/
def group : Action Word → Group
  | .skip => .blank
  | .emit .ident => .word
  | .emit .num => .word
  | .emit .op => .operator
  | .emit .lbracket => .sign
  | .emit .rbracket => .sign
  | .emit .comma => .sign
  | .emit .colon => .sign

theorem groupOf_operators : ∀ o ∈ operators, ∀ b ∈ encode o, groupOf b = .operator ∧ b < 0x80 := by
  decide +kernel

theorem groupOf_signs :
    ∀ o ∈ signs, ∃ b, encode o.1 = [b] ∧ groupOf b = .sign ∧ group (.emit o.2) = .sign ∧
      b < 0x80 := by
  simp only [signs, List.forall_mem_cons, List.not_mem_nil, false_implies, implies_true, and_true]
  exact ⟨⟨0x5B, by decide⟩, ⟨0x5D, by decide⟩, ⟨0x2C, by decide⟩, ⟨0x3A, by decide⟩⟩

theorem NameStart.lt {b : UInt8} (h : NameStart b) : b < 0x80 := by
  unfold NameStart at h
  grind

theorem Digit.lt {b : UInt8} (h : Digit b) : b < 0x80 := by
  unfold Digit at h
  grind

theorem Blank.lt {b : UInt8} (h : Blank b) : b < 0x80 := by
  rcases h with rfl | rfl | rfl | rfl <;> decide

/-- The bytes of a lexeme are of its group, and below 128. -/
theorem Lexeme.group_eq (h : Lexeme a s) : ∀ b ∈ s, groupOf b = group a ∧ b < 0x80 := by
  have hname : ∀ {b}, NameStart b ∨ Digit b → groupOf b = .word ∧ b < 0x80 := by
    rintro b (hb | hb)
    · simp [groupOf, hb, hb.lt]
    · simp [groupOf, hb, hb.lt]
  cases h with
  | @identifier b s hb hs =>
    rw [List.forall_mem_cons]
    exact ⟨hname (Or.inl hb), fun c hc => hname (hs c hc)⟩
  | natural _ hs => exact fun b hb => hname (Or.inr (hs b hb))
  | @decimal s u _ hs _ hu =>
    rw [List.forall_mem_append, List.forall_mem_cons]
    exact ⟨fun b hb => hname (Or.inr (hs b hb)), by decide, fun b hb => hname (Or.inr (hu b hb))⟩
  | blanks _ hs =>
    intro b hb
    have hblank := hs b hb
    obtain ⟨hstart, hdigit⟩ := hblank.not_nameStart
    refine ⟨?_, hblank.lt⟩
    have hpoint : b ≠ 0x2E := by
      rintro rfl
      revert hblank
      decide
    simp [groupOf, hstart, hdigit, hpoint, hblank, group]
  | operator ho => exact groupOf_operators _ ho
  | @sign o kind ho =>
    obtain ⟨b, hb, hgroup, hkind, hlt⟩ := groupOf_signs (o, kind) ho
    rw [hb, hkind, List.forall_mem_singleton]
    exact ⟨hgroup, hlt⟩

/-- No blank or control is part of a token. -/
theorem Lexeme.printable {kind : Word} (h : Lexeme (.emit kind) s) : ∀ b ∈ s, 0x20 < b := by
  have hstart : ∀ {b}, NameStart b → 0x20 < b := by
    intro b hb
    unfold NameStart at hb
    grind
  have hdigit : ∀ {b}, Digit b → 0x20 < b := by
    intro b hb
    unfold Digit at hb
    grind
  cases h with
  | identifier hb hs =>
    rw [List.forall_mem_cons]
    exact ⟨hstart hb, fun c hc => (hs c hc).elim hstart hdigit⟩
  | natural _ hs => exact fun b hb => hdigit (hs b hb)
  | decimal _ hs _ hu =>
    rw [List.forall_mem_append, List.forall_mem_cons]
    exact ⟨fun b hb => hdigit (hs b hb), by decide, fun b hb => hdigit (hu b hb)⟩
  | operator ho =>
    have hall : ∀ o ∈ operators, ∀ b ∈ encode o, 0x20 < b := by decide +kernel
    exact hall _ ho
  | @sign o _ ho =>
    have hall : ∀ o ∈ signs, ∀ b ∈ encode o.1, 0x20 < b := by decide +kernel
    exact hall (o, kind) ho

/-- A sign is a single byte. -/
theorem Lexeme.length_of_sign (h : Lexeme a s) (hsign : group a = .sign) : s.length = 1 := by
  cases h with
  | @sign o kind ho =>
    obtain ⟨b, hb, -⟩ := groupOf_signs (o, kind) ho
    rw [hb, List.length_singleton]
  | identifier => cases hsign
  | natural => cases hsign
  | decimal => cases hsign
  | blanks => cases hsign
  | operator => cases hsign

theorem Lexeme.eq_of_sign {o : String} {kind : Word} (h : Lexeme (.emit kind) s)
    (ho : (o, kind) ∈ signs) : s = encode o := by
  cases h with
  | @sign o' _ ho' =>
    simp only [signs, List.mem_cons, List.not_mem_nil, or_false, Prod.mk.injEq] at ho ho'
    grind
  | identifier => simp [signs] at ho
  | natural => simp [signs] at ho
  | decimal => simp [signs] at ho
  | operator => simp [signs] at ho

/-- Lexemes that do not run into each other when they are written side by side. -/
def Separate (a b : Action Word) : Prop := group a ≠ group b ∨ group a = .sign

instance (a b : Action Word) : Decidable (Separate a b) := inferInstanceAs (Decidable (_ ∨ _))

theorem separate_skip (h : a ≠ .skip) : Separate a .skip ∧ Separate .skip a := by
  cases a with
  | skip => exact absurd rfl h
  | emit kind => cases kind <;> decide

theorem separate_sign {b : Action Word} (h : group b = .sign) : Separate a b := by
  unfold Separate
  rw [h]
  exact ne_or_eq _ _

theorem apart_of_groupOf {x y : UInt8} (h : groupOf x ≠ groupOf y ∨ groupOf x = .sign) :
    Apart Lexeme x y := by
  intro c u v hlexeme
  have hx := (hlexeme.group_eq x (by simp)).1
  have hy := (hlexeme.group_eq y (by simp)).1
  rcases h with hne | hsign
  · exact hne (hx.trans hy.symm)
  · have hlen := hlexeme.length_of_sign (hx.symm.trans hsign)
    simp only [List.length_append, List.length_cons] at hlen
    omega

theorem getLast?_joined (h : ∀ p ∈ ps, p.2 ≠ []) {x : UInt8} (hx : x ∈ (joined ps).getLast?) :
    ∃ p ∈ ps.getLast?, x ∈ p.2 := by
  rcases List.eq_nil_or_concat' ps with rfl | ⟨init, p, rfl⟩
  · cases hx
  · have hne := h p (by simp)
    have hjoined : joined (init ++ [p]) = joined init ++ p.2 := by simp [joined]
    rw [hjoined, List.getLast?_append_of_ne_nil _ hne] at hx
    exact ⟨p, by simp, List.mem_of_getLast? hx⟩

theorem head?_joined (h : ∀ p ∈ ps, p.2 ≠ []) {x : UInt8} (hx : x ∈ (joined ps).head?) :
    ∃ p ∈ ps.head?, x ∈ p.2 := by
  cases ps with
  | nil => cases hx
  | cons p ps =>
    obtain ⟨b, s, hs⟩ := List.exists_cons_of_ne_nil (h p List.mem_cons_self)
    refine ⟨p, rfl, ?_⟩
    simp only [joined, List.map_cons, List.flatten_cons, hs, List.cons_append, List.head?_cons,
      Option.mem_some_iff] at hx
    simp [hs, hx]

/-- Texts that do not run into each other can be cut one after the other. -/
theorem cuts_append (h : Cuts Lexeme u ps) (h' : Cuts Lexeme v qs)
    (hsep : ∀ p ∈ ps.getLast?, ∀ q ∈ qs.head?, Separate p.1 q.1) :
    Cuts Lexeme (u ++ v) (ps ++ qs) := by
  refine h.append h' ?_
  intro x hx y hy
  rw [← h.joined_eq] at hx
  rw [← h'.joined_eq] at hy
  obtain ⟨p, hp, hxp⟩ := getLast?_joined (fun p hp => (h.pieces p hp).2) hx
  obtain ⟨q, hq, hyq⟩ := head?_joined (fun q hq => (h'.pieces q hq).2) hy
  have hgx := ((h.pieces p (List.mem_of_getLast? hp)).1.group_eq x hxp).1
  have hgy := ((h'.pieces q (List.mem_of_mem_head? hq)).1.group_eq y hyq).1
  refine apart_of_groupOf ?_
  rw [hgx, hgy]
  exact hsep p hp q hq

end SideBySide

/-! ## Tokens -/

/-- The tokens of a text that can be cut into lexemes, and the absence of an error. -/
theorem tokenize_of_cuts {text : List UInt8} {ps : List (Action Word × List UInt8)}
    (h : Cuts Lexeme text ps) : tokenizeBytes text = (Lexer.placed 0 ps, none) := by
  rw [← piece_eq_lexeme] at h
  have hgaps := (lexer.gaps_eq_nil_iff text).mpr ⟨ps, h⟩
  simp [tokenizeBytes, Lexer.firstError?, hgaps, lexer.tokens_of_cuts h]

theorem error_eq_none_iff (text : List UInt8) :
    (tokenizeBytes text).2 = none ↔ ∃ ps, Cuts Lexeme text ps := by
  rw [← piece_eq_lexeme, ← lexer.gaps_eq_nil_iff]
  simp [tokenizeBytes, Lexer.firstError?]

/-- A text is read without an error if and only if it is used up by taking the longest lexeme again
and again.  Then the tokens are the pieces that are not blank, in their order and with the kinds of
their classes; each of them has bytes, which are those of its span, and ends before the next one
begins; and whatever lies outside of the spans is blank. -/
theorem tokenize_maximal_munch (text : List UInt8) :
    ((tokenizeBytes text).2 = none ↔ ∃ ps, Cuts Lexeme text ps) ∧
      ∀ ps, Cuts Lexeme text ps →
        (tokenizeBytes text).1.map (fun t => (.emit t.kind, t.bytes)) = ps.filter (·.1 ≠ .skip) ∧
        (∀ t ∈ (tokenizeBytes text).1, Lexeme (.emit t.kind) t.bytes ∧
          t.span.start < t.span.stop ∧ t.span.stop ≤ text.length ∧
          t.bytes = (text.drop t.span.start).take (t.span.stop - t.span.start)) ∧
        ((tokenizeBytes text).1.Pairwise fun t u => t.span.stop ≤ u.span.start) ∧
        ∀ i b, text[i]? = some b →
          (∀ t ∈ (tokenizeBytes text).1, i < t.span.start ∨ t.span.stop ≤ i) → Blank b := by
  refine ⟨error_eq_none_iff text, ?_⟩
  intro ps h
  rw [tokenize_of_cuts h]
  refine ⟨Lexer.map_placed 0 ps, ?_, Lexer.pairwise_placed 0 ps, ?_⟩
  · intro t ht
    obtain ⟨before, after, hps, hspan⟩ := Lexer.mem_placed ht
    have hmem : (.emit t.kind, t.bytes) ∈ ps := by simp [hps]
    have hpiece : Lexeme (.emit t.kind) t.bytes := (h.pieces _ hmem).1
    have htext : text = joined before ++ (t.bytes ++ joined after) := by
      rw [← h.joined_eq, hps, joined_append, joined_cons]
    have hpos := List.length_pos_iff.mpr hpiece.ne_nil
    rw [hspan]
    refine ⟨hpiece, ?_, ?_, ?_⟩
    · simpa using hpos
    · simp only [htext, List.length_append]
      omega
    · simp [htext]
  · intro i b hb hout
    rw [← h.joined_eq] at hb
    obtain ⟨s, hs, hmem⟩ := Lexer.mem_dropped (n := 0) hb (by simpa using hout)
    -- a piece that was dropped is blank
    cases (h.pieces _ hs).1 with
    | blanks _ hall => exact hall b hmem

/-- A line whose operators touch each other and their operands, with three of the signs. -/
def touchingOperators : List UInt8 := Text.Utf8.encode "l:a1[0] =3.5<==b"

/-- The longest operator is taken first, the point belongs to the number, and signs stand alone. -/
theorem tokenize_maximal_munch_touching :
    ∃ ps, Cuts Lexeme touchingOperators ps ∧
      ps.filter (·.1 ≠ .skip) =
        [(.emit .ident, Text.Utf8.encode "l"), (.emit .colon, Text.Utf8.encode ":"),
          (.emit .ident, Text.Utf8.encode "a1"), (.emit .lbracket, Text.Utf8.encode "["),
          (.emit .num, Text.Utf8.encode "0"), (.emit .rbracket, Text.Utf8.encode "]"),
          (.emit .op, Text.Utf8.encode "="), (.emit .num, Text.Utf8.encode "3.5"),
          (.emit .op, Text.Utf8.encode "<="), (.emit .op, Text.Utf8.encode "="),
          (.emit .ident, Text.Utf8.encode "b")] := by
  have hfacts : (tokenizeBytes touchingOperators).2 = none ∧
      (tokenizeBytes touchingOperators).1.map (fun t => (Action.emit t.kind, t.bytes)) =
        [(.emit .ident, Text.Utf8.encode "l"), (.emit .colon, Text.Utf8.encode ":"),
          (.emit .ident, Text.Utf8.encode "a1"), (.emit .lbracket, Text.Utf8.encode "["),
          (.emit .num, Text.Utf8.encode "0"), (.emit .rbracket, Text.Utf8.encode "]"),
          (.emit .op, Text.Utf8.encode "="), (.emit .num, Text.Utf8.encode "3.5"),
          (.emit .op, Text.Utf8.encode "<="), (.emit .op, Text.Utf8.encode "="),
          (.emit .ident, Text.Utf8.encode "b")] := by
    decide +kernel
  obtain ⟨hnone, htokens⟩ := hfacts
  obtain ⟨hiff, hcut⟩ := tokenize_maximal_munch touchingOperators
  obtain ⟨ps, hps⟩ := hiff.mp hnone
  obtain ⟨hpieces, -⟩ := hcut ps hps
  rw [htokens] at hpieces
  exact ⟨ps, hps, hpieces.symm⟩

end Word

end AddressCode
