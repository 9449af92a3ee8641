import AddressCode.Instr.Line
import AddressCode.Proofs.Pieces
import AddressCode.Proofs.PrintedForms

/-!
# AddressCode.Proofs.RoundTrip — reading the text of a statement

`Statement.text` and `classify` are inverse to each other as far as they can be: the text of a
statement that was read from a line is read as the same statement (`classify_text`).  There are two
exceptions.  A line without an instruction has no text but its label, and a call with an open count
is written as a call of another procedure.

The instruction is read again by `Parse.Chosen.shown`.  What is left is the line around it: a label
has no colon and is trimmed (`splitLabel_spec`), there is no colon in the text of an instruction
(`Parse.Written.no_colon`), and such a text is not blank (`Parse.Written.not_allBlank`).
-/

namespace AddressCode

open MaxMunch Text.Utf8
open Lexer (placed)

/-! ## Blanks -/

namespace Text

section TrimBy

variable {α : Type} {p : α → Bool} {as : List α} {x : α}

theorem eq_false_of_head?_dropWhile (h : x ∈ (as.dropWhile p).head?) : p x = false := by
  have hne : as.dropWhile p ≠ [] := by
    intro hnil
    rw [hnil] at h
    cases h
  have hhead := List.head_dropWhile_not p hne
  rw [List.head?_eq_some_head hne] at h
  exact Option.some.inj h ▸ hhead

/-- What is trimmed stands at the ends. -/
theorem exists_eq_append_trimBy (p : α → Bool) (as : List α) :
    ∃ front back, as = front ++ (trimBy p as ++ back) ∧ ∀ x ∈ back, p x = true := by
  have hback : as.dropWhile p =
      trimBy p as ++ ((as.dropWhile p).reverse.takeWhile p).reverse := by
    rw [trimBy, ← List.reverse_append, List.takeWhile_append_dropWhile, List.reverse_reverse]
  refine ⟨as.takeWhile p, ((as.dropWhile p).reverse.takeWhile p).reverse, ?_, ?_⟩
  · rw [← hback, List.takeWhile_append_dropWhile]
  · exact fun x hx => List.mem_takeWhile_imp (List.mem_reverse.mp hx)

/-- A list that has the property at neither end is not trimmed. -/
theorem trimBy_of_ends (hhead : ∀ x ∈ as.head?, p x = false)
    (hlast : ∀ x ∈ as.getLast?, p x = false) : trimBy p as = as := by
  have hdrop : ∀ {bs : List α}, (∀ x ∈ bs.head?, p x = false) → bs.dropWhile p = bs := by
    intro bs hbs
    cases bs with
    | nil => rfl
    | cons b bs => rw [List.dropWhile_cons, hbs b rfl]; rfl
  rw [trimBy, hdrop hhead, hdrop (by rwa [List.head?_reverse]), List.reverse_reverse]

/-- Trimming once is enough. -/
theorem trimBy_trimBy (p : α → Bool) (as : List α) : trimBy p (trimBy p as) = trimBy p as := by
  refine trimBy_of_ends ?_ ?_
  · intro x hx
    -- what is left at the end is a beginning of what is left at the front
    obtain ⟨more, hmore⟩ := List.dropWhile_suffix p (l := (as.dropWhile p).reverse)
    have hfront : as.dropWhile p = trimBy p as ++ more.reverse := by
      rw [trimBy, ← List.reverse_append, hmore, List.reverse_reverse]
    have hhead : x ∈ (as.dropWhile p).head? := by
      rw [hfront]
      cases htrim : trimBy p as with
      | nil =>
        rw [htrim] at hx
        cases hx
      | cons y ys =>
        rw [htrim] at hx
        exact hx
    exact eq_false_of_head?_dropWhile hhead
  · intro x hx
    rw [trimBy, List.getLast?_reverse] at hx
    exact eq_false_of_head?_dropWhile hx

end TrimBy

variable {c : Char}

/-- A piece that was read from bytes and is shown as a blank is a character. -/
theorem exists_char_of_isBlank {p : Piece} {bs : List UInt8} (hp : p ∈ pieces bs)
    (h : p.isBlank = true) : ∃ c, p = .char c := by
  cases p with
  | char c => exact ⟨c, rfl⟩
  | illFormed run =>
    obtain ⟨b, hb, -⟩ := exists_le_of_illFormed_mem hp
    have hshown : isBlank replacement = true :=
      List.all_eq_true.mp h _ (List.mem_map.mpr ⟨b, hb, rfl⟩)
    exact absurd hshown (by decide)

/-! ### Bytes and characters -/

theorem isBlank_of_blank {b : UInt8} (hb : Word.Blank b) (hc : c.toNat = b.toNat) :
    isBlank c = true := by
  rcases hb with rfl | rfl | rfl | rfl <;> simp [isBlank, hc]

theorem not_isBlank_of_lt {b : UInt8} (hlow : 0x20 < b) (hhigh : b < 0x80)
    (hc : c.toNat = b.toNat) : isBlank c = false := by
  rw [UInt8.lt_iff_toNat_lt] at hlow hhigh
  have hlow' : 32 < c.toNat := hc ▸ hlow
  have hhigh' : c.toNat < 128 := hc ▸ hhigh
  simp only [isBlank, Bool.or_eq_false_iff, Bool.and_eq_false_iff, decide_eq_false_iff_not,
    beq_eq_false_iff_ne]
  omega

/-- A part of a text whose bytes are blanks is blank.  It has no bytes that are no characters, since
there is a byte of 128 or more among these. -/
theorem allBlank_display {bs : List UInt8} {ps : List Piece} (hps : ps ⊆ pieces bs)
    (h : ∀ b ∈ bytes ps, Word.Blank b) : allBlank (display ps) = true := by
  rw [allBlank, display, String.toList_ofList, List.all_eq_true]
  intro c hc
  obtain ⟨p, hp, hc⟩ := List.mem_flatMap.mp hc
  have hblank : ∀ b ∈ p.bytes, Word.Blank b :=
    fun b hb => h b (List.mem_flatMap.mpr ⟨p, hp, hb⟩)
  cases p with
  | char d =>
    obtain rfl := List.mem_singleton.mp hc
    obtain ⟨b, more, heq⟩ := List.exists_cons_of_ne_nil (String.utf8EncodeChar_ne_nil (c := c))
    have hb : b ∈ String.utf8EncodeChar c := heq ▸ List.mem_cons_self
    exact isBlank_of_blank (hblank b hb)
      (eq_singleton_of_mem_utf8EncodeChar hb (hblank b hb).lt).2
  | illFormed run =>
    obtain ⟨b, hb, hle⟩ := exists_le_of_illFormed_mem (hps hp)
    exact absurd (UInt8.lt_of_lt_of_le (hblank b hb).lt hle) (UInt8.lt_irrefl b)

end Text

/-! ## Labels -/

namespace Text

variable {α : Type} [BEq α] [LawfulBEq α] {a : α} {as bs before after : List α}

theorem cutAt?_eq_none (h : a ∉ as) : cutAt? a as = none := by
  have hall : as.dropWhile (· != a) = [] := by
    rw [List.dropWhile_eq_nil_iff]
    rintro x hx
    exact bne_iff_ne.mpr fun heq => h (heq ▸ hx)
  rw [cutAt?, hall]

theorem cutAt?_append (h : a ∉ as) : cutAt? a (as ++ a :: bs) = some (as, bs) := by
  have hall : ∀ x ∈ as, (x != a) = true := fun x hx => bne_iff_ne.mpr fun heq => h (heq ▸ hx)
  rw [cutAt?, List.dropWhile_append_of_pos hall, List.takeWhile_append_of_pos hall]
  simp

theorem cutAt?_eq_some (h : cutAt? a as = some (before, after)) :
    as = before ++ a :: after ∧ a ∉ before := by
  unfold cutAt? at h
  split at h
  · cases h
  · next x more heq =>
    obtain ⟨rfl, rfl⟩ := Prod.mk.inj (Option.some.inj h)
    have hx : x = a := by
      have hhead := List.head_dropWhile_not (· != a) (l := as) (by simp [heq])
      simpa [heq] using hhead
    subst hx
    refine ⟨?_, ?_⟩
    · rw [← heq, List.takeWhile_append_dropWhile]
    · intro hmem
      have hne := List.mem_takeWhile_imp hmem
      exact bne_iff_ne.mp hne rfl

end Text

variable {line rest label before : List Text.Piece}

theorem splitLabel_of_colon (h : .char ':' ∉ before) :
    splitLabel (before ++ .char ':' :: rest) = (Text.trimPieces before, rest) := by
  rw [splitLabel, Text.cutAt?_append h]

theorem splitLabel_of_no_colon (h : .char ':' ∉ line) : splitLabel line = ([], line) := by
  rw [splitLabel, Text.cutAt?_eq_none h]

theorem char_mem_ofString {c : Char} {s : String} : .char c ∈ Text.ofString s ↔ c ∈ s.toList := by
  simp [Text.ofString]

/-- The label of a line is empty, or is trimmed and stands in front of a colon; what follows it is
a part of the line. -/
theorem splitLabel_spec (h : splitLabel line = (label, rest)) :
    rest ⊆ line ∧ (label = [] ∨ ∃ before, line = before ++ .char ':' :: rest ∧
      .char ':' ∉ before ∧ label = Text.trimPieces before) := by
  unfold splitLabel at h
  split at h
  · next before after hcut =>
    obtain ⟨rfl, rfl⟩ := Prod.mk.inj h
    obtain ⟨rfl, hbefore⟩ := Text.cutAt?_eq_some hcut
    exact ⟨fun p hp => List.mem_append_right _ (List.mem_cons_of_mem _ hp),
      Or.inr ⟨before, rfl, hbefore, rfl⟩⟩
  · obtain ⟨rfl, rfl⟩ := Prod.mk.inj h
    exact ⟨fun p hp => hp, Or.inl rfl⟩

/-- A label that was read from bytes keeps them in front of any other text. -/
theorem settled_label {bytes : List UInt8}
    (h : pieces bytes = before ++ .char ':' :: rest) (s : String) :
    Settled (Text.trimPieces before ++ Text.ofString s) := by
  obtain ⟨front, back, hbefore, hback⟩ :=
    Text.exists_eq_append_trimBy Text.Piece.isBlank before
  rw [← Text.trimPieces] at hbefore
  have hline : Settled (front ++ (Text.trimPieces before ++ (back ++ .char ':' :: rest))) := by
    have hsettled := settled_pieces bytes
    rw [h, hbefore] at hsettled
    simpa [List.append_assoc] using hsettled
  -- behind the label stands a blank or the colon
  cases back with
  | nil => exact hline.drop.append_ofString s
  | cons p back =>
    have hp : p ∈ pieces bytes := by
      rw [h, hbefore]
      simp
    obtain ⟨c, rfl⟩ := Text.exists_char_of_isBlank hp (hback p List.mem_cons_self)
    exact hline.drop.append_ofString s

namespace Parse

open Word (Lexeme)

variable {ps : List Piece} {s : String} {toks taken rest : Tokens} {ins : Instr} {f : Form}

/-! ## Colons -/

mutual

theorem IsOperand.colon {taken rest : Tokens} {x : Operand} (h : IsOperand taken x rest) :
    ∀ t ∈ taken, t.kind ≠ .colon := by
  cases h with
  | missing => simp
  | literal hkind _ => simp [hkind]
  | «variable» hkind _ => simp [hkind]
  | element hkind hl hindex hr =>
    have hinside := hindex.colon
    simp only [List.forall_mem_cons, List.forall_mem_append]
    exact ⟨by simp [hkind], by simp [hl], hinside, by simp [hr]⟩

theorem IsExpr.colon {taken rest : Tokens} {x : Expr} (h : IsExpr taken x rest) :
    ∀ t ∈ taken, t.kind ≠ .colon := by
  cases h with
  | unary hop hx =>
    have hoperand := hx.colon
    rw [List.forall_mem_append]
    exact ⟨fun t ht => by simp [hop.kind t ht], hoperand⟩
  | binary hx _ hop _ hy =>
    have hleft := hx.colon
    have hright := hy.colon
    rw [List.forall_mem_append, List.forall_mem_append]
    exact ⟨hleft, fun t ht => by simp [hop.kind t ht], hright⟩
  | atomic hx _ => exact hx.colon

end

theorem IsTarget.colon {x : Target} (h : IsTarget taken x rest) :
    ∀ t ∈ taken, t.kind ≠ .colon := by
  cases h with
  | «variable» hstars hkind _ =>
    rw [List.forall_mem_append, List.forall_mem_singleton]
    exact ⟨fun t ht => by simp [hstars.kind t ht], by simp [hkind]⟩
  | element hstars hkind hl hindex hr =>
    rw [List.forall_mem_append]
    exact ⟨fun t ht => by simp [hstars.kind t ht], (IsOperand.element hkind hl hindex hr).colon⟩

theorem IsCallTail.colon (h : IsCallTail toks ins) : ∀ t ∈ toks, t.kind ≠ .colon := by
  cases h with
  | counted hf hc hk => simp [hf, hc, hk.kind]
  | result hr hc hf => simp [hr, hc, hf]

/-- There is no colon in an instruction. -/
theorem Derives.colon (h : Derives f toks ins) : ∀ t ∈ toks, t.kind = .colon → t.lexeme = "=" := by
  have hword : ∀ {word t}, IsWord word t → t.kind = .colon → t.lexeme = "=" :=
    fun ht hcolon => by cases ht.1.symm.trans hcolon
  have hnone : ∀ {toks : Tokens}, (∀ t ∈ toks, t.kind ≠ .colon) →
      ∀ t ∈ toks, t.kind = .colon → t.lexeme = "=" :=
    fun hno t ht hcolon => absurd hcolon (hno t ht)
  induction h with
  | ifThen ht hcond _ _ _ ih =>
    rw [List.forall_mem_cons, List.forall_mem_append]
    exact ⟨hword ht, hnone hcond.colon, ih⟩
  | print ht hx => exact List.forall_mem_cons.mpr ⟨hword ht, hnone hx.colon⟩
  | ret ht => exact List.forall_mem_singleton.mpr (hword ht)
  | retWith ht _ hx => exact List.forall_mem_cons.mpr ⟨hword ht, hnone hx.colon⟩
  | goto ht hl => exact List.forall_mem_cons.mpr ⟨hword ht, by simp [hl]⟩
  | call ht htail => exact List.forall_mem_cons.mpr ⟨hword ht, hnone htail.colon⟩
  | param ht hx => exact List.forall_mem_cons.mpr ⟨hword ht, hnone hx.colon⟩
  | beginFunc ht hf hc hk =>
    exact List.forall_mem_cons.mpr ⟨hword ht, by simp [hf, hc, hk.kind]⟩
  | endFunc ht => exact List.forall_mem_singleton.mpr (hword ht)
  | assign htarget _ he _ hx =>
    rw [List.forall_mem_append, List.forall_mem_cons]
    exact ⟨hnone htarget.colon, fun _ => he, hnone hx.colon⟩
  | result htarget _ he hc htail =>
    rw [List.forall_mem_append, List.forall_mem_cons, List.forall_mem_cons]
    exact ⟨hnone htarget.colon, fun _ => he, hword hc, hnone htail.colon⟩
  | expression _ hx => exact hnone hx.colon

/-! ## Characters of what is written -/

/-- Each character is a byte of a piece. -/
theorem Written.mem (h : Written ps s) {c : Char} (hc : c ∈ s.toList) :
    ∃ p ∈ ps, ∃ b ∈ p.2, Lexeme p.1 p.2 ∧ c.toNat = b.toNat := by
  obtain ⟨b, more, heq⟩ := List.exists_cons_of_ne_nil (String.utf8EncodeChar_ne_nil (c := c))
  have hb : b ∈ String.utf8EncodeChar c := heq ▸ List.mem_cons_self
  have hmem : b ∈ encode s :=
    List.mem_flatMap.mpr ⟨.char c, List.mem_map_of_mem hc, hb⟩
  rw [← Cuts.joined_eq h, joined, List.mem_flatten] at hmem
  obtain ⟨bytes, hbytes, hmem⟩ := hmem
  obtain ⟨p, hp, rfl⟩ := List.mem_map.mp hbytes
  have hlexeme := (Cuts.pieces h p hp).1
  exact ⟨p, hp, b, hmem, hlexeme,
    (Text.eq_singleton_of_mem_utf8EncodeChar hb (hlexeme.group_eq b hmem).2).2⟩

/-- Each byte of a piece is a character. -/
theorem Written.exists_char (h : Written ps s) {p : Piece} (hp : p ∈ ps) {b : UInt8}
    (hb : b ∈ p.2) : ∃ c ∈ s.toList, c.toNat = b.toNat := by
  have hmem : b ∈ joined ps := List.mem_flatten.mpr ⟨p.2, List.mem_map_of_mem hp, hb⟩
  rw [Cuts.joined_eq h] at hmem
  obtain ⟨q, hq, hmem⟩ := List.mem_flatMap.mp hmem
  obtain ⟨c, hc, rfl⟩ := List.mem_map.mp hq
  exact ⟨c, hc,
    (Text.eq_singleton_of_mem_utf8EncodeChar hmem ((Cuts.pieces h p hp).1.group_eq b hb).2).2⟩

/-- What begins with a token is not blank. -/
theorem Written.not_allBlank (h : Written ps s) (hne : ps ≠ [])
    (hbegins : ∀ p ∈ ps.head?, p.1 ≠ .skip) : Text.allBlank s = false := by
  obtain ⟨⟨a, bytes⟩, ps, rfl⟩ := List.exists_cons_of_ne_nil hne
  obtain ⟨hlexeme, hbytes⟩ := Cuts.pieces h (a, bytes) List.mem_cons_self
  obtain ⟨b, more, rfl⟩ := List.exists_cons_of_ne_nil hbytes
  obtain ⟨c, hc, heq⟩ := h.exists_char List.mem_cons_self (b := b) List.mem_cons_self
  cases a with
  | skip => exact absurd rfl (hbegins _ rfl)
  | emit kind =>
    rw [Text.allBlank, List.all_eq_false]
    refine ⟨c, hc, ?_⟩
    rw [Text.not_isBlank_of_lt (hlexeme.printable b List.mem_cons_self)
      (hlexeme.group_eq b List.mem_cons_self).2 heq]
    exact Bool.false_ne_true

/-- A colon is written for a colon only. -/
theorem Written.colon (h : Written ps s) (hc : ':' ∈ s.toList) : (.emit .colon, [0x3A]) ∈ ps := by
  obtain ⟨⟨a, bytes⟩, hp, b, hb, hlexeme, heq⟩ := h.mem hc
  obtain rfl : b = 0x3A := UInt8.toNat_inj.mp heq.symm
  have hgroup : Word.groupOf 0x3A = Word.group a := (hlexeme.group_eq _ hb).1
  have hsign : Word.groupOf 0x3A = .sign := by decide
  rw [hsign] at hgroup
  cases hlexeme with
  | sign ho =>
    simp only [List.mem_cons, Prod.mk.injEq, List.not_mem_nil, or_false] at ho
    rcases ho with ⟨rfl, rfl⟩ | ⟨rfl, rfl⟩ | ⟨rfl, rfl⟩ | ⟨rfl, rfl⟩
    · exact absurd hb (by decide)
    · exact absurd hb (by decide)
    · exact absurd hb (by decide)
    · exact hp
  | identifier => cases hgroup
  | natural => cases hgroup
  | decimal => cases hgroup
  | blanks => cases hgroup
  | operator => cases hgroup

/-- There is no colon in what is written for an instruction. -/
theorem Written.no_colon (h : Written ps ins.text) (hins : Derives f (placed 0 ps) ins) :
    ':' ∉ ins.text.toList := by
  intro hc
  have hmem : (Action.emit Word.colon, [0x3A]) ∈ ps.filter (·.1 ≠ .skip) :=
    List.mem_filter.mpr ⟨h.colon hc, rfl⟩
  rw [← Lexer.map_placed 0 ps] at hmem
  obtain ⟨t, ht, heq⟩ := List.mem_map.mp hmem
  obtain ⟨hkind, hbytes⟩ := Prod.mk.inj heq
  have hlexeme := hins.colon t ht (Action.emit.inj hkind)
  rw [Token.lexeme, hbytes] at hlexeme
  revert hlexeme
  decide

end Parse

/-! ## Lines -/

open Parse (Form Chosen StandsIn Shown)

theorem readInstr_eq_ok {source : String} {rest : List Text.Piece} {ins : Instr}
    (h : readInstr source rest = .ok ins) (hnoop : ins ≠ .noop) :
    Text.allBlank (Text.display rest) = false ∧
      ∃ ps, Cuts Word.Lexeme (Text.bytes rest) ps ∧ Chosen Form.order (placed 0 ps) ins := by
  unfold readInstr at h
  split at h
  · exact absurd (Except.ok.inj h).symm hnoop
  · next hblank =>
    refine ⟨by simpa using hblank, ?_⟩
    split at h
    · cases h
    · next toks htoks =>
      obtain ⟨ps, hps⟩ := (Word.error_eq_none_iff (Text.bytes rest)).mp (by rw [htoks])
      rw [Word.tokenize_of_cuts hps] at htoks
      obtain ⟨rfl, -⟩ := Prod.mk.inj htoks
      split at h
      · next hins =>
        obtain rfl := Except.ok.inj h
        exact ⟨ps, hps, Parse.instr_eq_some_iff.mp hins⟩
      · cases h

/-- An instruction is read from a text that has its words. -/
theorem readInstr_of_written {source s : String} {ps : List Piece} {ins : Instr}
    (hblank : Text.allBlank s = false) (h : Parse.Written ps s)
    (hins : Chosen Form.order (placed 0 ps) ins) :
    readInstr source (Text.ofString s) = .ok ins := by
  rw [readInstr, Text.display_ofString, hblank]
  have htoks : Word.tokenizeBytes (Text.bytes (Text.ofString s)) = (placed 0 ps, none) :=
    Word.tokenize_of_cuts h
  simp only [Bool.false_eq_true, if_false, htoks, Parse.instr_eq_some_iff.mpr hins]

theorem classify_eq_ok {line : List Text.Piece} {st : Statement} (h : classify line = .ok st) :
    ∃ rest, splitLabel line = (st.label, rest) ∧
      readInstr (Text.display line) rest = .ok st.instr := by
  unfold classify at h
  cases hins : readInstr (Text.display line) (splitLabel line).2 with
  | error e =>
    simp [hins, Except.map] at h
  | ok ins =>
    simp only [hins, Except.map] at h
    obtain rfl := Except.ok.inj h
    exact ⟨_, rfl, hins⟩

theorem classify_of_read {ins : Instr} (hsplit : splitLabel line = (label, rest))
    (hread : readInstr (Text.display line) rest = .ok ins) :
    classify line = .ok ⟨label, ins, Text.display line⟩ := by
  simp only [classify, hsplit, hread, Except.map]

/-- A line that is not blank has a token. -/
theorem placed_ne_nil {bytes : List UInt8} {rest : List Text.Piece} {ps : List Piece}
    (hrest : rest ⊆ pieces bytes) (hblank : Text.allBlank (Text.display rest) = false)
    (h : Cuts Word.Lexeme (Text.bytes rest) ps) : placed 0 ps ≠ [] := by
  intro hnil
  have hskip : ps.filter (·.1 ≠ .skip) = [] := by
    rw [← Lexer.map_placed 0 ps, hnil, List.map_nil]
  have hall : ∀ b ∈ Text.bytes rest, Word.Blank b := by
    intro b hb
    rw [← h.joined_eq, joined, List.mem_flatten] at hb
    obtain ⟨run, hrun, hb⟩ := hb
    obtain ⟨⟨a, run⟩, hp, rfl⟩ := List.mem_map.mp hrun
    have hdropped : a = .skip := by simpa using List.filter_eq_nil_iff.mp hskip _ hp
    subst hdropped
    cases (h.pieces _ hp).1 with
    | blanks _ hblanks => exact hblanks b hb
  rw [Text.allBlank_display hrest hall] at hblank
  cases hblank

/-- The bytes of the text of a statement are read as the statement.  A line that holds no
instruction has no text, and the text of a call of which the count is not known has another form
than the call. -/
theorem classify_text {bytes : List UInt8} {st : Statement} (h : classify (pieces bytes) = .ok st)
    (hnoop : st.instr ≠ .noop) (hopen : ∀ proc result, st.instr.core ≠ .call proc none result) :
    classify (pieces (Text.bytes st.text)) = .ok { st with source := Text.display st.text } := by
  obtain ⟨rest, hsplit, hread⟩ := classify_eq_ok h
  obtain ⟨hrest, hplace⟩ := splitLabel_spec hsplit
  obtain ⟨hblank, qs, hcuts, hchosen⟩ := readInstr_eq_ok hread hnoop
  obtain ⟨ps, hshown, hagain⟩ := hchosen.shown (by decide) hopen (placed_ne_nil hrest hblank hcuts)
    (Parse.standsIn_of_cuts hcuts)
  obtain ⟨f, -, hderives⟩ := (hagain 0).derives
  have hfree := hshown.written.no_colon hderives
  have hfull := hshown.written.not_allBlank hshown.ne_nil hshown.begins
  by_cases hlabel : st.label = []
  · have htext : st.text = Text.ofString st.instr.text := by simp [Statement.text, hlabel]
    have hline := classify_of_read (splitLabel_of_no_colon (mt char_mem_ofString.mp hfree))
      (readInstr_of_written hfull hshown.written (hagain 0))
    rw [htext, settled_ofString, hline, hlabel]
  · obtain ⟨before, hpieces, hbefore, heq⟩ := hplace.resolve_left hlabel
    -- the blank behind the colon is dropped
    have htext : st.text = st.label ++ Text.ofString (": " ++ st.instr.text) := by
      simp [Statement.text, hlabel, Text.ofString]
    have hcut : st.text = st.label ++ .char ':' :: Text.ofString (" " ++ st.instr.text) := by
      simp [htext, Text.ofString]
    have hsettled : Settled st.text := by
      rw [htext, heq]
      exact settled_label hpieces _
    have hwritten : Parse.Written (Parse.gap :: ps) (" " ++ st.instr.text) := by
      refine Parse.written_gap.append hshown.written ?_
      rintro _ ⟨⟩ q hq
      exact (Word.separate_skip (hshown.begins q hq)).2
    have hfull' : Text.allBlank (" " ++ st.instr.text) = false := by
      simp only [Text.allBlank] at hfull ⊢
      simp [hfull]
    have hcolon : .char ':' ∉ st.label := by
      obtain ⟨front, back, hparts, -⟩ :=
        Text.exists_eq_append_trimBy Text.Piece.isBlank before
      rw [heq, Text.trimPieces]
      intro hmem
      rw [hparts] at hbefore
      exact hbefore (by simp [hmem])
    have htrim : Text.trimPieces st.label = st.label := by
      rw [heq]
      exact Text.trimBy_trimBy _ _
    have hline := classify_of_read (splitLabel_of_colon hcolon)
      (readInstr_of_written hfull' hwritten (hagain 1))
    rw [hsettled, hcut, hline, htrim]

/-- A line with a word of another form, stars and two indices; its label has a byte that belongs to
no character. -/
def starredLine : List UInt8 :=
  encode " start" ++ 0xC3 :: encode " : if print>=2 * *x=-a[ b[007] ]"

/-- What it says. -/
def starredStatement : Statement where
  label := Text.ofString "start" ++ [.illFormed [0xC3]]
  instr := .ifThen (.binary ">=" (.variable "print") (.literal ⟨0x4000000000000000⟩ (some "2")))
    (.assign (.variable 2 "x")
      (.unary "-" (.element "a" (.atomic (.element "b"
        (.atomic (.literal ⟨0x401C000000000000⟩ (some "007"))))))))
  source := " start\ufffd : if print>=2 * *x=-a[ b[007] ]"

/-- The text of the line: the stars are written together, and the operators apart. -/
def starredText : List UInt8 := encode "start" ++ 0xC3 :: encode ": if print >= 2 **x = -a[b[007]]"

theorem classify_text_starred :
    classify (pieces starredLine) = .ok starredStatement ∧
      Text.bytes starredStatement.text = starredText ∧
      classify (pieces starredText) =
        .ok { starredStatement with source := Text.display (pieces starredText) } := by
  have hread : classify (pieces starredLine) = .ok starredStatement := by
    decide +kernel
  have htext : Text.bytes starredStatement.text = starredText ∧
      Text.display starredStatement.text = Text.display (pieces starredText) := by
    decide +kernel
  refine ⟨hread, htext.1, ?_⟩
  rw [← htext.2, ← htext.1]
  exact classify_text hread nofun nofun

end AddressCode
