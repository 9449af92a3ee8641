import AddressCode.Program
import AddressCode.Proofs.RoundTrip

/-!
# AddressCode.Proofs.InsertedBlanks — blanks between the words of a line

A blank that is put into a line is read over, unless it stands inside of a token or tears operators
apart that touch each other (`TokenEdge`), or stands inside of the label.

* If a text is cut into lexemes, so is the text with more blanks at the edge of a token, and the
  tokens are the same ones, those behind the blanks further to the right (`Word.cuts_insert`).
* Operators that touch still do, and others still do not.  So each list of tokens is tighter than
  the other, and both have the same instruction (`Parse.Chosen.transfer`, `Parse.instr_congr`).
* What is left is the label, whose blanks are trimmed (`Text.trimBy_insert`).

`classify_ignores_blanks` puts this together, for a line and for the label table of a program.
-/

namespace AddressCode

open MaxMunch
open Lexer (placed)

/-! ## Lexemes around blanks -/

namespace Word

variable {u v ws text s rest : List UInt8} {a : Action Word} {ps : List Piece} {n : Nat}

/-- A lexeme with a blank in it is blank. -/
theorem Lexeme.blank_of_mem {b : UInt8} (h : Lexeme a s) (hmem : b ∈ s) (hb : Blank b) :
    a = .skip ∧ ∀ c ∈ s, Blank c := by
  have hgroup : group a = .blank := by
    rw [← (h.group_eq b hmem).1]
    rcases hb with rfl | rfl | rfl | rfl <;> decide
  cases h with
  | blanks _ hs => exact ⟨rfl, hs⟩
  | identifier => cases hgroup
  | natural => cases hgroup
  | decimal => cases hgroup
  | operator => cases hgroup
  | @sign o kind ho =>
    obtain ⟨-, -, -, hsign, -⟩ := groupOf_signs (o, kind) ho
    cases hgroup.symm.trans hsign

theorem Lexeme.blanks_of_skip (h : Lexeme .skip s) : ∀ c ∈ s, Blank c := by
  cases h with
  | blanks _ hs => exact hs

/-- Blanks in front of blanks are taken together with them. -/
theorem takes_blanks (h : Takes Lexeme text .skip s rest) (hws : ∀ b ∈ ws, Blank b) :
    Takes Lexeme (ws ++ text) .skip (ws ++ s) rest := by
  have hs := h.piece.blanks_of_skip
  refine ⟨by rw [h.split, List.append_assoc], by simp [h.ne_nil],
    .blanks (by simp [h.ne_nil]) (List.forall_mem_append.mpr ⟨hws, hs⟩), ?_⟩
  intro c w v hw heq
  by_contra hlong
  rw [List.length_append, Nat.not_le] at hlong
  have hle : ws.length ≤ w.length := by omega
  obtain ⟨w, rfl⟩ := List.prefix_of_prefix_length_le ⟨text, rfl⟩ ⟨v, heq.symm⟩ hle
  rw [List.append_assoc, List.append_cancel_left_eq] at heq
  rw [List.length_append, Nat.add_lt_add_iff_left] at hlong
  -- the piece reaches behind the blanks, and is blank because of them
  obtain ⟨b, more, rfl⟩ := List.exists_cons_of_ne_nil h.ne_nil
  have hne : w ≠ [] := List.ne_nil_of_length_pos (Nat.zero_lt_of_lt hlong)
  obtain ⟨b', w, rfl⟩ := List.exists_cons_of_ne_nil hne
  obtain ⟨rfl, -⟩ : b = b' ∧ _ := List.cons.inj (h.split.symm.trans heq)
  obtain ⟨-, hall⟩ := hw.blank_of_mem (b := b) (by simp) (hs b List.mem_cons_self)
  have hblank : Lexeme .skip (b :: w) :=
    .blanks (by simp) fun c hc => hall c (List.mem_append_right _ hc)
  exact Nat.not_le.mpr hlong (h.longest hblank heq)

/-- Blanks in front of a text are dropped. -/
theorem cuts_blanks (h : Cuts Lexeme text ps) (hws : ∀ b ∈ ws, Blank b) :
    ∃ qs, Cuts Lexeme (ws ++ text) qs ∧ ∀ m, placed m qs = placed (m + ws.length) ps := by
  by_cases hne : ws = []
  · subst hne
    exact ⟨ps, h, fun m => rfl⟩
  by_cases hhead : ∀ p ∈ ps.head?, p.1 ≠ .skip
  · have hfront : Cuts Lexeme ws [(.skip, ws)] := Cuts.single (.blanks hne hws) hne
    refine ⟨(.skip, ws) :: ps, cuts_append hfront h ?_, fun m => rfl⟩
    rintro _ ⟨⟩ q hq
    exact (separate_skip (hhead q hq)).2
  · -- the blanks belong to the first piece
    obtain ⟨⟨a, s⟩, ps, rfl, rfl⟩ : ∃ p ps', ps = p :: ps' ∧ p.1 = .skip := by
      cases ps with
      | nil => exact absurd nofun hhead
      | cons p ps => exact ⟨p, ps, rfl, by simpa using hhead⟩
    cases h with
    | cons h hrest =>
      refine ⟨_, .cons (takes_blanks h hws) hrest, fun m => ?_⟩
      rw [placed, placed, List.length_append, Nat.add_assoc]

/-- The longest piece is also the longest one if there are more blanks further on, unless the piece
is blank and the blanks follow it. -/
theorem takes_insert (h : Takes Lexeme (s ++ (u ++ v)) a s (u ++ v)) (hws : ∀ b ∈ ws, Blank b)
    (hapart : a = .skip → u ≠ []) :
    Takes Lexeme (s ++ (u ++ (ws ++ v))) a s (u ++ (ws ++ v)) := by
  refine ⟨rfl, h.ne_nil, h.piece, ?_⟩
  intro c w x hw heq
  rw [← List.append_assoc] at heq
  rcases List.append_eq_append_iff.mp heq with ⟨more, rfl, hmore⟩ | ⟨less, hless, -⟩
  · rcases ws with _ | ⟨b, ws⟩
    · refine h.longest (v := x) hw ?_
      rw [List.append_assoc, ← hmore, List.append_assoc]
      rfl
    rcases more with _ | ⟨b', more⟩
    · exact h.longest (v := v) hw (by simp)
    -- a piece that reaches the blanks is blank, and then `s` is not the longest one
    obtain ⟨rfl, -⟩ := List.cons.inj hmore
    obtain ⟨-, hall⟩ := hw.blank_of_mem (b := b) (by simp) (hws b List.mem_cons_self)
    have hblank : ∀ c ∈ s ++ u, Blank c := fun c hc => hall c (List.mem_append_left _ hc)
    obtain ⟨d, hd⟩ := List.exists_mem_of_ne_nil s h.ne_nil
    obtain ⟨rfl, -⟩ := h.piece.blank_of_mem hd (hblank d (List.mem_append_left _ hd))
    have hlonger : Lexeme .skip (s ++ u) := .blanks (by simp [h.ne_nil]) hblank
    have hle := h.longest hlonger (List.append_assoc s u v).symm
    have hpos := List.length_pos_iff.mpr (hapart rfl)
    rw [List.length_append] at hle
    omega
  · refine h.longest (v := less ++ v) hw ?_
    rw [← List.append_assoc, hless, List.append_assoc]

/-- More blanks at a place that is inside of no token leave the tokens as they are, but for the
places of those behind the blanks. -/
theorem cuts_insert (h : Cuts Lexeme text ps) (htext : text = u ++ v) (hws : ∀ b ∈ ws, Blank b)
    (hedge : ∀ t ∈ placed n ps, t.span.stop ≤ n + u.length ∨ n + u.length ≤ t.span.start) :
    ∃ qs left right i, Cuts Lexeme (u ++ (ws ++ v)) qs ∧ (joined left).length ≤ u.length ∧
      u.length ≤ i ∧ ∀ m, placed m ps = placed m left ++ placed (m + i) right ∧
        placed m qs = placed m left ++ placed (m + (i + ws.length)) right := by
  induction h generalizing u n with
  | nil =>
    obtain ⟨rfl, rfl⟩ := List.append_eq_nil_iff.mp htext.symm
    obtain ⟨qs, hqs, hplaced⟩ := cuts_blanks (.nil : Cuts Lexeme [] []) hws
    refine ⟨qs, [], [], 0, hqs, Nat.le_refl 0, Nat.le_refl 0, fun m => ⟨rfl, ?_⟩⟩
    rw [hplaced, Nat.zero_add]
    rfl
  | @cons text a s rest ps h hrest ih =>
    obtain rfl := h.split
    have hplace : (∃ u', u = s ++ u' ∧ rest = u' ++ v) ∨
        ∃ s', s' ≠ [] ∧ s = u ++ s' ∧ v = s' ++ rest := by
      rcases List.append_eq_append_iff.mp htext with hbehind | ⟨s', hs, hv⟩
      · exact Or.inl hbehind
      · by_cases hne : s' = []
        · subst hne
          exact Or.inl ⟨[], by simpa using hs.symm, by simpa using hv.symm⟩
        · exact Or.inr ⟨s', hne, hs, hv⟩
    rcases hplace with ⟨u, rfl, rfl⟩ | ⟨s', hs', rfl, rfl⟩
    · by_cases hblank : a = .skip ∧ u = []
      · -- the blanks follow blanks
        obtain ⟨rfl, rfl⟩ := hblank
        have hs := h.piece.blanks_of_skip
        obtain ⟨qs, hqs, hplaced⟩ :=
          cuts_blanks hrest (List.forall_mem_append.mpr ⟨hs, hws⟩)
        refine ⟨qs, [], ps, s.length, by simpa using hqs, by simp, by simp, fun m => ⟨?_, ?_⟩⟩
        · rw [placed]
          rfl
        · rw [hplaced, List.length_append]
          rfl
      · rw [Lexer.placed_cons] at hedge
        have hinner : ∀ t ∈ placed (n + s.length) ps, t.span.stop ≤ n + s.length + u.length ∨
            n + s.length + u.length ≤ t.span.start := by
          intro t ht
          have hspan := hedge t (List.mem_append_right _ ht)
          rwa [List.length_append, ← Nat.add_assoc] at hspan
        obtain ⟨qs, left, right, i, hqs, hleft, hi, hplaced⟩ := ih rfl hinner
        have htakes := takes_insert h hws fun hskip hu => hblank ⟨hskip, hu⟩
        refine ⟨(a, s) :: qs, (a, s) :: left, right, s.length + i, ?_, ?_, ?_, fun m => ?_⟩
        · rw [List.append_assoc]
          exact .cons htakes hqs
        · rw [joined_cons, List.length_append, List.length_append]
          exact Nat.add_le_add_left hleft _
        · rw [List.length_append]
          exact Nat.add_le_add_left hi _
        · obtain ⟨hps, hqs'⟩ := hplaced (m + s.length)
          rw [Lexer.placed_cons m a s ps, Lexer.placed_cons m a s qs,
            Lexer.placed_cons m a s left, hps, hqs']
          simp only [List.append_assoc, Nat.add_assoc, and_self]
    · by_cases hu : u = []
      · subst hu
        obtain ⟨qs, hqs, hplaced⟩ := cuts_blanks (.cons h hrest) hws
        refine ⟨qs, [], _, 0, by simpa using hqs, Nat.le_refl 0, Nat.le_refl 0, fun m => ⟨rfl, ?_⟩⟩
        rw [hplaced, Nat.zero_add]
        rfl
      · -- inside of a piece, which is no token
        cases a with
        | emit kind =>
          have hinside := hedge _ (by rw [placed]; exact List.mem_cons_self)
          have hpos := List.length_pos_iff.mpr hu
          have hpos' := List.length_pos_iff.mpr hs'
          simp only [List.length_append] at hinside
          omega
        | skip =>
          have hs := h.piece.blanks_of_skip
          rw [List.forall_mem_append] at hs
          have hblanks : ∀ b ∈ u ++ (ws ++ s'), Blank b :=
            List.forall_mem_append.mpr ⟨hs.1, List.forall_mem_append.mpr ⟨hws, hs.2⟩⟩
          obtain ⟨qs, hqs, hplaced⟩ := cuts_blanks hrest hblanks
          refine ⟨qs, [], ps, (u ++ s').length, by simpa using hqs, Nat.zero_le _, by simp,
            fun m => ⟨?_, ?_⟩⟩
          · rw [placed]
            rfl
          · rw [hplaced]
            simp only [placed, List.nil_append, List.length_append]
            congr 1
            omega

/-- A place in a text, behind `u` and in front of `v`, that is inside of no token, and not between
two operator tokens that touch. -/
structure TokenEdge (u v : List UInt8) : Prop where
  outside : ∀ t ∈ (tokenizeBytes (u ++ v)).1, t.span.stop ≤ u.length ∨ u.length ≤ t.span.start
  apart : ∀ t ∈ (tokenizeBytes (u ++ v)).1, ∀ t' ∈ (tokenizeBytes (u ++ v)).1, t.kind = .op →
    t'.kind = .op → t.span.stop = u.length → t'.span.start ≠ u.length

end Word

namespace Parse

open Word (Lexeme Blank TokenEdge)

variable {toks toks' : Tokens} {ins : Instr} {forms : List Form} {u v ws : List UInt8}
  {ps : List Piece} {n k : Nat}

/-! ## The same words further to the right -/

/-- A token further to the right. -/
def moved (k : Nat) (t : Token Word) : Token Word :=
  { t with span := ⟨t.span.start + k, t.span.stop + k⟩ }

theorem placed_add (n k : Nat) (ps : List Piece) :
    placed (n + k) ps = (placed n ps).map (moved k) := by
  induction ps generalizing n with
  | nil => rfl
  | cons p ps ih =>
    obtain ⟨a, s⟩ := p
    have hrest := ih (n + s.length)
    rw [Nat.add_right_comm] at hrest
    cases a with
    | emit kind => rw [placed, placed, hrest, List.map_cons, moved, Nat.add_right_comm n]
    | skip => rw [placed, placed, hrest]

theorem upright_placed (n : Nat) (ps : List Piece) :
    ∀ t ∈ placed n ps, t.span.start ≤ t.span.stop := by
  intro t ht
  obtain ⟨_, _, -, hspan⟩ := Lexer.mem_placed ht
  rw [hspan]
  exact Nat.le_add_right _ _

theorem tighter_moved (k : Nat) (h : ∀ t ∈ toks, t.span.start ≤ t.span.stop) :
    Tighter toks (toks.map (moved k)) ∧ Tighter (toks.map (moved k)) toks := by
  induction toks with
  | nil => exact ⟨.nil, .nil⟩
  | cons t toks ih =>
    obtain ⟨ht, htoks⟩ := List.forall_mem_cons.mp h
    obtain ⟨hright, hleft⟩ := ih htoks
    have hmoved : (moved k t).span.start ≤ (moved k t).span.stop := Nat.add_le_add_right ht k
    rw [List.map_cons]
    refine ⟨.cons ⟨rfl, rfl, ht, hmoved⟩ ?_ hright, .cons ⟨rfl, rfl, hmoved, ht⟩ ?_ hleft⟩
    · rw [List.head?_map]
      rintro u hu _ hu' ⟨hop, hop', htouch⟩
      obtain rfl := Option.mem_unique hu' (Option.mem_map_of_mem _ hu)
      exact ⟨hop, hop', Nat.add_right_cancel htouch⟩
    · rw [List.head?_map]
      rintro _ hu' u hu ⟨hop, hop', htouch⟩
      obtain rfl := Option.mem_unique hu' (Option.mem_map_of_mem _ hu)
      exact ⟨hop, hop', congrArg (· + k) htouch⟩

/-- The tokens of a text with more blanks at the edge of a token are the same words, and operators
touch where they did. -/
theorem tokens_insert (h : Cuts Lexeme (u ++ v) ps) (hedge : TokenEdge u v)
    (hws : ∀ b ∈ ws, Blank b) :
    ∃ qs, Cuts Lexeme (u ++ (ws ++ v)) qs ∧ Tighter (placed 0 ps) (placed 0 qs) ∧
      Tighter (placed 0 qs) (placed 0 ps) := by
  obtain ⟨houtside, hapart⟩ := hedge
  rw [Word.tokenize_of_cuts h] at houtside hapart
  obtain ⟨qs, left, right, i, hqs, hleft, hi, hplaced⟩ :=
    Word.cuts_insert (n := 0) h rfl hws (by simpa using houtside)
  obtain ⟨hold, hnew⟩ := hplaced 0
  rw [Nat.zero_add] at hold hnew
  rw [placed_add] at hnew
  -- no operators touch where the blanks are put
  have hmeet : ∀ t ∈ (placed 0 left).getLast?, ∀ t' ∈ (placed i right).head?, t.kind = .op →
      t'.kind = .op → t.span.stop < t'.span.start := by
    intro t ht t' ht' hop hop'
    have hmem := List.mem_of_getLast? ht
    have hmem' := List.mem_of_mem_head? ht'
    have hstop : t.span.stop ≤ u.length := by
      obtain ⟨before, after, rfl, hspan⟩ := Lexer.mem_placed hmem
      rw [hspan]
      simp only [joined_append, joined_cons, List.length_append] at hleft ⊢
      omega
    have hstart : i ≤ t'.span.start := by
      obtain ⟨_, _, -, hspan⟩ := Lexer.mem_placed hmem'
      rw [hspan]
      exact Nat.le_add_right _ _
    by_contra hle
    refine hapart t ?_ t' ?_ hop hop' (by omega) (by omega)
    · rw [hold]
      exact List.mem_append_left _ hmem
    · rw [hold]
      exact List.mem_append_right _ hmem'
  obtain ⟨hsame, -⟩ := tighter_moved 0 (upright_placed 0 left)
  rw [show moved 0 = id from rfl, List.map_id] at hsame
  obtain ⟨hmoved, hback⟩ := tighter_moved ws.length (upright_placed i right)
  refine ⟨qs, hqs, ?_, ?_⟩
  · rw [hold, hnew]
    refine hsame.append hmoved ?_
    rintro t ht _ hu ⟨hop, hop', htouch⟩
    rw [List.head?_map] at hu
    obtain ⟨t', ht', rfl⟩ := Option.mem_map.mp hu
    have hlt := hmeet t ht t' ht' hop hop'
    simp only [moved] at htouch
    omega
  · rw [hold, hnew]
    refine hsame.append hback ?_
    rintro t ht t' ht' ⟨hop, hop', htouch⟩
    exact absurd htouch (Nat.ne_of_lt (hmeet t ht t' ht' hop hop'))

/-! ## The same instruction -/

theorem Tighter.length_eq (h : Tighter toks toks') : toks.length = toks'.length := by
  induction h with
  | nil => rfl
  | cons _ _ _ ih => rw [List.length_cons, List.length_cons, ih]

/-- A line has the same form if its tokens are tighter and not tighter. -/
theorem Chosen.transfer (h : Chosen forms toks' ins) (htight : Tighter toks toks')
    (hloose : Tighter toks' toks) : Chosen forms toks ins := by
  induction h generalizing toks with
  | @ifThen t taken rest cond action forms ht hcond hrest _ ih =>
    obtain ⟨u, _, rfl, hword, htight⟩ := htight.of_cons
    obtain ⟨taken', rest', rfl, htaken, hrest'⟩ := htight.of_append
    obtain ⟨_, _, heq, -, hloose⟩ := hloose.of_cons
    obtain ⟨-, rfl⟩ := List.cons.inj heq
    obtain ⟨_, _, heq, hloose', hloose⟩ := hloose.of_append
    obtain ⟨-, rfl⟩ := List.append_inj heq (htaken.length_eq.symm.trans hloose'.length_eq.symm)
    exact .ifThen (ht.transfer hword) (hcond.transfer htaken hrest'.follows_self)
      (mt hrest'.eq_nil_iff.mp hrest) (ih hrest' hloose)
  | here hf h => exact .here hf (h.transfer htight)
  | later hnot _ ih =>
    exact .later (fun ins h => hnot ins (h.transfer hloose)) (ih htight hloose)

theorem instr_congr (htight : Tighter toks toks') (hloose : Tighter toks' toks) :
    instr toks = instr toks' := by
  refine Option.ext fun ins => ?_
  rw [instr_eq_some_iff, instr_eq_some_iff]
  exact ⟨fun h => h.transfer hloose htight, fun h => h.transfer htight hloose⟩

end Parse

/-! ## The same label -/

namespace Text

variable {α : Type} {p : α → Bool} {as bs ws : List α}

/-- What is put behind or in front of an end that is trimmed is trimmed with it. -/
theorem trimBy_insert (hws : ∀ x ∈ ws, p x = true)
    (h : (∀ x ∈ as, p x = true) ∨ ∀ x ∈ bs, p x = true) :
    trimBy p (as ++ (ws ++ bs)) = trimBy p (as ++ bs) := by
  by_cases has : ∀ x ∈ as, p x = true
  · rw [trimBy, List.dropWhile_append_of_pos has, List.dropWhile_append_of_pos hws, trimBy,
      List.dropWhile_append_of_pos has]
  · have hbs := h.resolve_left has
    have hback : ∀ cs, (∀ x ∈ cs, p x = true) →
        trimBy p (as ++ cs) = ((as.dropWhile p).reverse.dropWhile p).reverse := by
      intro cs hcs
      have hne : as.dropWhile p ≠ [] := by rwa [ne_eq, List.dropWhile_eq_nil_iff]
      rw [trimBy, List.dropWhile_append, if_neg (by simpa using hne), List.reverse_append,
        List.dropWhile_append_of_pos (by simpa using hcs)]
    rw [hback _ (List.forall_mem_append.mpr ⟨hws, hbs⟩), hback _ hbs]

/-- A text is shown as blanks if each of its pieces is. -/
theorem allBlank_display_iff {ps : List Piece} :
    allBlank (display ps) = true ↔ ∀ q ∈ ps, q.isBlank = true := by
  simp only [allBlank, display, String.toList_ofList, List.all_eq_true, List.mem_flatMap,
    Piece.isBlank]
  exact ⟨fun h q hq c hc => h c ⟨q, hq, hc⟩, fun h c hc => h _ hc.choose_spec.1 c hc.choose_spec.2⟩

end Text

/-! ## Lines -/

/-- The characters between words. -/
def Word.blankChars : List Char := [' ', '\t', '\r', '\n']

/-- The text behind the label of a line consists of tokens and blanks. -/
def Tokenized (line : List Text.Piece) : Prop :=
  (Word.tokenizeBytes (Text.bytes (splitLabel line).2)).2 = none

/-- A place in a line, behind `u` and in front of `v`, at which blanks do not count. -/
inductive BlankPlace : List Text.Piece → List Text.Piece → Prop where
  /-- in front of the first colon, with nothing but blanks before it or between it and the colon:
  before or behind the label -/
  | label {u w rest : List Text.Piece} (hu : .char ':' ∉ u) (hw : .char ':' ∉ w)
      (hends : Text.allBlank (Text.display u) = true ∨ Text.allBlank (Text.display w) = true) :
      BlankPlace u (w ++ .char ':' :: rest)
  /-- behind the first colon -/
  | behind {label u v : List Text.Piece} (hlabel : .char ':' ∉ label)
      (hedge : Word.TokenEdge (Text.bytes u) (Text.bytes v)) :
      BlankPlace (label ++ .char ':' :: u) v
  /-- in a line without a colon -/
  | plain {u v : List Text.Piece} (hcolon : .char ':' ∉ u ++ v)
      (hedge : Word.TokenEdge (Text.bytes u) (Text.bytes v)) : BlankPlace u v

/-- Two lines have the same label and instruction, or are both in error for want of an instruction.
They differ in their own texts only. -/
inductive SameReading : Except SyntaxError Statement → Except SyntaxError Statement → Prop where
  | statement {label : List Text.Piece} {source source' : String} {ins : Instr} :
      SameReading (.ok ⟨label, ins, source⟩) (.ok ⟨label, ins, source'⟩)
  | failure {source source' : String} :
      SameReading (.error ⟨source, none⟩) (.error ⟨source', none⟩)

section Lines

open Word (Lexeme TokenEdge blankChars)

variable {u v line line' rest rest' label : List Text.Piece} {blanks source : String}
  {ps : List Piece}

theorem bytes_blanks (h : ∀ c ∈ blanks.toList, c ∈ blankChars) :
    ∀ b ∈ Text.bytes (Text.ofString blanks), Word.Blank b := by
  have hall : (blankChars.all fun c => (String.utf8EncodeChar c).all fun b => Word.Blank b) := by
    decide +kernel
  intro b hb
  obtain ⟨p, hp, hb⟩ := List.mem_flatMap.mp hb
  obtain ⟨c, hc, rfl⟩ := List.mem_map.mp hp
  simpa using List.all_eq_true.mp (List.all_eq_true.mp hall c (h c hc)) b hb

theorem isBlank_blanks (h : ∀ c ∈ blanks.toList, c ∈ blankChars) :
    ∀ c ∈ blanks.toList, Text.isBlank c = true := by
  have hall : blankChars.all Text.isBlank = true := by decide
  exact fun c hc => List.all_eq_true.mp hall c (h c hc)

theorem colon_not_mem_blanks (h : ∀ c ∈ blanks.toList, c ∈ blankChars) :
    .char ':' ∉ Text.ofString blanks := by
  intro hmem
  obtain ⟨c, hc, heq⟩ := List.mem_map.mp hmem
  have hcolon := h c hc
  rw [Text.Piece.char.inj heq] at hcolon
  revert hcolon
  decide

theorem display_append (u v : List Text.Piece) :
    (Text.display (u ++ v)).toList = (Text.display u).toList ++ (Text.display v).toList := by
  simp [Text.display]

/-- What stands behind the label is read from its tokens. -/
theorem readInstr_of_cuts (h : Cuts Lexeme (Text.bytes rest) ps) (source : String) :
    readInstr source rest =
      (if Text.allBlank (Text.display rest) then some .noop
        else Parse.instr (placed 0 ps)).elim (.error ⟨source, none⟩) .ok := by
  rw [readInstr, Word.tokenize_of_cuts h]
  split
  · rfl
  · dsimp only
    cases Parse.instr (placed 0 ps) <;> rfl

/-- More blanks between the words behind the label. -/
theorem readInstr_insert (h : (Word.tokenizeBytes (Text.bytes (u ++ v))).2 = none)
    (hedge : TokenEdge (Text.bytes u) (Text.bytes v))
    (hblanks : ∀ c ∈ blanks.toList, c ∈ blankChars) :
    ∃ ins : Option Instr, ∀ source,
      readInstr source (u ++ v) = ins.elim (.error ⟨source, none⟩) .ok ∧
      readInstr source (u ++ (Text.ofString blanks ++ v)) =
        ins.elim (.error ⟨source, none⟩) .ok := by
  obtain ⟨ps, hps⟩ := (Word.error_eq_none_iff _).mp h
  have hsplit := hps
  rw [Text.bytes_append] at hsplit
  obtain ⟨qs, hqs, htight, hloose⟩ := Parse.tokens_insert hsplit hedge (bytes_blanks hblanks)
  rw [← Text.bytes_append, ← Text.bytes_append] at hqs
  have hall : Text.allBlank (Text.display (u ++ (Text.ofString blanks ++ v))) =
      Text.allBlank (Text.display (u ++ v)) := by
    have hspaces : blanks.toList.all Text.isBlank = true :=
      List.all_eq_true.mpr (isBlank_blanks hblanks)
    simp only [Text.allBlank, display_append, Text.display_ofString, List.all_append, hspaces,
      Bool.true_and]
  refine ⟨_, fun source => ⟨readInstr_of_cuts hps source, ?_⟩⟩
  rw [readInstr_of_cuts hqs, hall, Parse.instr_congr hloose htight]

/-- Blanks around a label are trimmed. -/
theorem trimPieces_insert (hblanks : ∀ c ∈ blanks.toList, c ∈ blankChars)
    (hends : Text.allBlank (Text.display u) = true ∨ Text.allBlank (Text.display v) = true) :
    Text.trimPieces (u ++ (Text.ofString blanks ++ v)) = Text.trimPieces (u ++ v) := by
  rw [Text.allBlank_display_iff, Text.allBlank_display_iff] at hends
  refine Text.trimBy_insert ?_ hends
  rw [← Text.allBlank_display_iff, Text.display_ofString, Text.allBlank, List.all_eq_true]
  exact isBlank_blanks hblanks

theorem sameReading_of_read {ins : Option Instr} (hsplit : splitLabel line = (label, rest))
    (hsplit' : splitLabel line' = (label, rest'))
    (hread : ∀ source, readInstr source rest = ins.elim (.error ⟨source, none⟩) .ok)
    (hread' : ∀ source, readInstr source rest' = ins.elim (.error ⟨source, none⟩) .ok) :
    SameReading (classify line) (classify line') := by
  simp only [classify, hsplit, hsplit', hread, hread']
  cases ins with
  | none => exact .failure
  | some ins => exact .statement

/-- Blanks at such a place keep the label and the reading of the line. -/
theorem BlankPlace.insert (h : BlankPlace u v) (htokens : Tokenized (u ++ v))
    (hblanks : ∀ c ∈ blanks.toList, c ∈ blankChars) :
    (splitLabel (u ++ (Text.ofString blanks ++ v))).1 = (splitLabel (u ++ v)).1 ∧
      SameReading (classify (u ++ v)) (classify (u ++ (Text.ofString blanks ++ v))) := by
  have hcolon := colon_not_mem_blanks hblanks
  unfold Tokenized at htokens
  cases h with
  | @label u w rest hu hw hends =>
    have hsplit : splitLabel (u ++ (w ++ .char ':' :: rest)) =
        (Text.trimPieces (u ++ w), rest) := by
      rw [← List.append_assoc, splitLabel_of_colon (by simp [hu, hw])]
    have hsplit' : splitLabel (u ++ (Text.ofString blanks ++ (w ++ .char ':' :: rest))) =
        (Text.trimPieces (u ++ w), rest) := by
      rw [← List.append_assoc, ← List.append_assoc, List.append_assoc u,
        splitLabel_of_colon (by simp [hu, hw, hcolon]), trimPieces_insert hblanks hends]
    rw [hsplit] at htokens
    obtain ⟨ps, hps⟩ := (Word.error_eq_none_iff _).mp htokens
    exact ⟨by rw [hsplit, hsplit'],
      sameReading_of_read hsplit hsplit' (readInstr_of_cuts hps) (readInstr_of_cuts hps)⟩
  | @behind label u v hlabel hedge =>
    have hsplit : splitLabel (label ++ .char ':' :: (u ++ v)) = (_, u ++ v) :=
      splitLabel_of_colon hlabel
    have hsplit' : splitLabel (label ++ .char ':' :: (u ++ (Text.ofString blanks ++ v))) = (_, _) :=
      splitLabel_of_colon hlabel
    rw [List.append_assoc, List.cons_append] at htokens ⊢
    rw [List.append_assoc, List.cons_append]
    rw [hsplit] at htokens
    obtain ⟨ins, hins⟩ := readInstr_insert htokens hedge hblanks
    exact ⟨by rw [hsplit, hsplit'],
      sameReading_of_read hsplit hsplit' (fun s => (hins s).1) fun s => (hins s).2⟩
  | plain hnone hedge =>
    have hsplit := splitLabel_of_no_colon hnone
    have hsplit' : splitLabel (u ++ (Text.ofString blanks ++ v)) = ([], _) :=
      splitLabel_of_no_colon (by simpa [hcolon] using hnone)
    rw [hsplit] at htokens
    obtain ⟨ins, hins⟩ := readInstr_insert htokens hedge hblanks
    exact ⟨by rw [hsplit, hsplit'],
      sameReading_of_read hsplit hsplit' (fun s => (hins s).1) fun s => (hins s).2⟩

end Lines

/-! ## The ends of a line -/

namespace Word

variable {text : List UInt8}

theorem span_mem {t : Token Word} (h : (tokenizeBytes text).2 = none)
    (ht : t ∈ (tokenizeBytes text).1) : t.span.start < t.span.stop ∧ t.span.stop ≤ text.length := by
  obtain ⟨ps, hps⟩ := (error_eq_none_iff text).mp h
  rw [tokenize_of_cuts hps] at ht
  obtain ⟨before, after, rfl, hspan⟩ := Lexer.mem_placed ht
  have hne : t.bytes ≠ [] := (hps.pieces _ (List.mem_append_right _ List.mem_cons_self)).2
  have hpos := List.length_pos_iff.mpr hne
  rw [hspan, ← hps.joined_eq]
  simp only [joined_append, joined_cons, List.length_append]
  omega

theorem tokenEdge_begin (h : (tokenizeBytes text).2 = none) : TokenEdge [] text := by
  refine ⟨fun t _ => Or.inr (Nat.zero_le _), fun t ht _ _ _ _ hstop => ?_⟩
  exact absurd hstop (Nat.ne_of_gt (Nat.zero_lt_of_lt (span_mem h ht).1))

theorem tokenEdge_end (h : (tokenizeBytes text).2 = none) : TokenEdge text [] := by
  rw [← List.append_nil text] at h
  refine ⟨fun t ht => Or.inl ?_, fun _ _ t ht _ _ _ hstart => ?_⟩
  · simpa using (span_mem h ht).2
  · have hspan := span_mem h ht
    rw [List.append_nil, hstart] at hspan
    omega

end Word

section Ends

variable {line : List Text.Piece}

/-- Blanks do not count at the beginning of a line. -/
theorem blankPlace_begin (h : Tokenized line) : BlankPlace [] line := by
  by_cases hcolon : .char ':' ∈ line
  · obtain ⟨before, after, rfl, hbefore⟩ := List.eq_append_cons_of_mem hcolon
    exact .label nofun hbefore (Or.inl (by decide))
  · rw [Tokenized, splitLabel_of_no_colon hcolon] at h
    exact .plain hcolon (Word.tokenEdge_begin h)

/-- Blanks do not count at the end of a line. -/
theorem blankPlace_end (h : Tokenized line) : BlankPlace line [] := by
  by_cases hcolon : .char ':' ∈ line
  · obtain ⟨before, after, rfl, hbefore⟩ := List.eq_append_cons_of_mem hcolon
    rw [Tokenized, splitLabel_of_colon hbefore] at h
    exact .behind hbefore (Word.tokenEdge_end h)
  · rw [Tokenized, splitLabel_of_no_colon hcolon] at h
    exact .plain (by simpa using hcolon) (Word.tokenEdge_end h)

end Ends

/-! ## Programs -/

/-- A line with a carriage return at its end. -/
def Line.withReturn (l : Line) : Line := ofPieces (l.pieces ++ [.char '\r'])

theorem Line.pieces_withReturn (l : Line) : l.withReturn.pieces = l.pieces ++ [.char '\r'] := rfl

namespace Program

/-- A program whose lines end in a carriage return each. -/
def withReturns (p : Program) : Program := p.map Line.withReturn

/-- The label table depends on the labels of the lines, and on where procedures begin and end. -/
theorem addLabels_map {f : Line → Line} {ls : List Line}
    (h : ∀ l ∈ ls, (f l).label = l.label ∧ (f l).opens = l.opens ∧ (f l).closes = l.closes)
    (labels : Labels Nat (List UInt8)) (depth pc : Nat) :
    addLabels labels depth pc (ls.map f) = addLabels labels depth pc ls := by
  induction ls generalizing labels depth pc with
  | nil => rfl
  | cons l ls ih =>
    obtain ⟨⟨hlabel, hopens, hcloses⟩, hrest⟩ := List.forall_mem_cons.mp h
    rw [List.map_cons, addLabels, addLabels, Line.name, hlabel, depthAfter, hopens, hcloses,
      ih hrest]
    rfl

end Program

theorem SameReading.opens_closes {l l' : Line}
    (h : SameReading (classify l.pieces) (classify l'.pieces)) :
    l'.opens = l.opens ∧ l'.closes = l.closes := by
  simp only [Line.opens, Line.closes, l.instr_eq, l'.instr_eq]
  generalize classify l.pieces = x at h
  generalize classify l'.pieces = y at h
  cases h <;> simp [Except.map]

/-- Blanks, tabs and line ends that are put into a line, at its begin or end, around the label or
between its words, change nothing but the text of the line: it has the same label and instruction,
or is in error as before.  So a program whose lines end in carriage returns has the same lines and
the same labels. -/
theorem classify_ignores_blanks :
    (∀ line : List Text.Piece, Tokenized line → BlankPlace [] line ∧ BlankPlace line [] ∧
      ∀ u v : List Text.Piece, ∀ blanks : String, line = u ++ v → BlankPlace u v →
        (∀ c ∈ blanks.toList, c ∈ Word.blankChars) →
          (splitLabel (u ++ (Text.ofString blanks ++ v))).1 = (splitLabel line).1 ∧
            SameReading (classify line) (classify (u ++ (Text.ofString blanks ++ v)))) ∧
      ∀ p : Program, (∀ l ∈ p, Tokenized l.pieces) →
        (∀ (i : Nat) (l : Line), p[i]? = some l → ∃ l' : Line, p.withReturns[i]? = some l' ∧
          SameReading (classify l.pieces) (classify l'.pieces)) ∧
        p.withReturns.labels = p.labels := by
  have hinsert : ∀ line : List Text.Piece, Tokenized line → ∀ u v : List Text.Piece,
      ∀ blanks : String, line = u ++ v → BlankPlace u v →
        (∀ c ∈ blanks.toList, c ∈ Word.blankChars) →
          (splitLabel (u ++ (Text.ofString blanks ++ v))).1 = (splitLabel line).1 ∧
            SameReading (classify line) (classify (u ++ (Text.ofString blanks ++ v))) := by
    rintro _ htokens u v blanks rfl hplace hblanks
    exact hplace.insert htokens hblanks
  refine ⟨fun line htokens =>
    ⟨blankPlace_begin htokens, blankPlace_end htokens, hinsert line htokens⟩, ?_⟩
  intro p hp
  have hreturn : ∀ l ∈ p, l.withReturn.label = l.label ∧
      SameReading (classify l.pieces) (classify l.withReturn.pieces) := by
    intro l hl
    have hblanks : Text.ofString "\r" ++ [] = [.char '\r'] := by simp [Text.ofString]
    obtain ⟨hlabel, hsame⟩ := hinsert l.pieces (hp l hl) l.pieces [] "\r" (List.append_nil _).symm
      (blankPlace_end (hp l hl)) (by simp [Word.blankChars])
    rw [hblanks, ← l.pieces_withReturn] at hlabel hsame
    rw [← l.withReturn.label_eq, ← l.label_eq] at hlabel
    exact ⟨hlabel, hsame⟩
  constructor
  · intro i l hl
    refine ⟨l.withReturn, ?_, (hreturn l (Array.mem_of_getElem? hl)).2⟩
    rw [Program.withReturns, Array.getElem?_map, hl]
    rfl
  · rw [Program.labels, Program.withReturns, Array.toList_map, Program.addLabels_map,
      Program.labels]
    intro l hl
    obtain ⟨hlabel, hsame⟩ := hreturn l (Array.mem_toList_iff.mp hl)
    exact ⟨hlabel, hsame.opens_closes⟩

/-- A line with a label, up to its operator. -/
def labelledFront : List Text.Piece :=
  Text.ofString " lab " ++ .char ':' :: Text.ofString "if x"

/-- The line from its operator on. -/
def labelledBack : List Text.Piece := Text.ofString "<= 1 goto lab"

/-- A tab, a blank and a carriage return in front of the operator do not count, and neither does a
carriage return at the end of the line. -/
theorem classify_ignores_blanks_labelled :
    (classify (labelledFront ++ labelledBack)).isOk = true ∧
      SameReading (classify (labelledFront ++ labelledBack))
        (classify (labelledFront ++ (Text.ofString "\t \r" ++ labelledBack))) ∧
      (Program.withReturns #[.ofPieces (labelledFront ++ labelledBack)]).labels.lookup?
        (Text.Utf8.encode "lab") = some 0 := by
  have hok : (classify (labelledFront ++ labelledBack)).isOk = true := by decide +kernel
  have htokens : Tokenized (labelledFront ++ labelledBack) := by
    unfold Tokenized
    decide +kernel
  have hplace : BlankPlace labelledFront labelledBack :=
    .behind (by decide +kernel) ⟨by decide +kernel, by decide +kernel⟩
  have hlabel : (Program.labels #[.ofPieces (labelledFront ++ labelledBack)]).lookup?
      (Text.Utf8.encode "lab") = some 0 := by decide +kernel
  obtain ⟨hlines, hprograms⟩ := classify_ignores_blanks
  obtain ⟨-, -, hinsert⟩ := hlines _ htokens
  have hall : ∀ l ∈ #[Line.ofPieces (labelledFront ++ labelledBack)], Tokenized l.pieces := by
    intro l hl
    obtain rfl := Array.mem_singleton.mp hl
    exact htokens
  obtain ⟨-, hlabels⟩ := hprograms _ hall
  exact ⟨hok, (hinsert _ _ "\t \r" rfl hplace (by simp [Word.blankChars])).2, hlabels ▸ hlabel⟩

end AddressCode
