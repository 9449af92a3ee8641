import AddressCode.Instr.Printer
import AddressCode.Proofs.Pieces
import AddressCode.Proofs.Spacing
import AddressCode.Proofs.Words

/-!
# AddressCode.Proofs.Printing — the words of a printed phrase

The text of an operand or of an expression is not the text it was read from: blanks are added on
both sides of an operator between operands, and dropped everywhere else.  It has the same words.

* `StandsIn` says of a token that it is the longest lexeme at its place in a text.  Tokens that come
  from a text are (`standsIn_of_cuts`), and so operators that touch there are cut in the same way
  when they are written again (`Touching.cuts`).
* `Written` says that a text is cut into given pieces, and `Printed` that these are the words of
  given tokens, with operators that touch where those of the tokens do.  Printed texts can be put
  side by side (`Printed.append`) if their lexemes do not run into each other, and no operator meets
  another one.
* `IsOperand.printed` and `IsExpr.printed` say how phrases are written, by induction on the phrase.
-/

namespace AddressCode

open MaxMunch Text.Utf8
open Lexer (placed)

/-- Some bytes with what becomes of them. -/
abbrev Piece := Action Word × List UInt8

namespace Parse

open Word (Lexeme Separate group)

variable {text : List UInt8} {t u : Token Word} {toks toks' taken rest : Tokens}
  {ps qs : List Piece} {s s' : String}

/-! ## Tokens in a text -/

/-- The token is the longest lexeme at its place in a text. -/
structure StandsIn (text : List UInt8) (t : Token Word) : Prop where
  takes : Takes Lexeme (text.drop t.span.start) (.emit t.kind) t.bytes (text.drop t.span.stop)
  stop_eq : t.span.stop = t.span.start + t.bytes.length

theorem standsIn_of_cuts (h : Cuts Lexeme text ps) : ∀ t ∈ placed 0 ps, StandsIn text t := by
  intro t ht
  obtain ⟨before, after, rfl, hspan⟩ := Lexer.mem_placed ht
  obtain ⟨htext, hcuts⟩ := h.of_append
  have hstart : text.drop t.span.start = t.bytes ++ joined after := by
    simp [htext, hspan]
  have hstop : text.drop t.span.stop = joined after := by
    simp [htext, hspan]
  refine ⟨?_, by rw [hspan]⟩
  rw [hstart, hstop]
  exact hcuts.takes

namespace StandsIn

theorem lexeme (h : StandsIn text t) : Lexeme (.emit t.kind) t.bytes := h.takes.piece

theorem upright (h : StandsIn text t) : t.span.start ≤ t.span.stop := by
  rw [h.stop_eq]
  exact Nat.le_add_right _ _

theorem encode_lexeme (h : StandsIn text t) : encode t.lexeme = t.bytes :=
  Text.Utf8.encode_display_pieces fun b hb => (h.lexeme.group_eq b hb).2

theorem lexeme_ne_empty (h : StandsIn text t) : t.lexeme ≠ "" := by
  intro hempty
  have hbytes := h.encode_lexeme
  rw [hempty] at hbytes
  exact h.takes.ne_nil hbytes.symm

end StandsIn

/-- A token without its place. -/
def piece (t : Token Word) : Piece := (.emit t.kind, t.bytes)

theorem placed_piece (n : Nat) (t : Token Word) (ps : List Piece) :
    placed n (piece t :: ps) =
      ⟨t.kind, t.bytes, ⟨n, n + t.bytes.length⟩⟩ :: placed (n + t.bytes.length) ps := rfl

/-- A blank. -/
def gap : Piece := (.skip, [0x20])

theorem placed_gap (n : Nat) (ps : List Piece) : placed n (gap :: ps) = placed (n + 1) ps := rfl

/-! ## Texts of words -/

/-- The text is cut into the pieces. -/
def Written (ps : List Piece) (s : String) : Prop := Cuts Lexeme (encode s) ps

theorem Written.append (h : Written ps s) (h' : Written qs s')
    (hsep : ∀ p ∈ ps.getLast?, ∀ q ∈ qs.head?, Separate p.1 q.1) :
    Written (ps ++ qs) (s ++ s') := by
  unfold Written at h h' ⊢
  rw [Text.encode_append]
  exact Word.cuts_append h h' hsep

theorem written_gap : Written [gap] " " :=
  Cuts.single (.blanks (by decide) (by decide +kernel)) (by decide)

theorem StandsIn.written (h : StandsIn text t) : Written [piece t] t.lexeme := by
  unfold Written
  rw [h.encode_lexeme]
  exact Cuts.single h.lexeme h.takes.ne_nil

/-- Tokens that are written as `s`, and where operators touch if they do in the tokens. -/
structure Printed (toks : Tokens) (ps : List Piece) (s : String) : Prop where
  written : Written ps s
  begins : ∀ p ∈ ps.head?, p.1 ≠ .skip
  looser : ∀ n, Tighter toks (placed n ps)
  tighter : ∀ n, Tighter (placed n ps) toks

theorem Printed.nil : Printed [] [] "" := ⟨.nil, by simp, fun _ => .nil, fun _ => .nil⟩

theorem StandsIn.printed (h : StandsIn text t) : Printed [t] [piece t] t.lexeme := by
  refine ⟨h.written, by simp [piece], fun n => ?_, fun n => ?_⟩
  · exact .cons ⟨rfl, rfl, h.upright, Nat.le_add_right _ _⟩ (by simp) .nil
  · exact .cons ⟨rfl, rfl, Nat.le_add_right _ _, h.upright⟩ (by simp) .nil

/-- The last of some tokens and the first of others are not both operators. -/
def NoOperatorsMeet (toks toks' : Tokens) : Prop :=
  ∀ k ∈ (toks.map (·.kind)).getLast?, ∀ k' ∈ (toks'.map (·.kind)).head?, k = .op → k' ≠ .op

theorem Tighter.kinds_eq (h : Tighter toks toks') : toks.map (·.kind) = toks'.map (·.kind) := by
  induction h with
  | nil => rfl
  | cons hword _ _ ih => rw [List.map_cons, List.map_cons, hword.kind, ih]

theorem Tighter.append_of_meet {rest' : Tokens} (h : Tighter toks toks') (h' : Tighter rest rest')
    (hmeet : NoOperatorsMeet toks' rest') : Tighter (toks ++ rest) (toks' ++ rest') := by
  refine h.append h' ?_
  rintro t ht u hu ⟨hkind, hkind', -⟩
  refine hmeet t.kind ?_ u.kind ?_ hkind hkind'
  · rw [List.getLast?_map]
    exact Option.mem_map_of_mem _ ht
  · rw [List.head?_map]
    exact Option.mem_map_of_mem _ hu

theorem Printed.append (h : Printed toks ps s) (h' : Printed toks' qs s')
    (hsep : ∀ p ∈ ps.getLast?, ∀ q ∈ qs.head?, Separate p.1 q.1)
    (hmeet : NoOperatorsMeet toks toks') : Printed (toks ++ toks') (ps ++ qs) (s ++ s') := by
  refine ⟨h.written.append h'.written hsep, ?_, fun n => ?_, fun n => ?_⟩
  · cases ps with
    | nil => exact h'.begins
    | cons p ps => exact h.begins
  · rw [Lexer.placed_append]
    refine (h.looser _).append_of_meet (h'.looser _) ?_
    unfold NoOperatorsMeet
    rwa [← (h.looser _).kinds_eq, ← (h'.looser _).kinds_eq]
  · rw [Lexer.placed_append]
    exact (h.tighter _).append_of_meet (h'.tighter _) hmeet

/-- A blank may be added at the end. -/
theorem Printed.gap (h : Printed toks ps s) (hne : ps ≠ [])
    (hlast : ∀ p ∈ ps.getLast?, p.1 ≠ .skip) : Printed toks (ps ++ [gap]) (s ++ " ") := by
  have hplaced : ∀ n, placed n (ps ++ [Parse.gap]) = placed n ps := by
    intro n
    rw [Lexer.placed_append, placed_gap]
    exact List.append_nil _
  refine ⟨h.written.append written_gap ?_, ?_, fun n => ?_, fun n => ?_⟩
  · rintro p hp _ ⟨⟩
    exact (Word.separate_skip (hlast p hp)).1
  · obtain ⟨p, ps, rfl⟩ := List.exists_cons_of_ne_nil hne
    exact h.begins
  · rw [hplaced]
    exact h.looser n
  · rw [hplaced]
    exact h.tighter n

theorem Printed.ne_nil (h : Printed toks ps s) (hne : toks ≠ []) : ps ≠ [] := by
  rintro rfl
  exact hne (h.looser 0).of_nil

/-- One after the other, with a blank between them. -/
theorem Printed.spaced (h : Printed toks ps s) (h' : Printed toks' qs s') (hne : toks ≠ [])
    (hlast : ∀ p ∈ ps.getLast?, p.1 ≠ .skip) (hmeet : NoOperatorsMeet toks toks') :
    Printed (toks ++ toks') (ps ++ [Parse.gap] ++ qs) (s ++ " " ++ s') := by
  refine (h.gap (h.ne_nil hne) hlast).append h' ?_ hmeet
  rw [List.getLast?_concat]
  rintro _ ⟨⟩ q hq
  exact (Word.separate_skip (h'.begins q hq)).2

/-! ## Operators -/

theorem Touching.kind {run : Tokens} {n m : Nat} (h : Touching n run m) :
    ∀ t ∈ run, t.kind = .op := by
  induction h with
  | nil => simp
  | cons hkind _ _ ih => exact List.forall_mem_cons.mpr ⟨hkind, ih⟩

/-- Operator tokens that touch are the pieces of their text. -/
theorem Touching.cuts {run : Tokens} {n m : Nat} (h : Touching n run m)
    (hrun : ∀ t ∈ run, StandsIn text t) :
    ∃ after, text.drop n = joined (run.map piece) ++ after ∧
      Cuts Lexeme (joined (run.map piece)) (run.map piece) := by
  induction h with
  | @nil n => exact ⟨text.drop n, rfl, .nil⟩
  | @cons n m t run _ hstart _ ih =>
    obtain ⟨ht, hrun⟩ := List.forall_mem_cons.mp hrun
    subst hstart
    obtain ⟨after, hafter, hcuts⟩ := ih hrun
    rw [max_eq_right ht.upright] at hafter
    have htakes := ht.takes
    have hsplit := htakes.split
    rw [hafter] at hsplit htakes
    rw [hsplit] at htakes
    exact ⟨after, by simpa [piece] using hsplit, .cons htakes.of_append hcuts⟩

theorem encode_lexemes {run : Tokens} (h : ∀ t ∈ run, StandsIn text t) :
    encode (lexemes run) = joined (run.map piece) := by
  induction run with
  | nil => rfl
  | cons t run ih =>
    obtain ⟨ht, hrun⟩ := List.forall_mem_cons.mp h
    rw [lexemes_cons, Text.encode_append, ht.encode_lexeme, ih hrun]
    rfl

theorem Touching.tighter {run : Tokens} {n m : Nat} (h : Touching t.span.stop run m)
    (hkind : t.kind = .op) (ht : StandsIn text t) (hrun : ∀ u ∈ run, StandsIn text u) :
    Tighter (t :: run) (placed n ((t :: run).map piece)) ∧
      Tighter (placed n ((t :: run).map piece)) (t :: run) := by
  induction run generalizing t n with
  | nil => exact ⟨ht.printed.looser n, ht.printed.tighter n⟩
  | cons u run ih =>
    obtain ⟨hu, hrun⟩ := List.forall_mem_cons.mp hrun
    cases h with
    | cons hkind' hstart hrest =>
      rw [hstart, max_eq_right hu.upright] at hrest
      obtain ⟨hlooser, htighter⟩ := ih (n := n + t.bytes.length) hrest hkind' hu hrun
      refine ⟨.cons ⟨rfl, rfl, ht.upright, Nat.le_add_right _ _⟩ ?_ hlooser,
        .cons ⟨rfl, rfl, Nat.le_add_right _ _, ht.upright⟩ ?_ htighter⟩
      · rintro _ ⟨⟩ _ ⟨⟩ -
        exact ⟨hkind, hkind', hstart⟩
      · rintro _ ⟨⟩ _ ⟨⟩ -
        exact ⟨hkind, hkind', rfl⟩

theorem IsOpRun.ne_nil {run : Tokens} {op : String} (h : IsOpRun run op rest) : run ≠ [] := by
  cases h
  simp

/-- An operand is missing at the end only. -/
theorem IsOperand.ne_nil {x : Operand} (h : IsOperand taken x rest) (hrest : rest ≠ []) :
    taken ≠ [] := by
  cases h <;> simp_all

/-- An expression is empty at the end only. -/
theorem IsExpr.ne_nil {x : Expr} (h : IsExpr taken x rest) (hrest : rest ≠ []) : taken ≠ [] := by
  cases h with
  | unary hop _ => exact List.append_ne_nil_of_left_ne_nil hop.ne_nil _
  | binary _ _ hop _ _ =>
    exact List.append_ne_nil_of_right_ne_nil _ (List.append_ne_nil_of_left_ne_nil hop.ne_nil _)
  | atomic hx _ => exact hx.ne_nil hrest

theorem IsOpRun.kind {run : Tokens} {op : String} (h : IsOpRun run op rest) :
    ∀ t ∈ run, t.kind = .op := by
  cases h with
  | mk hkind hrun _ => exact List.forall_mem_cons.mpr ⟨hkind, hrun.kind⟩

/-- All pieces of an operator are operators. -/
theorem IsOpRun.pieces {run : Tokens} {op : String} (h : IsOpRun run op rest) :
    ∀ p ∈ run.map piece, p.1 = .emit .op := by
  intro p hp
  obtain ⟨t, ht, rfl⟩ := List.mem_map.mp hp
  exact congrArg Action.emit (h.kind t ht)

/-- An operator is written as its pieces. -/
theorem IsOpRun.printed {run : Tokens} {op : String} (h : IsOpRun run op rest)
    (hrun : ∀ t ∈ run, StandsIn text t) : Printed run (run.map piece) op := by
  cases h with
  | @mk t run _ n hkind htouch _ =>
    obtain ⟨ht, hrest⟩ := List.forall_mem_cons.mp hrun
    have hall : Touching t.span.start (t :: run) n := by
      refine .cons hkind rfl ?_
      rwa [max_eq_right ht.upright]
    obtain ⟨-, -, hcuts⟩ := hall.cuts hrun
    refine ⟨?_, by simp [piece], fun n => (htouch.tighter hkind ht hrest).1,
      fun n => (htouch.tighter hkind ht hrest).2⟩
    unfold Written
    rwa [encode_lexemes hrun]

/-! ## Phrases -/

theorem StandsIn.printed_sign {o : String} {kind : Word} (h : StandsIn text t)
    (hkind : t.kind = kind) (ho : (o, kind) ∈ Word.signs) : Printed [t] [piece t] o := by
  have hlexeme : t.lexeme = o := by
    have hbytes : t.bytes = encode o := by
      subst hkind
      exact h.lexeme.eq_of_sign ho
    rw [Token.lexeme, hbytes]
    simp only [Word.signs, List.mem_cons, Prod.mk.injEq, List.not_mem_nil, or_false] at ho
    rcases ho with ⟨rfl, -⟩ | ⟨rfl, -⟩ | ⟨rfl, -⟩ | ⟨rfl, -⟩ <;> decide
  exact hlexeme ▸ h.printed

/-- No operator begins or ends an operand. -/
theorem IsOperand.noOperatorsMeet {x : Operand} {more : Tokens} (h : IsOperand taken x rest) :
    NoOperatorsMeet taken more ∧ NoOperatorsMeet more taken := by
  unfold NoOperatorsMeet
  cases h <;> simp_all [List.getLast?_cons, List.getLast?_append]

/-- How an operand is written: it begins with a word, and ends with a word or a bracket. -/
structure OperandPieces (ps : List Piece) : Prop where
  head : ∀ p ∈ ps.head?, group p.1 = .word
  last : ∀ p ∈ ps.getLast?, group p.1 = .word ∨ group p.1 = .sign

theorem OperandPieces.last_ne_skip (h : OperandPieces ps) : ∀ p ∈ ps.getLast?, p.1 ≠ .skip := by
  intro p hp hskip
  have hgroup := h.last p hp
  rw [hskip] at hgroup
  rcases hgroup with h | h <;> cases h

theorem IsOpRun.last_ne_skip {run : Tokens} {op : String} (h : IsOpRun run op rest) :
    ∀ p ∈ (run.map piece).getLast?, p.1 ≠ .skip := by
  intro p hp
  rw [h.pieces p (List.mem_of_getLast? hp)]
  decide

theorem IsOpRun.separate {run : Tokens} {op : String} (h : IsOpRun run op rest)
    (hpieces : OperandPieces ps) :
    ∀ p ∈ (run.map piece).getLast?, ∀ q ∈ ps.head?, Separate p.1 q.1 := by
  intro p hp q hq
  rw [h.pieces p (List.mem_of_getLast? hp), Separate, hpieces.head q hq]
  decide

mutual

theorem IsOperand.printed {text : List UInt8} {taken rest : Tokens} {x : Operand}
    (h : IsOperand taken x rest) (hin : ∀ t ∈ taken, StandsIn text t) :
    ∃ ps, Printed taken ps x.text ∧ OperandPieces ps := by
  cases h with
  | missing =>
    rw [Operand.text]
    exact ⟨[], .nil, by simp, by simp⟩
  | @literal t _ _ hkind hvalue =>
    rw [Operand.text]
    refine ⟨[piece t], (hin t List.mem_cons_self).printed, ?_, ?_⟩ <;>
      simp [piece, hkind, group]
  | @«variable» t _ hkind hnext =>
    rw [Operand.text]
    refine ⟨[piece t], (hin t List.mem_cons_self).printed, ?_, ?_⟩ <;>
      simp [piece, hkind, group]
  | @element t l r taken _ index hkind hl hindex hr =>
    obtain ⟨ht, hin⟩ := List.forall_mem_cons.mp hin
    obtain ⟨hlin, hin⟩ := List.forall_mem_cons.mp hin
    obtain ⟨htaken, hrin⟩ := List.forall_mem_append.mp hin
    obtain ⟨ps, hps, -⟩ := hindex.printed htaken
    have hopen := ht.printed.append (hlin.printed_sign hl (o := "[") (by decide))
      (by simp [piece, hkind, hl]; decide) (by simp [NoOperatorsMeet, hkind])
    have hinside := hopen.append hps (by simp [piece, hl, Separate, group])
      (by simp [NoOperatorsMeet, hl])
    have hclose := hinside.append
      ((hrin r List.mem_cons_self).printed_sign hr (o := "]") (by decide))
      (fun _ _ _ hq => Word.separate_sign (by cases hq; simp [piece, hr, group]))
      (by simp [NoOperatorsMeet, hr])
    rw [Operand.text]
    refine ⟨_, by simpa using hclose, ?_, ?_⟩
    · simp [piece, hkind, group]
    · simp [piece, hr, group, List.getLast?_cons, List.getLast?_append]

theorem IsExpr.printed {text : List UInt8} {taken rest : Tokens} {x : Expr}
    (h : IsExpr taken x rest) (hin : ∀ t ∈ taken, StandsIn text t) :
    ∃ ps, Printed taken ps x.text ∧ (rest ≠ [] → ∀ p ∈ ps.getLast?, p.1 ≠ .skip) := by
  cases h with
  | @unary run taken _ op x hop hx =>
    obtain ⟨hrunin, htaken⟩ := List.forall_mem_append.mp hin
    obtain ⟨ps, hps, hpieces⟩ := hx.printed htaken
    have hwhole := (hop.printed hrunin).append hps (hop.separate hpieces) hx.noOperatorsMeet.2
    rw [Expr.text]
    refine ⟨_, hwhole, fun hrest => ?_⟩
    have hne' : ps ≠ [] := hps.ne_nil (hx.ne_nil hrest)
    rw [List.getLast?_append_of_ne_nil _ hne']
    exact hpieces.last_ne_skip
  | @binary left run right _ op x y hx hpresent hop _ hy =>
    obtain ⟨hleft, hin⟩ := List.forall_mem_append.mp hin
    obtain ⟨hrunin, hright⟩ := List.forall_mem_append.mp hin
    obtain ⟨xs, hxs, hxpieces⟩ := hx.printed hleft
    obtain ⟨ys, hys, hypieces⟩ := hy.printed hright
    have hne : left ≠ [] := hx.ne_nil (by simp [hop.ne_nil])
    have hfront := hxs.spaced (hop.printed hrunin) hne hxpieces.last_ne_skip hx.noOperatorsMeet.1
    have hlast : ∀ p ∈ (xs ++ [gap] ++ run.map piece).getLast?, p.1 ≠ .skip := by
      rw [List.getLast?_append_of_ne_nil _ (by simpa using hop.ne_nil)]
      exact hop.last_ne_skip
    have hwhole := hfront.spaced hys (by simp [hne]) hlast hy.noOperatorsMeet.2
    rw [Expr.text]
    refine ⟨_, List.append_assoc left run right ▸ hwhole, fun hrest => ?_⟩
    rw [List.getLast?_append_of_ne_nil _ (hys.ne_nil (hy.ne_nil hrest))]
    exact hypieces.last_ne_skip
  | @atomic _ _ x hx _ =>
    obtain ⟨ps, hps, hpieces⟩ := hx.printed hin
    rw [Expr.text]
    exact ⟨ps, hps, fun _ => hpieces.last_ne_skip⟩

end

end Parse

end AddressCode
