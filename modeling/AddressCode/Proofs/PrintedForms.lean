import AddressCode.Proofs.Effects
import AddressCode.Proofs.Printing

/-!
# AddressCode.Proofs.PrintedForms — reading printed instructions

An instruction that was read from some tokens is written so that it is read again.  Two things are
not written with the words they were read from: a count loses its leading zeros, and the stars of a
target are put together, in pairs.  And a line may have several forms, of which the first one is
read, so what is written must not have a form that the tokens have not.

* `Shown` collects what is needed of the pieces that are written for an instruction: their text, the
  word they begin with, and that there is no new form among them.
* `IsTarget.printed`, `shown_assign` and `shown_result` treat targets and assignments.  What is
  written for a target with stars begins with an operator, as no form does that begins with a word;
  and behind the equals sign of a call there is nothing that an `if` could take for its action
  (`not_derives_of_result`).
* `Derives.shown` does so for each form, and `Chosen.shown` for the first form that the tokens have,
  by induction on the choice.
-/

namespace AddressCode

open MaxMunch Text.Utf8
open Lexer (placed)

namespace Parse

open Word (Lexeme Separate group)

variable {text : List UInt8} {t u : Token Word} {toks toks' taken rest : Tokens}
  {ps qs : List Piece} {s s' : String} {ins : Instr} {f g : Form}

/-! ## The words of the forms -/

/-- The word that a form begins with, unless it is an assignment or an expression. -/
def Form.word : Form → String
  | .ifThen => "if"
  | .print => "print"
  | .ret => "return"
  | .goto => "goto"
  | .call => "call"
  | .param => "param"
  | .beginFunc => "BeginFunc"
  | .endFunc => "EndFunc"
  | .assign => ""

theorem Form.eq_of_word (h : f.word = g.word) : f = g := by
  cases f <;> cases g <;> simp_all [Form.word]

theorem Derives.isWord (h : Derives f toks ins) (hf : f ≠ .assign) :
    ∃ t rest, toks = t :: rest ∧ IsWord f.word t := by
  cases h with
  | ifThen ht _ _ _ _ => exact ⟨_, _, rfl, ht⟩
  | print ht _ => exact ⟨_, _, rfl, ht⟩
  | ret ht => exact ⟨_, _, rfl, ht⟩
  | retWith ht _ _ => exact ⟨_, _, rfl, ht⟩
  | goto ht _ => exact ⟨_, _, rfl, ht⟩
  | call ht _ => exact ⟨_, _, rfl, ht⟩
  | param ht _ => exact ⟨_, _, rfl, ht⟩
  | beginFunc ht _ _ _ => exact ⟨_, _, rfl, ht⟩
  | endFunc ht => exact ⟨_, _, rfl, ht⟩
  | assign => exact absurd rfl hf
  | result => exact absurd rfl hf
  | expression => exact absurd rfl hf

/-! ## Printed instructions -/

/-- How an instruction is written that was read from some tokens.  What is written has no form that
the tokens have not, except for those of an assignment. -/
structure Shown (toks : Tokens) (ps : List Piece) (ins : Instr) : Prop where
  written : Written ps ins.text
  ne_nil : ps ≠ []
  begins : ∀ p ∈ ps.head?, p.1 ≠ .skip
  follows : ∀ n, Follows (placed n ps) toks
  back : ∀ n f a, f ≠ .assign → Derives f (placed n ps) a → ∃ b, Derives f toks b

theorem Shown.placed_ne_nil (h : Shown toks ps ins) (n : Nat) : placed n ps ≠ [] := by
  obtain ⟨⟨a, b⟩, ps, rfl⟩ := List.exists_cons_of_ne_nil h.ne_nil
  cases a with
  | emit kind => exact List.cons_ne_nil _ _
  | skip => exact absurd rfl (h.begins _ rfl)

theorem Printed.shown (h : Printed toks ps ins.text) (hne : toks ≠ []) : Shown toks ps ins :=
  ⟨h.written, h.ne_nil hne, h.begins, fun n => (h.tighter n).follows_self,
    fun n _ a _ ha => ⟨a, ha.transfer (h.looser n)⟩⟩

/-- Tokens that begin with the word of their form have no other form. -/
theorem back_of_isWord {n : Nat} {a b : Instr} (h : Derives f toks a)
    (hword : IsWord f.word t) (hg : g ≠ .assign) (hback : Derives g (placed n (piece t :: ps)) b) :
    ∃ b, Derives g toks b := by
  obtain ⟨u, more, heq, hu⟩ := hback.isWord hg
  obtain ⟨rfl, -⟩ := List.cons.inj heq
  have hsame : g.word = f.word := hu.2.symm.trans hword.2
  exact Form.eq_of_word hsame ▸ ⟨a, h⟩

theorem Follows.append {more more' : Tokens} (h : Follows toks toks') (hne : toks ≠ []) :
    Follows (toks ++ more) (toks' ++ more') := by
  obtain ⟨t, toks, rfl⟩ := List.exists_cons_of_ne_nil hne
  rintro u ⟨⟩
  obtain ⟨u', hu', hkind⟩ := h t rfl
  refine ⟨u', ?_, hkind⟩
  cases toks' with
  | nil => cases hu'
  | cons _ _ => exact hu'

/-! ### Counts -/

/-- A count. -/
def countPiece (n : Nat) : Piece := (.emit .num, encode (toString n))

theorem lexeme_count (n : Nat) (sp : Span) :
    Token.lexeme ⟨Word.num, encode (toString n), sp⟩ = toString n :=
  Text.Utf8.display_pieces_encode (toString n)

theorem lexeme_count_ne (n : Nat) (sp : Span) :
    Token.lexeme ⟨Word.num, encode (toString n), sp⟩ ≠ "=" := by
  intro heq
  rw [lexeme_count] at heq
  have hdigit := Text.isDigit_toString (n := n) '=' (heq ▸ by decide)
  revert hdigit
  decide

theorem written_count (n : Nat) : Written [countPiece n] (toString n) := by
  have hdigits : ∀ b ∈ encode (toString n), Word.Digit b := by
    intro b hb
    obtain ⟨p, hp, hb⟩ := List.mem_flatMap.mp hb
    obtain ⟨c, hc, rfl⟩ := List.mem_map.mp hp
    obtain ⟨hlow, hhigh⟩ := Text.toNat_of_isDigit (Text.isDigit_toString c hc)
    rw [Text.Piece.bytes, Text.utf8EncodeChar_of_lt (by omega), List.mem_singleton] at hb
    subst hb
    unfold Word.Digit
    rw [UInt8.le_iff_toNat_le, UInt8.le_iff_toNat_le, UInt8.toNat_ofNat']
    simp
    omega
  have hne : encode (toString n) ≠ [] := by
    intro hnil
    have hlexeme := lexeme_count n ⟨0, 0⟩
    rw [hnil] at hlexeme
    exact Nat.repr_ne_empty hlexeme.symm
  exact Cuts.single (.natural hne hdigits) hne

/-- A count that was small enough is read again. -/
theorem isCount_placed {k : Token Word} {n : Nat} (hk : IsCount k n) (sp : Span) :
    IsCount ⟨.num, encode (toString n), sp⟩ n := by
  refine ⟨rfl, ?_, ?_, ?_, hk.bound⟩
  · rw [lexeme_count, Nat.toString_eq_repr, Nat.toList_repr]
    exact Nat.toDigits_ne_nil
  · rw [lexeme_count]
    exact Text.isDigit_toString
  · rw [lexeme_count, Nat.toString_eq_repr, Nat.toList_repr]
    exact Nat.ofDigitChars_ten_toDigits.symm

/-- A name, a comma and a count. -/
theorem written_nameAndCount {v c : Token Word} (hv : StandsIn text v) (hvkind : v.kind = .ident)
    (hc : StandsIn text c) (hckind : c.kind = .comma) (n : Nat) :
    Written [piece v, piece c, gap, countPiece n] (v.lexeme ++ ", " ++ toString n) := by
  have hcomma := (hc.printed_sign hckind (o := ",") (by decide)).written
  have hname := hv.written.append hcomma (by simp [piece, hvkind, hckind]; decide)
  have hgap := hname.append written_gap (by simp [piece, gap, hckind]; decide)
  have hcount := hgap.append (written_count n) (by simp [gap, countPiece]; decide)
  have htext : v.lexeme ++ "," ++ " " = v.lexeme ++ ", " := by
    rw [String.append_assoc]
    rfl
  rwa [htext] at hcount

/-- A word, a blank and what follows. -/
theorem Written.word (h : Written ps s) (ht : StandsIn text t)
    (hbegins : ∀ p ∈ ps.head?, p.1 ≠ .skip) (hkind : t.kind = .ident) :
    Written (piece t :: gap :: ps) (t.lexeme ++ " " ++ s) := by
  have hgap := ht.written.append written_gap (by simp [piece, gap, hkind]; decide)
  refine hgap.append h ?_
  rintro _ ⟨⟩ q hq
  exact (Word.separate_skip (hbegins q hq)).2

/-! ### Targets -/

/-- The pieces of some stars. -/
def starPieces : Nat → List Piece
  | 0 => []
  | 1 => [(.emit .op, [0x2A])]
  | n + 2 => (.emit .op, [0x2A, 0x2A]) :: starPieces n

theorem encode_stars (n : Nat) :
    encode (String.ofList (List.replicate n '*')) = List.replicate n 0x2A := by
  induction n with
  | zero => rfl
  | succ n ih =>
    rw [List.replicate_succ, List.replicate_succ, ← ih]
    simp only [encode, Text.ofString, Text.bytes, String.toList_ofList, List.map_cons,
      List.flatMap_cons]
    rfl

theorem length_le_of_star {a : Action Word} {b : List UInt8} (h : Lexeme a b)
    (hstar : b.head? = some 0x2A) : b.length ≤ 2 := by
  have hclass := h.class_eq
  rw [hstar] at hclass
  obtain rfl : a = .emit .op := (Option.some.inj hclass).symm
  cases h with
  | operator ho =>
    have hall : ∀ o ∈ Word.operators, (encode o).length ≤ 2 := by decide
    exact hall _ ho
  | sign ho => simp at ho

theorem cuts_stars (n : Nat) : Cuts Lexeme (List.replicate n 0x2A) (starPieces n) := by
  have hlong : ∀ {m : Nat} {c u v}, Lexeme c u → List.replicate m 0x2A = u ++ v → u.length ≤ 2 := by
    intro m c u v hu huv
    obtain ⟨b, w, rfl⟩ := List.exists_cons_of_ne_nil hu.ne_nil
    refine length_le_of_star hu ?_
    have hb : b ∈ List.replicate m 0x2A := by simp [huv]
    rw [List.eq_of_mem_replicate hb, List.head?_cons]
  induction n using starPieces.induct with
  | case1 => exact .nil
  | case2 => exact Cuts.single (.operator (s := "*") (by decide)) (by simp)
  | case3 n ih =>
    refine .cons ⟨rfl, by simp, .operator (s := "**") (by decide), ?_⟩ ih
    intro c u v hu huv
    exact hlong hu huv

theorem placed_stars (n m : Nat) :
    IsStars (placed m (starPieces n)) n ∧ ∀ t ∈ placed m (starPieces n), t.lexeme ≠ "=" := by
  have hone : ∀ sp, Token.lexeme ⟨Word.op, [0x2A], sp⟩ = "*" := by
    have hread : Text.display (pieces [0x2A]) = "*" := by decide
    exact fun _ => hread
  have htwo : ∀ sp, Token.lexeme ⟨Word.op, [0x2A, 0x2A], sp⟩ = "**" := by
    have hread : Text.display (pieces [0x2A, 0x2A]) = "**" := by decide
    exact fun _ => hread
  induction n using starPieces.induct generalizing m with
  | case1 => exact ⟨.nil, by simp [starPieces, placed]⟩
  | case2 =>
    simp only [starPieces, placed]
    refine ⟨?_, by simp [hone]⟩
    have hstars := IsStars.cons (t := ⟨Word.op, [0x2A], ⟨m, m + 1⟩⟩) rfl (by simp [hone]) .nil
    rwa [hone] at hstars
  | case3 n ih =>
    obtain ⟨hstars, hfree⟩ := ih (m + 2)
    simp only [starPieces, placed]
    refine ⟨?_, List.forall_mem_cons.mpr ⟨by simp [htwo], hfree⟩⟩
    have hmore := IsStars.cons (t := ⟨Word.op, [0x2A, 0x2A], ⟨m, m + 2⟩⟩) rfl (by simp [htwo])
      hstars
    have hlen : "**".length + n = n + 2 := Nat.add_comm 2 n
    rw [htwo, hlen] at hmore
    exact hmore

/-- How a target is written that was read from some tokens.  It has the words of the tokens, unless
it begins with a star. -/
structure TargetPieces (toks : Tokens) (ps : List Piece) (x : Target) : Prop where
  written : Written ps x.text
  ne_nil : ∀ n, placed n ps ≠ []
  begins : ∀ p ∈ ps.head?, p.1 ≠ .skip
  last : ∀ p ∈ ps.getLast?, p.1 ≠ .skip
  follows : ∀ n, Follows (placed n ps) toks
  target : ∀ n, IsTarget (placed n ps) x []
  free : ∀ n, ∀ t ∈ placed n ps, t.lexeme ≠ "="
  same : (∀ n, Tighter toks (placed n ps) ∧ ∀ more, NoOperatorsMeet (placed n ps) more) ∨
    ∀ n, ∀ t ∈ (placed n ps).head?, t.kind = .op

/-- A target without stars is an operand. -/
theorem targetPieces_of_operand {x : Target} {y : Operand} (h : IsTarget toks x [])
    (hy : IsOperand toks y []) (hne : toks ≠ []) (htext : x.text = y.text)
    (hin : ∀ t ∈ toks, StandsIn text t) (hfree : ∀ t ∈ toks, t.lexeme ≠ "=") :
    ∃ ps, TargetPieces toks ps x := by
  obtain ⟨ps, hps, hpieces⟩ := hy.printed hin
  have hplaced : ∀ n, placed n ps ≠ [] := fun n hnil => hne ((hps.looser n).eq_nil_iff.mpr hnil)
  refine ⟨ps, htext ▸ hps.written, hplaced, hps.begins, hpieces.last_ne_skip,
    fun n => (hps.tighter n).follows_self, fun n => h.transfer (hps.tighter n) .nil,
    fun n => (hps.tighter n).forall (p := fun _ s => s ≠ "=") hfree, Or.inl fun n => ?_⟩
  refine ⟨hps.looser n, fun more => ?_⟩
  unfold NoOperatorsMeet
  rw [← (hps.looser n).kinds_eq]
  exact hy.noOperatorsMeet.1

theorem IsStars.eq_nil_iff {depth : Nat} (h : IsStars toks depth)
    (hin : ∀ t ∈ toks, StandsIn text t) : toks = [] ↔ depth = 0 := by
  cases h with
  | nil => simp
  | @cons t toks depth _ _ _ =>
    have hlen : t.lexeme.length ≠ 0 := by
      simpa using (hin t List.mem_cons_self).lexeme_ne_empty
    simp [hlen]

theorem IsStars.kind {depth : Nat} (h : IsStars toks depth) : ∀ t ∈ toks, t.kind = .op := by
  induction h with
  | nil => simp
  | cons hkind _ _ ih => exact List.forall_mem_cons.mpr ⟨hkind, ih⟩

theorem starPieces_op (n : Nat) : ∀ p ∈ starPieces n, p.1 = .emit .op := by
  induction n using starPieces.induct with
  | case1 => simp [starPieces]
  | case2 => simp [starPieces]
  | case3 n ih => exact List.forall_mem_cons.mpr ⟨rfl, ih⟩

theorem head?_stars (n m : Nat) (ps : List Piece) :
    ∃ s sp more, placed m (starPieces (n + 1) ++ ps) = ⟨.op, s, sp⟩ :: more := by
  cases n with
  | zero => exact ⟨_, _, _, rfl⟩
  | succ n => exact ⟨_, _, _, rfl⟩

/-- A target behind stars. -/
theorem targetPieces_of_stars {depth : Nat} {stars : Tokens} (ht : StandsIn text t)
    (hkind : t.kind = .ident) (hu : u.kind = .op) (hufree : u.lexeme ≠ "=")
    (htfree : t.lexeme ≠ "=") :
    TargetPieces (u :: stars ++ [t]) (starPieces (depth + 1) ++ [piece t])
      (.variable (depth + 1) t.lexeme) := by
  have hpieces : ∀ p ∈ starPieces (depth + 1) ++ [piece t], p.1 ≠ .skip := by
    intro p hp
    rcases List.mem_append.mp hp with hp | hp
    · rw [starPieces_op _ p hp]
      decide
    · rw [List.mem_singleton.mp hp]
      simp [piece]
  have hplaced : ∀ n, ∃ sp, placed n (starPieces (depth + 1) ++ [piece t]) =
      placed n (starPieces (depth + 1)) ++ [⟨t.kind, t.bytes, sp⟩] :=
    fun n => ⟨_, Lexer.placed_append _ _ _⟩
  have hhead := fun m => head?_stars depth m [piece t]
  have hwritten : Written (starPieces (depth + 1))
      (String.ofList (List.replicate (depth + 1) '*')) := by
    unfold Written
    rw [encode_stars]
    exact cuts_stars _
  refine ⟨?_, ?_, ?_, ?_, ?_, ?_, ?_, Or.inr ?_⟩
  · rw [Target.text]
    refine hwritten.append ht.written ?_
    rintro p hp _ ⟨⟩
    rw [starPieces_op _ p (List.mem_of_getLast? hp)]
    simp [piece, hkind]
    decide
  · intro n hnil
    obtain ⟨s, sp, more, heq⟩ := hhead n
    rw [heq] at hnil
    cases hnil
  · exact fun p hp => hpieces p (List.mem_of_mem_head? hp)
  · exact fun p hp => hpieces p (List.mem_of_getLast? hp)
  · intro n
    obtain ⟨s, sp, more, heq⟩ := hhead n
    rw [heq]
    rintro v ⟨⟩
    exact ⟨u, rfl, hu.symm, fun hequals => absurd hequals hufree⟩
  · intro n
    obtain ⟨sp, heq⟩ := hplaced n
    rw [heq]
    exact .variable (placed_stars _ n).1 hkind (by simp)
  · intro n
    obtain ⟨sp, heq⟩ := hplaced n
    rw [heq, List.forall_mem_append, List.forall_mem_singleton]
    exact ⟨(placed_stars _ n).2, htfree⟩
  · intro n
    obtain ⟨s, sp, more, heq⟩ := hhead n
    rw [heq]
    rintro v ⟨⟩
    rfl

theorem IsTarget.printed {x : Target} (h : IsTarget toks x [])
    (hin : ∀ t ∈ toks, StandsIn text t) (hfree : ∀ t ∈ toks, t.lexeme ≠ "=") :
    ∃ ps, TargetPieces toks ps x := by
  have htarget := h
  cases h with
  | @element stars taken _ t l r index hstars hkind hl hindex hr =>
    obtain rfl := (hstars.eq_nil_iff fun u hu => hin u (List.mem_append_left _ hu)).mpr rfl
    rw [List.nil_append] at htarget hin hfree ⊢
    exact targetPieces_of_operand htarget (.element hkind hl hindex hr) (by simp)
      (by rw [Target.text, Operand.text]) hin hfree
  | @«variable» stars _ t depth hstars hkind hnext =>
    cases depth with
    | zero =>
      obtain rfl := (hstars.eq_nil_iff fun u hu => hin u (List.mem_append_left _ hu)).mpr rfl
      rw [List.nil_append] at htarget hin hfree ⊢
      exact targetPieces_of_operand htarget (.variable hkind hnext) (by simp)
        (by rw [Target.text, Operand.text]; simp) hin hfree
    | succ depth =>
      have ht : StandsIn text t := hin t (by simp)
      obtain ⟨u, stars, rfl⟩ := List.exists_cons_of_ne_nil
        (mt (hstars.eq_nil_iff fun u hu => hin u (List.mem_append_left _ hu)).mp (by simp))
      exact ⟨_, targetPieces_of_stars ht hkind (hstars.kind u (by simp)) (hfree u (by simp))
        (hfree t (by simp))⟩

/-! ### Assignments -/

theorem StandsIn.kind_of_equals (h : StandsIn text t) (he : t.lexeme = "=") : t.kind = .op := by
  have hclass := h.lexeme.class_eq
  rw [← h.encode_lexeme, he] at hclass
  have hop : (encode "=").head?.map Word.classOf = some (.emit .op) := by decide
  exact (Action.emit.inj (Option.some.inj (hop.symm.trans hclass))).symm

/-- An equals sign between blanks. -/
theorem written_equals (h : StandsIn text t) (he : t.lexeme = "=") :
    Written [gap, piece t, gap] " = " := by
  have hkind := h.kind_of_equals he
  have hwritten := h.written
  rw [he] at hwritten
  have hfront := written_gap.append hwritten (by simp [gap, piece, hkind]; decide)
  exact hfront.append written_gap (by simp [gap, piece, hkind]; decide)

theorem placed_assign (n : Nat) (ps qs : List Piece) (t : Token Word) :
    ∃ m, placed n (ps ++ [gap, piece t, gap] ++ qs) =
      placed n ps ++ ⟨t.kind, t.bytes, ⟨m, m + t.bytes.length⟩⟩ ::
        placed (m + t.bytes.length + 1) qs := by
  refine ⟨n + (joined ps).length + 1, ?_⟩
  rw [List.append_assoc, Lexer.placed_append]
  rfl

/-- An equals sign stays apart from what is written behind a blank. -/
theorem Printed.behind_equals {ps : List Piece} {s : String} (h : Printed toks ps s)
    (he : StandsIn text t) (m : Nat) :
    Tighter (t :: toks) (⟨t.kind, t.bytes, ⟨m, m + t.bytes.length⟩⟩ ::
      placed (m + t.bytes.length + 1) ps) := by
  refine .cons ⟨rfl, rfl, he.upright, Nat.le_add_right _ _⟩ ?_ (h.looser _)
  rintro u - u' hu' ⟨-, -, hstop⟩
  obtain ⟨before, after, -, hspan⟩ := Lexer.mem_placed (List.mem_of_mem_head? hu')
  rw [hspan] at hstop
  simp only at hstop
  omega

theorem shown_assign {left right : Tokens} {e : Token Word} {target : Target} {x : Expr}
    (htarget : IsTarget left target []) (hleft : ∀ t ∈ left, t.lexeme ≠ "=") (he : e.lexeme = "=")
    (hcall : ∀ name, target = .variable 0 name → ∀ t ∈ right.head?, ¬ IsWord "call" t)
    (hx : IsExpr right x []) (hin : ∀ t ∈ left ++ e :: right, StandsIn text t) :
    ∃ ps, Shown (left ++ e :: right) ps (.assign target x) ∧
      ∀ n, Derives .assign (placed n ps) (.assign target x) := by
  obtain ⟨hleftin, hin⟩ := List.forall_mem_append.mp hin
  obtain ⟨hein, hrightin⟩ := List.forall_mem_cons.mp hin
  obtain ⟨ts, hts⟩ := htarget.printed hleftin hleft
  obtain ⟨xs, hxs, -⟩ := hx.printed hrightin
  refine ⟨ts ++ [gap, piece e, gap] ++ xs, ⟨?_, ?_, ?_, ?_, ?_⟩, ?_⟩
  · rw [Instr.text]
    refine (hts.written.append (written_equals hein he) ?_).append hxs.written ?_
    · rintro p hp _ ⟨⟩
      exact (Word.separate_skip (hts.last p hp)).1
    · rw [List.getLast?_append_of_ne_nil _ (by simp)]
      rintro _ ⟨⟩ q hq
      exact (Word.separate_skip (hxs.begins q hq)).2
  · simp
  · have hne : ts ≠ [] := by
      rintro rfl
      exact hts.ne_nil 0 rfl
    obtain ⟨p, ps, rfl⟩ := List.exists_cons_of_ne_nil hne
    exact hts.begins
  · intro n
    obtain ⟨m, hplaced⟩ := placed_assign n ts xs e
    rw [hplaced]
    exact (hts.follows n).append (hts.ne_nil n)
  · intro n f a hf ha
    obtain ⟨m, hplaced⟩ := placed_assign n ts xs e
    rw [hplaced] at ha
    rcases hts.same with hsame | hstars
    · obtain ⟨htight, hmeet⟩ := hsame n
      have hright := hxs.behind_equals hein m
      exact ⟨a, ha.transfer (htight.append_of_meet hright (hmeet _))⟩
    · obtain ⟨t, more, heq, hword⟩ := ha.isWord hf
      obtain ⟨u, us, hu⟩ := List.exists_cons_of_ne_nil (hts.ne_nil n)
      rw [hu] at heq
      obtain ⟨rfl, -⟩ := List.cons.inj heq
      have hop := hstars n u (by rw [hu]; rfl)
      cases hop.symm.trans hword.1
  · intro n
    obtain ⟨m, hplaced⟩ := placed_assign n ts xs e
    rw [hplaced]
    refine .assign (hts.target n) (hts.free n) he ?_ (hx.transfer (hxs.tighter _) .nil)
    intro name hname t ht hc
    obtain ⟨t', ht', hsame⟩ := (hxs.tighter _).head? t ht
    exact hcall name hname t' ht' (hc.transfer hsame.symm)

/-! ### Calls -/

theorem text_call (proc : String) (n : Nat) :
    (Instr.call proc (some n) none).text = "call" ++ " " ++ (proc ++ ", " ++ toString n) := by
  have hcall : "call " = "call" ++ " " := rfl
  simp only [Instr.text, hcall, String.append_assoc, String.empty_append]

theorem text_result (proc name : String) (n : Nat) :
    (Instr.call proc (some n) (some name)).text =
      name ++ " = " ++ ("call" ++ " " ++ (proc ++ ", " ++ toString n)) := by
  have hcall : "call " = "call" ++ " " := rfl
  simp only [Instr.text, hcall, String.append_assoc]

theorem text_beginFunc (name : String) (n : Nat) :
    (Instr.beginFunc name n).text = "BeginFunc" ++ " " ++ (name ++ ", " ++ toString n) := by
  have hbegin : "BeginFunc " = "BeginFunc" ++ " " := rfl
  simp only [Instr.text, hbegin, String.append_assoc]

/-- A word, a name, a comma and a count. -/
theorem shown_counted {v c k : Token Word} {n : Nat} (h : Derives f [t, v, c, k] ins)
    (hword : IsWord f.word t) (hv : v.kind = .ident) (hc : c.kind = .comma)
    (hin : ∀ u ∈ [t, v, c, k], StandsIn text u)
    (htext : ins.text = f.word ++ " " ++ (v.lexeme ++ ", " ++ toString n)) :
    Shown [t, v, c, k] (piece t :: gap :: [piece v, piece c, gap, countPiece n]) ins := by
  simp only [List.forall_mem_cons, List.not_mem_nil, false_implies, implies_true, and_true] at hin
  obtain ⟨htin, hvin, hcin, -⟩ := hin
  refine ⟨?_, by simp, by simp [piece], ?_, ?_⟩
  · rw [htext, ← hword.2]
    exact (written_nameAndCount hvin hv hcin hc n).word htin (by simp [piece]) hword.1
  · rintro m u ⟨⟩
    exact ⟨t, rfl, rfl, id⟩
  · intro m g a hg ha
    exact back_of_isWord h hword hg ha

section

variable {v e c f m k : Token Word}

/-- A name, a comma and a count have no form. -/
theorem not_derives_of_nameAndCount (hf : f.kind = .ident) (hm : m.kind = .comma)
    (hfree : ∀ t ∈ [f, m, k], t.lexeme ≠ "=") : ¬ Derives g [f, m, k] ins := by
  have hname : IsExpr [f] (.atomic (.variable f.lexeme)) [m, k] :=
    .atomic (.variable hf (by simp [hm])) (by simp [hm])
  have hcomma : expr [m, k] = none := by
    simp [expr, exprWith, opRun, operand, operandWith, hm]
  have hnone : ∀ {taken rest x}, taken ++ rest = [m, k] → ¬ IsExpr taken x rest := by
    intro taken rest x htoks hx
    cases hcomma.symm.trans ((recognizes_expr.takes _ _).mpr ⟨taken, htoks.symm, hx⟩)
  have hequals : ∀ {left right : Tokens} {u}, left ++ u :: right = [f, m, k] → u.lexeme ≠ "=" := by
    intro left right u htoks
    exact hfree u (htoks ▸ by simp)
  intro h
  generalize htoks : [f, m, k] = toks at h
  cases h with
  | ifThen _ hcond _ _ _ => exact hnone (List.cons.inj htoks).2.symm hcond
  | print _ hx => exact hnone (List.append_nil _) ((List.cons.inj htoks).2 ▸ hx)
  | ret _ => cases htoks
  | retWith _ _ hx => exact hnone (List.append_nil _) ((List.cons.inj htoks).2 ▸ hx)
  | goto _ _ => cases htoks
  | call _ htail =>
    obtain ⟨-, rfl⟩ := List.cons.inj htoks
    cases htail
  | param _ hx => exact hnone (List.append_nil _) ((List.cons.inj htoks).2 ▸ hx)
  | beginFunc _ _ _ _ => cases htoks
  | endFunc _ => cases htoks
  | assign _ _ he _ _ => exact hequals htoks.symm he
  | result _ _ he _ _ => exact hequals htoks.symm he
  | expression _ hx =>
    -- the name is a phrase, and the rest is left over
    cases ((htoks ▸ hx : IsExpr [f, m, k] _ []).unique hname rfl).1

/-- What is written for a call behind an equals sign has no form that begins with a word. -/
theorem not_derives_of_result (he : e.kind = .op) (hc : c.kind = .ident) (hf : f.kind = .ident)
    (hm : m.kind = .comma) (hfree : ∀ t ∈ [f, m, k], t.lexeme ≠ "=") (hg : g ≠ .assign) :
    ¬ Derives g [v, e, c, f, m, k] ins := by
  have hcond : IsExpr [e, c] (.unary (lexemes [e]) (.variable c.lexeme)) [f, m, k] := by
    have hop : IsOpRun [e] (lexemes [e]) ([c] ++ [f, m, k]) := .mk he .nil (by simp [hc])
    exact .unary hop (.variable hc (by simp [hf]))
  -- there is one phrase, and in each form something is left over behind it
  have hwhole : ∀ {x}, ¬ IsExpr [e, c, f, m, k] x [] := by
    intro x hx
    cases (hx.unique hcond rfl).1
  intro h
  generalize htoks : [v, e, c, f, m, k] = toks at h
  cases h with
  | @ifThen _ taken rest _ _ _ _ hx _ _ ha =>
    obtain ⟨-, hrest⟩ := hx.unique hcond (List.cons.inj htoks).2.symm
    exact not_derives_of_nameAndCount hf hm hfree (hrest ▸ ha)
  | print _ hx => exact hwhole ((List.cons.inj htoks).2 ▸ hx)
  | ret _ => cases htoks
  | retWith _ _ hx => exact hwhole ((List.cons.inj htoks).2 ▸ hx)
  | goto _ _ => cases htoks
  | call _ htail =>
    obtain ⟨-, rfl⟩ := List.cons.inj htoks
    cases htail
  | param _ hx => exact hwhole ((List.cons.inj htoks).2 ▸ hx)
  | beginFunc _ _ _ _ => cases htoks
  | endFunc _ => cases htoks
  | assign => exact hg rfl
  | result => exact hg rfl
  | expression => exact hg rfl

end

/-- The pieces of a call behind an equals sign. -/
def resultPieces (v e c f m : Token Word) (n : Nat) : List Piece :=
  [piece v] ++ [gap, piece e, gap] ++ piece c :: gap :: [piece f, piece m, gap, countPiece n]

theorem placed_result (n : Nat) (v e c f m : Token Word) (count : Nat) :
    ∃ s₁ s₂ s₃ s₄ s₅ s₆, placed n (resultPieces v e c f m count) =
      [⟨v.kind, v.bytes, s₁⟩, ⟨e.kind, e.bytes, s₂⟩, ⟨c.kind, c.bytes, s₃⟩, ⟨f.kind, f.bytes, s₄⟩,
        ⟨m.kind, m.bytes, s₅⟩, ⟨.num, encode (toString count), s₆⟩] :=
  ⟨_, _, _, _, _, _, rfl⟩

section

variable {v e c f m k : Token Word} {n : Nat} (hv : v.kind = .ident) (he : e.lexeme = "=")
  (hc : IsWord "call" c) (hf : f.kind = .ident) (hm : m.kind = .comma) (hk : IsCount k n)
  (hin : ∀ t ∈ [v, e, c, f, m, k], StandsIn text t)

include hv he hc hf hm hin

theorem shown_resultPieces :
    Shown [v, e, c, f, m, k] (resultPieces v e c f m n)
      (.call f.lexeme (some n) (some v.lexeme)) := by
  simp only [List.forall_mem_cons, List.not_mem_nil, false_implies, implies_true, and_true] at hin
  obtain ⟨hvin, hein, hcin, hfin, hmin, -⟩ := hin
  refine ⟨?_, List.cons_ne_nil (piece v) _, by simp [resultPieces, piece], ?_, ?_⟩
  · have hcall := (written_nameAndCount hfin hf hmin hm n).word hcin (by simp [piece]) hc.1
    rw [text_result, ← hc.2]
    refine (hvin.written.append (written_equals hein he) ?_).append hcall ?_
    · simp [piece, gap, hv]
      decide
    · simp [piece, gap, hc.1]
      decide
  · rintro n' u ⟨⟩
    exact ⟨v, rfl, rfl, id⟩
  · intro n' g a hg ha
    obtain ⟨s₁, s₂, s₃, s₄, s₅, s₆, hplaced⟩ := placed_result n' v e c f m n
    rw [hplaced] at ha
    refine absurd ha (not_derives_of_result (hein.kind_of_equals he) hc.1 hf hm ?_ hg)
    simp only [List.forall_mem_cons, List.not_mem_nil, false_implies, implies_true, and_true]
    refine ⟨?_, ?_, lexeme_count_ne n s₆⟩ <;> intro heq
    · cases hf.symm.trans (hfin.kind_of_equals heq)
    · cases hm.symm.trans (hmin.kind_of_equals heq)

include hk

theorem derives_resultPieces (n' : Nat) :
    Derives .assign (placed n' (resultPieces v e c f m n))
      (.call f.lexeme (some n) (some v.lexeme)) := by
  obtain ⟨s₁, s₂, s₃, s₄, s₅, s₆, hplaced⟩ := placed_result n' v e c f m n
  have hleft : IsTarget [⟨v.kind, v.bytes, s₁⟩] (.variable 0 v.lexeme) [] :=
    .variable (t := ⟨v.kind, v.bytes, s₁⟩) .nil hv (by simp)
  have hright : IsCallTail [⟨f.kind, f.bytes, s₄⟩, ⟨m.kind, m.bytes, s₅⟩,
      ⟨.num, encode (toString n), s₆⟩] (.call f.lexeme (some n) none) :=
    .counted (f := ⟨f.kind, f.bytes, s₄⟩) hf hm (isCount_placed hk s₆)
  rw [hplaced]
  refine .result (e := ⟨e.kind, e.bytes, s₂⟩) (c := ⟨c.kind, c.bytes, s₃⟩) hleft ?_ he hc hright
  rw [List.forall_mem_singleton]
  intro heq
  cases hv.symm.trans ((hin v List.mem_cons_self).kind_of_equals heq)

end

theorem shown_result {left tail : Tokens} {e c : Token Word} {name proc : String} {n : Nat}
    (htarget : IsTarget left (.variable 0 name) []) (he : e.lexeme = "=") (hc : IsWord "call" c)
    (htail : IsCallTail tail (.call proc (some n) none))
    (hin : ∀ t ∈ left ++ e :: c :: tail, StandsIn text t) :
    ∃ ps, Shown (left ++ e :: c :: tail) ps (.call proc (some n) (some name)) ∧
      ∀ n', Derives .assign (placed n' ps) (.call proc (some n) (some name)) := by
  cases htarget with
  | @«variable» stars _ v depth hstars hv hnext =>
    have hstarsin : ∀ t ∈ stars, StandsIn text t := fun t ht => hin t (by simp [ht])
    obtain rfl := (hstars.eq_nil_iff hstarsin).mpr rfl
    cases htail with
    | counted hf hm hk =>
      exact ⟨_, shown_resultPieces hv he hc hf hm hin,
        derives_resultPieces hv he hc hf hm hk hin⟩

/-- A word and a phrase. -/
theorem Printed.word {word : String} (h : Printed taken ps s) (ht : IsWord word t)
    (hin : StandsIn text t) :
    Printed (t :: taken) ([piece t] ++ [Parse.gap] ++ ps) (word ++ " " ++ s) := by
  rw [← ht.2]
  exact hin.printed.spaced h (by simp) (by simp [piece]) (by simp [NoOperatorsMeet, ht.1])

/-- A word stands by itself. -/
theorem Printed.of_word {word : String} (ht : IsWord word t) (hin : StandsIn text t) :
    Printed [t] [piece t] word := by
  rw [← ht.2]
  exact hin.printed

/-- A word and an expression. -/
theorem IsExpr.printed_behind {word : String} {x : Expr} (hx : IsExpr taken x [])
    (ht : IsWord word t) (hin : ∀ u ∈ t :: taken, StandsIn text u) :
    ∃ ps, Printed (t :: taken) ps (word ++ " " ++ x.text) := by
  obtain ⟨htin, hin⟩ := List.forall_mem_cons.mp hin
  obtain ⟨xs, hxs, -⟩ := hx.printed hin
  exact ⟨_, hxs.word ht htin⟩

/-- What is written for an instruction has its form again. -/
theorem Derives.shown (h : Derives f toks ins) (hf : f ≠ .ifThen)
    (hopen : ∀ proc result, ins ≠ .call proc none result) (hne : toks ≠ [])
    (hin : ∀ t ∈ toks, StandsIn text t) :
    ∃ ps, Shown toks ps ins ∧ ∀ n, Derives f (placed n ps) ins := by
  have hprinted : ∀ {ps}, Printed toks ps ins.text →
      ∃ ps, Shown toks ps ins ∧ ∀ n, Derives f (placed n ps) ins :=
    fun hp => ⟨_, hp.shown hne, fun n => h.transfer (hp.tighter n)⟩
  cases h with
  | ifThen => exact absurd rfl hf
  | print ht hx =>
    obtain ⟨ps, hps⟩ := hx.printed_behind ht hin
    exact hprinted hps
  | ret ht => exact hprinted (.of_word ht (hin _ List.mem_cons_self))
  | retWith ht _ hx =>
    obtain ⟨ps, hps⟩ := hx.printed_behind ht hin
    exact hprinted hps
  | goto ht hl =>
    obtain ⟨htin, hin⟩ := List.forall_mem_cons.mp hin
    exact hprinted ((hin _ List.mem_cons_self).printed.word ht htin)
  | call ht htail =>
    cases htail with
    | counted hv hc hk =>
      refine ⟨_, shown_counted (.call ht (.counted hv hc hk)) ht hv hc hin (text_call _ _), ?_⟩
      exact fun n => .call ht (.counted hv hc (isCount_placed hk _))
    | result => exact absurd rfl (hopen _ _)
  | param ht hx =>
    obtain ⟨ps, hps⟩ := hx.printed_behind ht hin
    exact hprinted hps
  | beginFunc ht hv hc hk =>
    refine ⟨_, shown_counted (.beginFunc ht hv hc hk) ht hv hc hin (text_beginFunc _ _), ?_⟩
    exact fun n => .beginFunc ht hv hc (isCount_placed hk _)
  | endFunc ht => exact hprinted (.of_word ht (hin _ List.mem_cons_self))
  | assign htarget hleft he hcall hx => exact shown_assign htarget hleft he hcall hx hin
  | result htarget _ he hc htail => exact shown_result htarget he hc htail hin
  | expression _ hx =>
    obtain ⟨xs, hxs, -⟩ := hx.printed hin
    exact hprinted hxs

/-- What is written for an instruction is read as the instruction.  The forms are tried in an order
that ends with the assignment. -/
theorem Chosen.shown {forms : List Form} (h : Chosen forms toks ins)
    (hlast : .assign ∉ forms.dropLast)
    (hopen : ∀ proc result, ins.core ≠ .call proc none result) (hne : toks ≠ [])
    (hin : ∀ t ∈ toks, StandsIn text t) :
    ∃ ps, Shown toks ps ins ∧ ∀ n, Chosen forms (placed n ps) ins := by
  induction h with
  | @ifThen t taken rest cond action forms ht hcond hrest haction ih =>
    obtain ⟨htin, hin⟩ := List.forall_mem_cons.mp hin
    obtain ⟨htakenin, hrestin⟩ := List.forall_mem_append.mp hin
    obtain ⟨as, has, hchosen⟩ := ih (by decide) hopen hrest hrestin
    obtain ⟨cs, hcs, hclast⟩ := hcond.printed htakenin
    have hcne : cs ≠ [] := hcs.ne_nil (hcond.ne_nil hrest)
    have hbegins : ∀ p ∈ (cs ++ [gap] ++ as).head?, p.1 ≠ .skip := by
      obtain ⟨p, cs, rfl⟩ := List.exists_cons_of_ne_nil hcne
      exact hcs.begins
    have hwritten : Written (cs ++ [gap] ++ as) (cond.text ++ " " ++ action.text) := by
      refine (hcs.written.append written_gap ?_).append has.written ?_
      · rintro p hp _ ⟨⟩
        exact (Word.separate_skip (hclast hrest p hp)).1
      · rw [List.getLast?_concat]
        rintro _ ⟨⟩ q hq
        exact (Word.separate_skip (has.begins q hq)).2
    have htext : (Instr.ifThen cond action).text =
        "if" ++ " " ++ (cond.text ++ " " ++ action.text) := by
      have hif : "if " = "if" ++ " " := rfl
      simp only [Instr.text, hif, String.append_assoc]
    refine ⟨piece t :: gap :: (cs ++ [gap] ++ as), ⟨?_, by simp, by simp [piece], ?_, ?_⟩, ?_⟩
    · rw [htext, ← ht.2]
      exact hwritten.word htin hbegins ht.1
    · rintro n u ⟨⟩
      exact ⟨t, rfl, rfl, id⟩
    · intro n g a hg ha
      obtain ⟨f, hf, hderives⟩ := haction.derives
      exact back_of_isWord (f := .ifThen) (.ifThen ht hcond hrest hf hderives) ht hg ha
    · intro n
      rw [placed_piece, placed_gap, Lexer.placed_append, Lexer.placed_append, List.append_assoc]
      exact .ifThen ht (hcond.transfer (hcs.tighter _) (has.follows _)) (has.placed_ne_nil _)
        (hchosen _)
  | @here f toks ins forms hf h =>
    have hopen' : ∀ proc result, ins ≠ .call proc none result := by
      rintro proc result rfl
      exact hopen proc result rfl
    obtain ⟨ps, hps, hderives⟩ := h.shown hf hopen' hne hin
    exact ⟨ps, hps, fun n => .here hf (hderives n)⟩
  | @later f toks ins forms hnot h ih =>
    have hforms : forms ≠ [] := by
      rintro rfl
      cases h
    rw [List.dropLast_cons_of_ne_nil hforms, List.mem_cons, not_or] at hlast
    obtain ⟨ps, hps, hchosen⟩ := ih hlast.2 hopen hne hin
    refine ⟨ps, hps, fun n => .later ?_ (hchosen n)⟩
    intro a ha
    obtain ⟨b, hb⟩ := hps.back n f a (Ne.symm hlast.1) ha
    exact hnot b hb

end Parse

end AddressCode
