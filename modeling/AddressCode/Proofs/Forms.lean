import AddressCode.Instr.Line

/-!
# AddressCode.Proofs.Forms — the form of instructions that are read

Every instruction that a line holds is well formed (`classify_wellFormed`): names and operators are
not empty, an operand is missing only at the end, the action of an `if` is something to be done, and
a call without a count has a variable for its result.

The scanner never delivers a token without a text (`Word.spelled_tokenizeBytes`), since a rule that
matches has taken at least one byte.  A parser `Reads` values with a property if it finds them in
such tokens and leaves such tokens; this goes from the single tokens up to whole instructions.
-/

namespace AddressCode

/-! ## Well-formed instructions -/

mutual

/-- The names in an operand are not empty. -/
def Operand.WellFormed : Operand → Prop
  | .missing => True
  | .literal _ _ => True
  | .variable name => name ≠ ""
  | .element name index => name ≠ "" ∧ index.WellFormed

/-- The names and the operator of an expression are not empty, and only the last operand may be
missing. -/
def Expr.WellFormed : Expr → Prop
  | .atomic x => x.WellFormed
  | .unary op x => op ≠ "" ∧ x.WellFormed
  | .binary op x y => op ≠ "" ∧ x.isMissing = false ∧ x.WellFormed ∧ y.WellFormed

end

/-- The name in a target is not empty. -/
def Target.WellFormed : Target → Prop
  | .variable _ name => name ≠ ""
  | .element name index => name ≠ "" ∧ index.WellFormed

namespace Instr

/-- Can an instruction stand behind a condition? -/
def isAction : Instr → Bool
  | .noop | .beginFunc _ _ | .endFunc => false
  | _ => true

/-- Names are not empty, an action is something to be done, and a call that leaves its count open
has a variable for its result. -/
def WellFormed : Instr → Prop
  | .noop => True
  | .ifThen cond action => cond.WellFormed ∧ action.isAction = true ∧ action.WellFormed
  | .print x => x.WellFormed
  | .ret x => ∀ y ∈ x, y.WellFormed
  | .goto label => label ≠ ""
  | .call proc count result =>
    proc ≠ "" ∧ (∀ r ∈ result, r ≠ "") ∧ (count = none → result.isSome = true)
  | .param x => x.WellFormed
  | .beginFunc name _ => name ≠ ""
  | .endFunc => True
  | .assign target x => target.WellFormed ∧ x.WellFormed
  | .expression x => x.WellFormed

end Instr

/-! ## Tokens -/

namespace Lexer

variable {τ : Type} {rules : List (Rule τ)}

/-- A match takes at least one byte. -/
theorem munchFrom_pos {text : List UInt8} {live : List (Rule τ)} {n k : Nat} {a : Action τ}
    {best : Option (Action τ × Nat)} (hbest : ∀ b ∈ best, 0 < b.2)
    (h : munchFrom live n best text = .matched a k) : 0 < k := by
  have hof : ∀ m, Munch.ofBest best m = .matched a k → 0 < k := by
    intro m hm
    unfold Munch.ofBest at hm
    split at hm
    · rename_i b j
      cases hm
      exact hbest _ rfl
    · cases hm
  induction text generalizing live n best with
  | nil => exact hof n h
  | cons b rest ih =>
    simp only [munchFrom] at h
    split at h
    · exact hof (n + 1) h
    · split at h
      · -- a rule matches here, and this byte is taken
        refine ih ?_ h ?_
        · intro c hc
          cases hc
          exact Nat.succ_pos n
        · intro m hm
          cases hm
          exact Nat.succ_pos n
      · exact ih hbest h hof

theorem bytes_ne_nil_of_scanFrom {text : List UInt8} {skip offset : Nat} {t : Token τ}
    (h : Item.token t ∈ scanFrom rules skip offset text) : t.bytes ≠ [] := by
  induction text generalizing skip offset with
  | nil => cases skip <;> cases h
  | cons b rest ih =>
    cases skip with
    | succ skip => exact ih h
    | zero =>
      simp only [scanFrom] at h
      split at h
      · rename_i kind n hmunch
        have hpos : 0 < n := munchFrom_pos (by simp) hmunch
        rcases List.mem_cons.mp h with heq | h
        · cases heq
          obtain ⟨k, rfl⟩ := Nat.exists_eq_succ_of_ne_zero (Nat.ne_of_gt hpos)
          simp
        · exact ih h
      · exact ih h
      · rcases List.mem_cons.mp h with heq | h
        · cases heq
        · exact ih h

end Lexer

theorem Text.Utf8.run_ne_nil (a : UInt8) (rest : List UInt8) : run a rest ≠ [] := by
  unfold run
  split
  · split <;> simp
  · simp

/-- A token with bytes has a text. -/
theorem Token.lexeme_ne_empty {τ : Type} {t : Token τ} (h : t.bytes ≠ []) : t.lexeme ≠ "" := by
  obtain ⟨a, rest, hbytes⟩ := List.exists_cons_of_ne_nil h
  have hshown : (Text.Utf8.first a rest).shown ≠ [] := by
    unfold Text.Utf8.first
    dsimp only
    split
    · simp [Text.Piece.shown]
    · simp [Text.Piece.shown, Text.Utf8.run_ne_nil]
  intro hempty
  unfold lexeme Text.display at hempty
  have hnil := String.ofList_eq_empty_iff.mp hempty
  rw [hbytes, Text.Utf8.pieces, Text.Utf8.piecesFrom, List.flatMap_cons] at hnil
  exact hshown (List.append_eq_nil_iff.mp hnil).1

namespace Parse

/-- Every token has a text. -/
def Spelled (toks : Tokens) : Prop := ∀ t ∈ toks, t.lexeme ≠ ""

/-- From tokens with a text a parser takes a value with the property `P`, and leaves such tokens. -/
def Reads {α : Type} (p : Parser α) (P : α → Prop) : Prop :=
  ∀ {toks rest : Tokens} {a : α}, Spelled toks → p toks = some (a, rest) → P a ∧ Spelled rest

theorem Spelled.tail {t : Token Word} {toks : Tokens} (h : Spelled (t :: toks)) :
    t.lexeme ≠ "" ∧ Spelled toks :=
  ⟨h t (by simp), fun t' ht' => h t' (by simp [ht'])⟩

theorem Reads.complete {α : Type} {p : Parser α} {P : α → Prop} {toks : Tokens} {a : α}
    (hp : Reads p P) (htoks : Spelled toks) (h : complete p toks = some a) : P a := by
  unfold Parse.complete at h
  split at h
  · rename_i hsome
    cases h
    exact (hp htoks hsome).1
  · cases h

end Parse

/-- The scanner delivers no token without a text. -/
theorem Word.spelled_tokenizeBytes (text : List UInt8) :
    Parse.Spelled (Word.tokenizeBytes text).1 := by
  intro t ht
  obtain ⟨item, hitem, hsome⟩ := List.mem_filterMap.mp ht
  cases item with
  | gap span => cases hsome
  | token t' =>
    cases hsome
    exact Token.lexeme_ne_empty (Lexer.bytes_ne_nil_of_scanFrom hitem)

/-! ## Parsers -/

namespace Parse

variable {toks rest : Tokens}

theorem spelled_of_keyword {word : String} (htoks : Spelled toks)
    (h : keyword word toks = some rest) : Spelled rest := by
  unfold keyword at h
  split at h
  · split at h
    · cases h
      exact htoks.tail.2
    · cases h
  · cases h

theorem spelled_of_sign {kind : Word} (htoks : Spelled toks) (h : sign kind toks = some rest) :
    Spelled rest := by
  unfold sign at h
  split at h
  · split at h
    · cases h
      exact htoks.tail.2
    · cases h
  · cases h

theorem reads_ident : Reads ident (· ≠ "") := by
  intro toks rest name htoks h
  unfold ident at h
  split at h
  · split at h
    · cases h
      exact htoks.tail
    · cases h
  · cases h

theorem reads_integer : Reads integer fun _ => True := by
  intro toks rest n htoks h
  unfold integer at h
  split at h
  · split at h
    · obtain ⟨k, _, hk⟩ := Option.map_eq_some_iff.mp h
      cases hk
      exact ⟨trivial, htoks.tail.2⟩
    · cases h
  · cases h

theorem opTail_spelled {op : String} {span : Span} (hop : op ≠ "") (htoks : Spelled toks) :
    (opTail op span toks).1 ≠ "" ∧ Spelled (opTail op span toks).2 := by
  induction toks generalizing op span with
  | nil => exact ⟨hop, htoks⟩
  | cons t toks ih =>
    unfold opTail
    split
    · refine ih ?_ htoks.tail.2
      intro hempty
      exact hop (String.append_eq_empty_iff.mp hempty).1
    · exact ⟨hop, htoks⟩

theorem reads_opRun : Reads opRun (· ≠ "") := by
  intro toks rest op htoks h
  unfold opRun at h
  split at h
  · split at h
    · obtain ⟨rfl, rfl⟩ := Prod.mk.inj (Option.some.inj h)
      exact opTail_spelled htoks.tail.1 htoks.tail.2
    · cases h
  · cases h

theorem reads_operandWith {index : Parser Expr} (hindex : Reads index Expr.WellFormed) :
    Reads (operandWith index) Operand.WellFormed := by
  intro toks rest x htoks h
  unfold operandWith at h
  split at h
  · cases h
    exact ⟨trivial, htoks⟩
  · obtain ⟨ht, htail⟩ := htoks.tail
    split at h
    · split at h
      · cases h
        exact ⟨trivial, htail⟩
      · cases h
    · split at h
      · cases h
        exact ⟨ht, htail⟩
      · rename_i inside hopen
        split at h
        · cases h
        · rename_i i behind hi
          obtain ⟨hwf, hbehind⟩ := hindex (spelled_of_sign htail hopen) hi
          split at h
          · cases h
          · rename_i hclose
            cases h
            exact ⟨⟨ht, hwf⟩, spelled_of_sign hbehind hclose⟩
    · cases h

theorem reads_exprWith {operand : Parser Operand} (hoperand : Reads operand Operand.WellFormed) :
    Reads (exprWith operand) Expr.WellFormed := by
  intro toks rest x htoks h
  unfold exprWith at h
  split at h
  · -- an operator in front
    rename_i op behind hop
    obtain ⟨hne, hbehind⟩ := reads_opRun htoks hop
    split at h
    · rename_i y hy
      cases h
      obtain ⟨hwf, hrest⟩ := hoperand hbehind hy
      exact ⟨⟨hne, hwf⟩, hrest⟩
    · cases h
  · split at h
    · cases h
    · rename_i y behind hy
      obtain ⟨hwf, hbehind⟩ := hoperand htoks hy
      split at h
      · rename_i hmiss
        rw [Bool.and_eq_true, Bool.not_eq_true'] at hmiss
        split at h
        · cases h
        · rename_i op behind' hop
          obtain ⟨hne, hbehind'⟩ := reads_opRun hbehind hop
          split at h
          · rename_i z hz
            cases h
            obtain ⟨hwf', hrest⟩ := hoperand hbehind' hz
            exact ⟨⟨hne, hmiss.1, hwf, hwf'⟩, hrest⟩
          · cases h
      · cases h
        exact ⟨hwf, hbehind⟩

theorem reads_operand (depth : Nat) : Reads (operand depth) Operand.WellFormed := by
  induction depth with
  | zero =>
    apply reads_operandWith
    intro toks rest x _ h
    cases h
  | succ depth ih => exact reads_operandWith (reads_exprWith ih)

theorem reads_expr : Reads expr Expr.WellFormed := by
  intro toks rest x htoks h
  exact reads_exprWith (reads_operand toks.length) htoks h

theorem spelled_of_stars {depth n : Nat} (htoks : Spelled toks)
    (h : stars depth toks = some (n, rest)) : Spelled rest := by
  induction toks generalizing depth with
  | nil =>
    cases h
    exact htoks
  | cons t toks ih =>
    unfold stars at h
    split at h
    · split at h
      · exact ih htoks.tail.2 h
      · cases h
    · cases h
      exact htoks

theorem reads_target : Reads target Target.WellFormed := by
  intro toks rest t htoks h
  unfold target at h
  split at h
  · cases h
  · rename_i depth behind hstars
    have hbehind := spelled_of_stars htoks hstars
    split at h
    · cases h
    · rename_i name after hname
      obtain ⟨hne, hafter⟩ := reads_ident hbehind hname
      split at h
      · cases h
        exact ⟨hne, hafter⟩
      · rename_i inside hopen
        split at h
        · cases h
        · split at h
          · cases h
          · rename_i i behind' hi
            obtain ⟨hwf, hbehind'⟩ := reads_expr (spelled_of_sign hafter hopen) hi
            split at h
            · cases h
            · rename_i hclose
              cases h
              exact ⟨⟨hne, hwf⟩, spelled_of_sign hbehind' hclose⟩

/-! ## Instructions -/

/-- A well-formed instruction that can stand behind a condition. -/
def IsAction (ins : Instr) : Prop := ins.isAction = true ∧ ins.WellFormed

theorem reads_callTail : Reads callTail IsAction := by
  intro toks rest ins htoks h
  unfold callTail at h
  split at h
  · cases h
  · rename_i first behind hfirst
    obtain ⟨hne, hbehind⟩ := reads_ident htoks hfirst
    split at h
    · cases h
    · rename_i after hcomma
      have hafter := spelled_of_sign hbehind hcomma
      split at h
      · rename_i n last hn
        cases h
        exact ⟨⟨rfl, hne, by simp, by simp⟩, (reads_integer hafter hn).2⟩
      · split at h
        · rename_i second last hsecond
          cases h
          obtain ⟨hne', hlast⟩ := reads_ident hafter hsecond
          exact ⟨⟨rfl, hne', by simp [hne], by simp⟩, hlast⟩
        · cases h

theorem wellFormed_of_complete_expr {x : Expr} (htoks : Spelled toks)
    (h : complete expr toks = some x) : x.WellFormed :=
  reads_expr.complete htoks h

theorem isAction_of_wordForm {word : String} {f : Expr → Instr} {ins : Instr}
    (hf : ∀ x, x.WellFormed → IsAction (f x)) (htoks : Spelled toks)
    (h : wordForm word f toks = some ins) : IsAction ins := by
  obtain ⟨behind, hword, h⟩ := Option.bind_eq_some_iff.mp h
  obtain ⟨x, hx, rfl⟩ := Option.map_eq_some_iff.mp h
  exact hf x (wellFormed_of_complete_expr (spelled_of_keyword htoks hword) hx)

theorem isAction_of_returnForm {ins : Instr} (htoks : Spelled toks)
    (h : returnForm toks = some ins) : IsAction ins := by
  obtain ⟨behind, hword, h⟩ := Option.bind_eq_some_iff.mp h
  split at h
  · cases h
    exact ⟨rfl, by simp [Instr.WellFormed]⟩
  · obtain ⟨x, hx, rfl⟩ := Option.map_eq_some_iff.mp h
    have hwf := wellFormed_of_complete_expr (spelled_of_keyword htoks hword) hx
    exact ⟨rfl, by simpa [Instr.WellFormed] using hwf⟩

theorem isAction_of_gotoForm {ins : Instr} (htoks : Spelled toks)
    (h : gotoForm toks = some ins) : IsAction ins := by
  obtain ⟨behind, hword, h⟩ := Option.bind_eq_some_iff.mp h
  obtain ⟨label, hlabel, rfl⟩ := Option.map_eq_some_iff.mp h
  exact ⟨rfl, reads_ident.complete (spelled_of_keyword htoks hword) hlabel⟩

theorem isAction_of_callForm {ins : Instr} (htoks : Spelled toks)
    (h : callForm toks = some ins) : IsAction ins := by
  obtain ⟨behind, hword, h⟩ := Option.bind_eq_some_iff.mp h
  exact reads_callTail.complete (spelled_of_keyword htoks hword) h

theorem isAction_of_wordForms {ins : Instr} (htoks : Spelled toks)
    (h : wordForms toks = some ins) : IsAction ins := by
  unfold wordForms at h
  simp only [Option.orElse_eq_orElse, Option.orElse_eq_or, Option.or_eq_some_iff] at h
  rcases h with h | ⟨_, h | ⟨_, h | ⟨_, h | ⟨_, h⟩⟩⟩⟩
  · exact isAction_of_wordForm (f := .print) (fun x hx => ⟨rfl, hx⟩) htoks h
  · exact isAction_of_returnForm htoks h
  · exact isAction_of_gotoForm htoks h
  · exact isAction_of_callForm htoks h
  · exact isAction_of_wordForm (f := .param) (fun x hx => ⟨rfl, hx⟩) htoks h

theorem isAction_of_assigned {t : Target} {ins : Instr} (ht : t.WellFormed) (htoks : Spelled toks)
    (h : assigned t toks = some ins) : IsAction ins := by
  have hassign : ∀ {ins}, (complete expr toks).map (.assign t) = some ins → IsAction ins := by
    intro ins h
    obtain ⟨x, hx, rfl⟩ := Option.map_eq_some_iff.mp h
    exact ⟨rfl, ht, wellFormed_of_complete_expr htoks hx⟩
  unfold assigned at h
  split at h
  · split at h
    · -- a call whose result goes to the variable
      rename_i behind hword
      split at h
      · rename_i hcall
        cases h
        obtain ⟨-, hproc, -, -⟩ := reads_callTail.complete (spelled_of_keyword htoks hword) hcall
        exact ⟨rfl, hproc, by simpa [Target.WellFormed] using ht, by simp⟩
      · cases h
    · exact hassign h
  · exact hassign h

theorem isAction_of_assignForm {ins : Instr} (htoks : Spelled toks)
    (h : assignForm toks = some ins) : IsAction ins := by
  unfold assignForm at h
  split at h
  · obtain ⟨x, hx, rfl⟩ := Option.map_eq_some_iff.mp h
    exact ⟨rfl, wellFormed_of_complete_expr htoks hx⟩
  · rename_i eq right hright
    obtain ⟨t, ht, h⟩ := Option.bind_eq_some_iff.mp h
    -- both sides of the equals sign are parts of the line
    have hleft : Spelled (toks.takeWhile (·.lexeme != "=")) :=
      fun t ht => htoks t ((List.takeWhile_sublist _).subset ht)
    have hdrop : Spelled (eq :: right) := by
      rw [← hright]
      exact fun t ht => htoks t ((List.dropWhile_sublist _).subset ht)
    exact isAction_of_assigned (reads_target.complete hleft ht) hdrop.tail.2 h

theorem isAction_of_ifForm {action : Tokens → Option Instr} {ins : Instr}
    (haction : ∀ {toks ins}, Spelled toks → action toks = some ins → IsAction ins)
    (htoks : Spelled toks) (h : ifForm action toks = some ins) : IsAction ins := by
  obtain ⟨behind, hword, h⟩ := Option.bind_eq_some_iff.mp h
  split at h
  · cases h
  · rename_i cond after hcond
    obtain ⟨hwf, hafter⟩ := reads_expr (spelled_of_keyword htoks hword) hcond
    split at h
    · cases h
    · obtain ⟨a, ha, rfl⟩ := Option.map_eq_some_iff.mp h
      exact ⟨rfl, hwf, haction hafter ha⟩

theorem isAction_of_action {depth : Nat} {ins : Instr} (htoks : Spelled toks)
    (h : action depth toks = some ins) : IsAction ins := by
  have hplain : ∀ {toks ins}, Spelled toks → (wordForms toks <|> assignForm toks) = some ins →
      IsAction ins := by
    intro toks ins htoks h
    simp only [Option.orElse_eq_orElse, Option.orElse_eq_or, Option.or_eq_some_iff] at h
    rcases h with h | ⟨_, h⟩
    · exact isAction_of_wordForms htoks h
    · exact isAction_of_assignForm htoks h
  induction depth generalizing toks ins with
  | zero => exact hplain htoks h
  | succ depth ih =>
    unfold action at h
    rw [Option.orElse_eq_orElse, Option.orElse_eq_or, Option.or_eq_some_iff] at h
    rcases h with h | ⟨_, h⟩
    · exact isAction_of_ifForm ih htoks h
    · exact hplain htoks h

/-- What is read from tokens with a text is well formed. -/
theorem wellFormed_of_instr {ins : Instr} (htoks : Spelled toks) (h : instr toks = some ins) :
    ins.WellFormed := by
  unfold instr at h
  simp only [Option.orElse_eq_orElse, Option.orElse_eq_or, Option.or_eq_some_iff] at h
  rcases h with h | ⟨_, h | ⟨_, h | ⟨_, h | ⟨_, h⟩⟩⟩⟩
  · exact (isAction_of_ifForm isAction_of_action htoks h).2
  · exact (isAction_of_wordForms htoks h).2
  · -- `BeginFunc`
    obtain ⟨behind, hword, h⟩ := Option.bind_eq_some_iff.mp h
    split at h
    · cases h
    · rename_i name after hname
      obtain ⟨hne, -⟩ := reads_ident (spelled_of_keyword htoks hword) hname
      obtain ⟨last, _, h⟩ := Option.bind_eq_some_iff.mp h
      obtain ⟨n, _, rfl⟩ := Option.map_eq_some_iff.mp h
      exact hne
  · -- `EndFunc`
    obtain ⟨behind, _, h⟩ := Option.bind_eq_some_iff.mp h
    split at h
    · cases h
      trivial
    · cases h
  · exact (isAction_of_assignForm htoks h).2

end Parse

/-- Every instruction that a line holds is well formed. -/
theorem classify_wellFormed {line : List Text.Piece} {st : Statement}
    (h : classify line = .ok st) : st.instr.WellFormed := by
  have hread : ∀ {source rest ins}, readInstr source rest = .ok ins → ins.WellFormed := by
    intro source rest ins hins
    unfold readInstr at hins
    split at hins
    · cases hins
      trivial
    · split at hins
      · cases hins
      · rename_i toks htoks
        split at hins
        · rename_i hparse
          cases hins
          have hspelled := Word.spelled_tokenizeBytes (Text.bytes rest)
          rw [htoks] at hspelled
          exact Parse.wellFormed_of_instr hspelled hparse
        · cases hins
  unfold classify at h
  dsimp only at h
  cases hins : readInstr (Text.display line) (splitLabel line).2 with
  | error e =>
    rw [hins] at h
    cases h
  | ok ins =>
    rw [hins] at h
    cases h
    exact hread hins

end AddressCode
