import AddressCode.Proofs.Grammar

/-!
# AddressCode.Proofs.Spacing — where tokens stand

The places of the tokens of a line count in one respect only: operator tokens that touch are one
operator.  `Tighter toks toks'` says that two lists have the same words, and that operators touch in
the first where they touch in the second.

In a phrase, an operator is followed by an operand or by the end of the line, so that no phrase
depends on a gap between operators.  Therefore what holds of some tokens holds of tighter ones
(`IsExpr.transfer`, `Derives.transfer`).
-/

namespace AddressCode.Parse

variable {t t' u u' : Token Word} {toks toks' taken taken' rest rest' run run' : Tokens}

/-! ## Tighter tokens -/

/-- The same word in two places. -/
structure SameWord (t t' : Token Word) : Prop where
  kind : t.kind = t'.kind
  bytes : t.bytes = t'.bytes
  upright : t.span.start ≤ t.span.stop
  upright' : t'.span.start ≤ t'.span.stop

theorem SameWord.lexeme (h : SameWord t t') : t.lexeme = t'.lexeme := by
  rw [Token.lexeme, Token.lexeme, h.bytes]

theorem SameWord.symm (h : SameWord t t') : SameWord t' t :=
  ⟨h.kind.symm, h.bytes.symm, h.upright', h.upright⟩

/-- An operator token touches the next one. -/
def Joins (t u : Token Word) : Prop := t.kind = .op ∧ u.kind = .op ∧ t.span.stop = u.span.start

/-- The same words, whose operators touch in the first list where they touch in the second. -/
inductive Tighter : Tokens → Tokens → Prop where
  | nil : Tighter [] []
  | cons {t t' : Token Word} {toks toks' : Tokens} (hword : SameWord t t')
      (hjoin : ∀ u ∈ toks.head?, ∀ u' ∈ toks'.head?, Joins t' u' → Joins t u)
      (h : Tighter toks toks') : Tighter (t :: toks) (t' :: toks')

/-- If the first tokens begin with a token, so do the second ones, with one of the same kind; and
an equals sign at the beginning of the second ones is one of the first. -/
def Follows (rest rest' : Tokens) : Prop :=
  ∀ u ∈ rest.head?, ∃ u' ∈ rest'.head?, u.kind = u'.kind ∧ (u'.lexeme = "=" → u.lexeme = "=")

theorem Tighter.append (h : Tighter taken taken') (h' : Tighter rest rest')
    (hapart : ∀ t ∈ taken'.getLast?, ∀ u ∈ rest'.head?, ¬ Joins t u) :
    Tighter (taken ++ rest) (taken' ++ rest') := by
  induction h with
  | nil => exact h'
  | @cons t t' toks toks' hword hjoin htoks ih =>
    refine .cons hword ?_ (ih fun v hv => hapart v ?_)
    · cases htoks with
      | nil =>
        intro u _ u' hu' hjoins
        exact absurd hjoins (hapart t' rfl u' hu')
      | cons _ _ _ => exact hjoin
    · cases htoks with
      | nil => cases hv
      | cons _ _ _ => simpa using hv

theorem Tighter.of_append (h : Tighter toks (taken' ++ rest')) :
    ∃ taken rest, toks = taken ++ rest ∧ Tighter taken taken' ∧ Tighter rest rest' := by
  induction taken' generalizing toks with
  | nil => exact ⟨[], toks, rfl, .nil, h⟩
  | cons t' taken' ih =>
    cases h with
    | @cons t _ toks _ hword hjoin h =>
      obtain ⟨taken, rest, rfl, htaken, hrest⟩ := ih h
      refine ⟨t :: taken, rest, rfl, .cons hword ?_ htaken, hrest⟩
      cases htaken with
      | nil => simp
      | cons _ _ _ => exact hjoin

theorem Tighter.of_cons (h : Tighter toks (t' :: rest')) :
    ∃ t rest, toks = t :: rest ∧ SameWord t t' ∧ Tighter rest rest' := by
  cases h with
  | cons hword _ h => exact ⟨_, _, rfl, hword, h⟩

theorem Tighter.of_nil (h : Tighter toks []) : toks = [] := by
  cases h
  rfl

theorem Tighter.eq_nil_iff (h : Tighter toks toks') : toks = [] ↔ toks' = [] := by
  cases h <;> simp

theorem Tighter.head? (h : Tighter toks toks') :
    ∀ t ∈ toks.head?, ∃ t' ∈ toks'.head?, SameWord t t' := by
  cases h with
  | nil => simp
  | cons hword _ _ =>
    rintro _ ⟨⟩
    exact ⟨_, rfl, hword⟩

theorem Tighter.lexemes_eq (h : Tighter toks toks') : lexemes toks = lexemes toks' := by
  induction h with
  | nil => rfl
  | cons hword _ _ ih => rw [lexemes_cons, lexemes_cons, hword.lexeme, ih]

/-- What holds of the words in the second list holds of those in the first. -/
theorem Tighter.forall {p : Word → String → Prop} (h : Tighter toks toks')
    (hall : ∀ t ∈ toks', p t.kind t.lexeme) : ∀ t ∈ toks, p t.kind t.lexeme := by
  induction h with
  | nil => simp
  | cons hword _ _ ih =>
    obtain ⟨ht, hrest⟩ := List.forall_mem_cons.mp hall
    rw [← hword.kind, ← hword.lexeme] at ht
    exact List.forall_mem_cons.mpr ⟨ht, ih hrest⟩

theorem Tighter.follows (h : Tighter toks toks') (hrest : Follows rest rest') :
    Follows (toks ++ rest) (toks' ++ rest') := by
  cases h with
  | nil => exact hrest
  | cons hword _ _ =>
    rintro u ⟨⟩
    exact ⟨_, rfl, hword.kind, fun heq => hword.lexeme.trans heq⟩

theorem Follows.nil : Follows [] rest' := by
  rintro u ⟨⟩

theorem Tighter.follows_self (h : Tighter toks toks') : Follows toks toks' := by
  have hends : Follows [] [] := .nil
  simpa using h.follows hends

/-! ## Phrases -/

theorem IsWord.transfer {word : String} (h : IsWord word t') (hword : SameWord t t') :
    IsWord word t :=
  ⟨hword.kind.trans h.1, hword.lexeme.trans h.2⟩

theorem IsCount.transfer {n : Nat} (h : IsCount t' n) (hword : SameWord t t') : IsCount t n := by
  obtain ⟨hkind, hne, hdigits, hvalue, hbound⟩ := h
  rw [← hword.lexeme] at hne hdigits hvalue
  exact ⟨hword.kind.trans hkind, hne, hdigits, hvalue, hbound⟩

theorem Touching.transfer {n : Nat} (h : Touching t'.span.stop run' n)
    (htight : Tighter (t :: run) (t' :: run')) (hkind : t'.kind = .op) :
    ∃ m, Touching t.span.stop run m := by
  induction run' generalizing t t' run with
  | nil =>
    cases htight with
    | cons _ _ htight =>
      obtain rfl := htight.of_nil
      exact ⟨_, .nil⟩
  | cons u' run' ih =>
    cases htight with
    | cons hword hjoin htight =>
      cases h with
      | cons hkind' hstart h =>
        obtain ⟨u, run, rfl, hword', -⟩ := htight.of_cons
        obtain ⟨-, hu, hstop⟩ := hjoin u rfl u' rfl ⟨hkind, hkind', hstart⟩
        rw [hstart, max_eq_right hword'.upright'] at h
        obtain ⟨m, hm⟩ := ih h htight hkind'
        refine ⟨m, .cons hu hstop ?_⟩
        rwa [hstop, max_eq_right hword'.upright]

theorem IsOpRun.transfer {op : String} (h : IsOpRun run' op rest') (htight : Tighter run run')
    (hnext : ∀ u ∈ rest.head?, u.kind ≠ .op) : IsOpRun run op rest := by
  cases h with
  | mk hkind hrun _ =>
    obtain ⟨t, run, rfl, hword, -⟩ := htight.of_cons
    obtain ⟨m, hm⟩ := hrun.transfer htight hkind
    rw [← htight.lexemes_eq]
    exact .mk (hword.kind.trans hkind) hm fun u hu hop => absurd hop (hnext u hu)

theorem Follows.not_lbracket (h : Follows rest rest')
    (hnext : ∀ u ∈ rest'.head?, u.kind ≠ .lbracket) : ∀ u ∈ rest.head?, u.kind ≠ .lbracket := by
  intro u hu
  obtain ⟨u', hu', hkind, -⟩ := h u hu
  exact hkind ▸ hnext u' hu'

mutual

theorem IsOperand.transfer {taken taken' rest rest' : Tokens} {x : Operand}
    (h : IsOperand taken' x rest')
    (htight : Tighter taken taken') (hrest : Follows rest rest') : IsOperand taken x rest := by
  cases h with
  | missing =>
    obtain rfl := htight.of_nil
    have hnil : rest = [] := by
      cases rest with
      | nil => rfl
      | cons u rest =>
        obtain ⟨u', ⟨⟩, -⟩ := hrest u rfl
    exact hnil ▸ .missing
  | literal hkind hvalue =>
    obtain ⟨t, _, rfl, hword, htight⟩ := htight.of_cons
    obtain rfl := htight.of_nil
    rw [← hword.lexeme] at hvalue ⊢
    exact .literal (hword.kind.trans hkind) hvalue
  | «variable» hkind hnext =>
    obtain ⟨t, _, rfl, hword, htight⟩ := htight.of_cons
    obtain rfl := htight.of_nil
    rw [← hword.lexeme]
    exact .variable (hword.kind.trans hkind) (hrest.not_lbracket hnext)
  | element hkind hl hindex hr =>
    obtain ⟨t, _, rfl, hword, htight⟩ := htight.of_cons
    obtain ⟨l, _, rfl, hwordl, htight⟩ := htight.of_cons
    obtain ⟨taken, _, rfl, htaken, htight⟩ := htight.of_append
    obtain ⟨r, _, rfl, hwordr, htight⟩ := htight.of_cons
    obtain rfl := htight.of_nil
    rw [← hword.lexeme]
    refine .element (hword.kind.trans hkind) (hwordl.kind.trans hl) ?_ (hwordr.kind.trans hr)
    refine hindex.transfer htaken ?_
    rintro u ⟨⟩
    exact ⟨_, rfl, hwordr.kind, fun heq => hwordr.lexeme.trans heq⟩

theorem IsExpr.transfer {taken taken' rest rest' : Tokens} {x : Expr}
    (h : IsExpr taken' x rest')
    (htight : Tighter taken taken') (hrest : Follows rest rest') : IsExpr taken x rest := by
  cases h with
  | unary hop hx =>
    obtain ⟨run, right, rfl, hrun, hright⟩ := htight.of_append
    have hx := hx.transfer hright hrest
    exact .unary (hop.transfer hrun hx.head?_ne_op) hx
  | binary hx hpresent hop hfirst hy =>
    obtain ⟨left, _, rfl, hleft, htight⟩ := htight.of_append
    obtain ⟨run, right, rfl, hrun, hright⟩ := htight.of_append
    have hy := hy.transfer hright hrest
    have hx := hx.transfer hleft (hrun.follows (hright.follows hrest))
    refine .binary hx hpresent (hop.transfer hrun hy.head?_ne_op) ?_ hy
    cases hrun with
    | nil => simp
    | cons hword _ _ =>
      rintro u ⟨⟩
      exact hword.lexeme ▸ hfirst _ rfl
  | atomic hx hnext =>
    refine .atomic (hx.transfer htight hrest) ?_
    intro u hu hkind
    obtain ⟨u', hu', hkind', heq⟩ := hrest u hu
    exact heq (hnext u' hu' (hkind'.symm.trans hkind))

end

/-! ## Forms -/

theorem IsStars.transfer {depth : Nat} (h : IsStars taken' depth) (htight : Tighter taken taken') :
    IsStars taken depth := by
  induction h generalizing taken with
  | nil => exact htight.of_nil ▸ .nil
  | cons hkind hall _ ih =>
    obtain ⟨t, _, rfl, hword, htight⟩ := htight.of_cons
    rw [← hword.lexeme] at hall ⊢
    exact .cons (hword.kind.trans hkind) hall (ih htight)

theorem IsTarget.transfer {x : Target} (h : IsTarget taken' x rest')
    (htight : Tighter taken taken') (hrest : Follows rest rest') : IsTarget taken x rest := by
  cases h with
  | «variable» hstars hkind hnext =>
    obtain ⟨stars, _, rfl, htstars, htight⟩ := htight.of_append
    obtain ⟨t, _, rfl, hword, htight⟩ := htight.of_cons
    obtain rfl := htight.of_nil
    rw [← hword.lexeme]
    exact .variable (hstars.transfer htstars) (hword.kind.trans hkind) (hrest.not_lbracket hnext)
  | element hstars hkind hl hindex hr =>
    obtain ⟨stars, _, rfl, htstars, htight⟩ := htight.of_append
    obtain ⟨t, _, rfl, hword, htight⟩ := htight.of_cons
    obtain ⟨l, _, rfl, hwordl, htight⟩ := htight.of_cons
    obtain ⟨taken, _, rfl, htaken, htight⟩ := htight.of_append
    obtain ⟨r, _, rfl, hwordr, htight⟩ := htight.of_cons
    obtain rfl := htight.of_nil
    rw [← hword.lexeme]
    refine .element (hstars.transfer htstars) (hword.kind.trans hkind) (hwordl.kind.trans hl) ?_
      (hwordr.kind.trans hr)
    refine hindex.transfer htaken ?_
    rintro u ⟨⟩
    exact ⟨_, rfl, hwordr.kind, fun heq => hwordr.lexeme.trans heq⟩

theorem IsCallTail.transfer {ins : Instr} (h : IsCallTail toks' ins) (htight : Tighter toks toks') :
    IsCallTail toks ins := by
  cases h with
  | counted hf hc hk =>
    obtain ⟨f, _, rfl, hwordf, htight⟩ := htight.of_cons
    obtain ⟨c, _, rfl, hwordc, htight⟩ := htight.of_cons
    obtain ⟨k, _, rfl, hwordk, htight⟩ := htight.of_cons
    obtain rfl := htight.of_nil
    rw [← hwordf.lexeme]
    exact .counted (hwordf.kind.trans hf) (hwordc.kind.trans hc) (hk.transfer hwordk)
  | result hr hc hf =>
    obtain ⟨r, _, rfl, hwordr, htight⟩ := htight.of_cons
    obtain ⟨c, _, rfl, hwordc, htight⟩ := htight.of_cons
    obtain ⟨f, _, rfl, hwordf, htight⟩ := htight.of_cons
    obtain rfl := htight.of_nil
    rw [← hwordr.lexeme, ← hwordf.lexeme]
    exact .result (hwordr.kind.trans hr) (hwordc.kind.trans hc) (hwordf.kind.trans hf)

/-- Tighter tokens have the same forms. -/
theorem Derives.transfer {f : Form} {ins : Instr} (h : Derives f toks' ins)
    (htight : Tighter toks toks') : Derives f toks ins := by
  induction h generalizing toks with
  | ifThen ht hcond hne hf _ ih =>
    obtain ⟨t, _, rfl, hword, htight⟩ := htight.of_cons
    obtain ⟨taken, rest, rfl, htaken, hrest⟩ := htight.of_append
    exact .ifThen (ht.transfer hword) (hcond.transfer htaken hrest.follows_self)
      (mt hrest.eq_nil_iff.mp hne) hf (ih hrest)
  | print ht hx =>
    obtain ⟨t, taken, rfl, hword, htaken⟩ := htight.of_cons
    exact .print (ht.transfer hword) (hx.transfer htaken .nil)
  | ret ht =>
    obtain ⟨t, _, rfl, hword, htight⟩ := htight.of_cons
    obtain rfl := htight.of_nil
    exact .ret (ht.transfer hword)
  | retWith ht hne hx =>
    obtain ⟨t, taken, rfl, hword, htaken⟩ := htight.of_cons
    exact .retWith (ht.transfer hword) (mt htaken.eq_nil_iff.mp hne) (hx.transfer htaken .nil)
  | goto ht hl =>
    obtain ⟨t, _, rfl, hword, htight⟩ := htight.of_cons
    obtain ⟨l, _, rfl, hwordl, htight⟩ := htight.of_cons
    obtain rfl := htight.of_nil
    rw [← hwordl.lexeme]
    exact .goto (ht.transfer hword) (hwordl.kind.trans hl)
  | call ht htail =>
    obtain ⟨t, tail, rfl, hword, htight⟩ := htight.of_cons
    exact .call (ht.transfer hword) (htail.transfer htight)
  | param ht hx =>
    obtain ⟨t, taken, rfl, hword, htaken⟩ := htight.of_cons
    exact .param (ht.transfer hword) (hx.transfer htaken .nil)
  | beginFunc ht hf hc hk =>
    obtain ⟨t, _, rfl, hword, htight⟩ := htight.of_cons
    obtain ⟨f, _, rfl, hwordf, htight⟩ := htight.of_cons
    obtain ⟨c, _, rfl, hwordc, htight⟩ := htight.of_cons
    obtain ⟨k, _, rfl, hwordk, htight⟩ := htight.of_cons
    obtain rfl := htight.of_nil
    rw [← hwordf.lexeme]
    exact .beginFunc (ht.transfer hword) (hwordf.kind.trans hf) (hwordc.kind.trans hc)
      (hk.transfer hwordk)
  | endFunc ht =>
    obtain ⟨t, _, rfl, hword, htight⟩ := htight.of_cons
    obtain rfl := htight.of_nil
    exact .endFunc (ht.transfer hword)
  | assign htarget hleft he hcall hx =>
    obtain ⟨left, _, rfl, hl, htight⟩ := htight.of_append
    obtain ⟨e, right, rfl, hword, hright⟩ := htight.of_cons
    refine .assign (htarget.transfer hl .nil) ?_ (hword.lexeme.trans he) ?_
      (hx.transfer hright .nil)
    · exact hl.forall (p := fun _ s => s ≠ "=") hleft
    · intro name hname t ht hc
      obtain ⟨t', ht', hsame⟩ := hright.head? t ht
      exact hcall name hname t' ht' (hc.transfer hsame.symm)
  | result htarget hleft he hc htail =>
    obtain ⟨left, _, rfl, hl, htight⟩ := htight.of_append
    obtain ⟨e, _, rfl, hword, htight⟩ := htight.of_cons
    obtain ⟨c, tail, rfl, hwordc, htight⟩ := htight.of_cons
    exact .result (htarget.transfer hl .nil) (hl.forall (p := fun _ s => s ≠ "=") hleft)
      (hword.lexeme.trans he) (hc.transfer hwordc) (htail.transfer htight)
  | expression hnone hx =>
    exact .expression (htight.forall (p := fun _ s => s ≠ "=") hnone) (hx.transfer htight .nil)

end AddressCode.Parse
