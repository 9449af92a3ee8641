import AddressCode.Proofs.Effects
import AddressCode.Proofs.Maps
import Mathlib.Data.List.Induction
import Mathlib.Order.Bounds.Basic

/-!
# AddressCode.Proofs.Nesting — procedures inside each other, in the text of a program

The lines that begin and end procedures are read in two ways: the text gives each position a depth
(`Program.staticDepth`), and a run that records a body counts for itself.  Here is what the text
alone says.

* The action of an `if` never begins or ends a procedure, so a line that does it is nothing else
  (`Line.opens_of_core`, `Line.closes_of_core`).
* A label leads to the last line outside of all procedures that has it
  (`Program.lookup?_labels_iff`).
* A body is balanced if it ends as many procedures as it begins, and never one more at any place
  before.  Outside of all procedures such a body ends none (`Balanced.not_closes`).
-/

namespace AddressCode

/-! ## Actions -/

/-- Does an instruction begin or end a procedure? -/
def Instr.isLimit : Instr → Bool
  | .beginFunc _ _ | .endFunc => true
  | _ => false

namespace Parse

/-- Whatever is read, its core begins and ends no procedure. -/
def Plain (o : Option Instr) : Prop := ∀ ins, o = some ins → ins.core.isLimit = false

theorem Plain.orElse {o o' : Option Instr} (h : Plain o) (h' : Plain o') : Plain (o <|> o') := by
  intro ins hins
  cases o with
  | none => exact h' ins hins
  | some i => exact h ins hins

theorem Plain.bind {α : Type} {o : Option α} {f : α → Option Instr} (h : ∀ a, Plain (f a)) :
    Plain (o.bind f) := by
  intro ins hins
  obtain ⟨a, _, ha⟩ := Option.bind_eq_some_iff.mp hins
  exact h a ins ha

theorem Plain.map {α : Type} {o : Option α} {f : α → Instr}
    (h : ∀ a, (f a).core.isLimit = false) : Plain (o.map f) := by
  intro ins hins
  obtain ⟨a, _, rfl⟩ := Option.map_eq_some_iff.mp hins
  exact h a

theorem plain_none : Plain none := by
  intro ins hins
  cases hins

theorem plain_some {ins : Instr} (h : ins.core.isLimit = false) : Plain (some ins) := by
  intro ins' hins
  cases hins
  exact h

theorem plain_complete {p : Parser Instr} {toks : Tokens}
    (h : ∀ ins rest, p toks = some (ins, rest) → ins.core.isLimit = false) :
    Plain (complete p toks) := by
  unfold complete
  split
  · rename_i ins hp
    exact plain_some (h ins [] hp)
  · exact plain_none

theorem plain_callTail (toks : Tokens) : Plain (complete callTail toks) := by
  apply plain_complete
  intro ins rest h
  unfold callTail at h
  split at h
  · cases h
  · split at h
    · cases h
    · split at h
      · cases h
        rfl
      · split at h
        · cases h
          rfl
        · cases h

theorem plain_assigned (target : Target) (toks : Tokens) : Plain (assigned target toks) := by
  unfold assigned
  split
  · split
    · split
      · exact plain_some rfl
      · exact plain_none
    · exact .map fun _ => rfl
  · exact .map fun _ => rfl

theorem plain_assignForm (toks : Tokens) : Plain (assignForm toks) := by
  unfold assignForm
  split
  · exact .map fun _ => rfl
  · exact .bind fun t => plain_assigned t _

theorem plain_wordForms (toks : Tokens) : Plain (wordForms toks) := by
  have hword : ∀ (word : String) (f : Expr → Instr), (∀ x, (f x).core.isLimit = false) →
      Plain (wordForm word f toks) := by
    intro word f hf
    exact .bind fun rest => .map hf
  have hreturn : Plain (returnForm toks) := by
    refine .bind fun rest => ?_
    split
    · exact plain_some rfl
    · exact .map fun _ => rfl
  have hgoto : Plain (gotoForm toks) := .bind fun rest => .map fun _ => rfl
  have hcall : Plain (callForm toks) := .bind fun rest => plain_callTail rest
  have hprint := hword "print" .print fun _ => rfl
  have hparam := hword "param" .param fun _ => rfl
  exact hprint.orElse (hreturn.orElse (hgoto.orElse (hcall.orElse hparam)))

theorem plain_ifForm {action : Tokens → Option Instr} (h : ∀ toks, Plain (action toks))
    (toks : Tokens) : Plain (ifForm action toks) := by
  refine .bind fun rest => ?_
  split
  · exact plain_none
  · rename_i cond rest' _
    split
    · exact plain_none
    · -- the core of an `if` is that of its action
      intro ins hins
      obtain ⟨a, ha, rfl⟩ := Option.map_eq_some_iff.mp hins
      exact h rest' a ha

theorem plain_action (depth : Nat) (toks : Tokens) : Plain (action depth toks) := by
  induction depth generalizing toks with
  | zero => exact (plain_wordForms toks).orElse (plain_assignForm toks)
  | succ depth ih =>
    exact (plain_ifForm ih toks).orElse ((plain_wordForms toks).orElse (plain_assignForm toks))

/-- An instruction whose core begins or ends a procedure has no condition in front of it. -/
theorem core_eq_of_isLimit {toks : Tokens} {ins : Instr} (h : instr toks = some ins)
    (hcore : ins.core.isLimit = true) : ins.core = ins := by
  have hplain : ∀ {o : Option Instr}, Plain o → o = some ins → ins.core = ins := by
    intro o ho hins
    rw [ho ins hins] at hcore
    cases hcore
  unfold instr at h
  simp only [Option.orElse_eq_orElse, Option.orElse_eq_or, Option.or_eq_some_iff] at h
  rcases h with h | ⟨_, h | ⟨_, h | ⟨_, h | ⟨_, h⟩⟩⟩⟩
  · exact hplain (plain_ifForm (plain_action toks.length) toks) h
  · exact hplain (plain_wordForms toks) h
  · -- `BeginFunc`
    unfold beginFuncForm at h
    obtain ⟨rest, _, h⟩ := Option.bind_eq_some_iff.mp h
    split at h
    · cases h
    · obtain ⟨rest', _, h⟩ := Option.bind_eq_some_iff.mp h
      obtain ⟨n, _, rfl⟩ := Option.map_eq_some_iff.mp h
      rfl
  · -- `EndFunc`
    unfold endFuncForm at h
    obtain ⟨rest, _, h⟩ := Option.bind_eq_some_iff.mp h
    split at h
    · cases h
      rfl
    · cases h
  · exact hplain (plain_assignForm toks) h

end Parse

namespace Line

variable {l : Line}

/-- The instruction of a line is empty, or was read from its tokens. -/
theorem read_of_instr {ins : Instr} (h : l.instr = .ok ins) :
    ins = .noop ∨ ∃ toks, Parse.instr toks = some ins := by
  rw [l.instr_eq] at h
  simp only [classify, readInstr] at h
  split at h
  · cases h
    exact Or.inl rfl
  · split at h
    · cases h
    · split at h
      · rename_i ins' hins
        cases h
        exact Or.inr ⟨_, hins⟩
      · cases h

/-- A core that begins or ends a procedure is the whole line. -/
theorem instr_of_core {ins : Instr} (h : l.core? = some ins) (hlim : ins.isLimit = true) :
    l.instr = .ok ins := by
  unfold core? at h
  obtain ⟨i, hi, rfl⟩ := Option.map_eq_some_iff.mp h
  have hinstr : l.instr = .ok i := by
    cases hl : l.instr with
    | error e =>
      rw [hl] at hi
      cases hi
    | ok j =>
      rw [hl] at hi
      cases hi
      rfl
  rcases read_of_instr hinstr with rfl | ⟨toks, htoks⟩
  · cases hlim
  · rw [Parse.core_eq_of_isLimit htoks hlim]
    exact hinstr

theorem opens_iff : l.opens = true ↔ ∃ name arity, l.instr = .ok (.beginFunc name arity) := by
  unfold opens
  constructor
  · intro h
    split at h
    · rename_i name arity hl
      exact ⟨name, arity, hl⟩
    · cases h
  · rintro ⟨name, arity, hl⟩
    rw [hl]

/-- A line with another core begins no procedure. -/
theorem not_opens_of_core {ins : Instr} (h : l.core? = some ins) (hlim : ins.isLimit = false) :
    l.opens = false := by
  cases ho : l.opens with
  | false => rfl
  | true =>
    obtain ⟨name, arity, hl⟩ := opens_iff.mp ho
    simp only [core?, hl, Except.toOption, Option.map_some, Instr.core] at h
    cases h
    cases hlim

theorem closes_iff : l.closes = true ↔ l.instr = .ok .endFunc := by
  unfold closes
  constructor
  · intro h
    split at h
    · rename_i hl
      exact hl
    · cases h
  · intro hl
    rw [hl]

/-- A line does not both begin and end a procedure. -/
theorem not_opens_of_closes (h : l.closes = true) : l.opens = false := by
  unfold opens
  rw [closes_iff.mp h]

end Line

/-! ## Depths and labels -/

theorem Labels.lookup?_define {π κ : Type} [Ord κ] [Std.LawfulEqOrd κ] [DecidableEq κ]
    [Inhabited κ] (ls : Labels π κ) (label name : κ) (position : π) :
    (ls.define label position).lookup? name =
      if name = label ∧ label ≠ default then some position else ls.lookup? name := by
  unfold define
  by_cases hlabel : label = default
  · simp [hlabel]
  · simp [hlabel, lookup?, Ordered.get?_insert]

namespace Program

variable {p : Program} {l : Line}

theorem depthAfter_of_opens (d : Nat) (h : l.opens = true) : depthAfter d l = d + 1 := by
  simp [depthAfter, h]

theorem depthAfter_of_closes (d : Nat) (h : l.closes = true) : depthAfter d l = d - 1 := by
  simp [depthAfter, h, Line.not_opens_of_closes h]

theorem depthAfter_of_neither (d : Nat) (ho : l.opens = false) (hc : l.closes = false) :
    depthAfter d l = d := by
  simp [depthAfter, ho, hc]

/-- One more procedure that is open stays open, unless the line ends it. -/
theorem depthAfter_succ {d : Nat} (h : l.closes = true → 0 < d) :
    depthAfter (d + 1) l = depthAfter d l + 1 := by
  cases hc : l.closes with
  | true =>
    have hpos := h hc
    rw [depthAfter_of_closes _ hc, depthAfter_of_closes _ hc]
    omega
  | false =>
    cases ho : l.opens with
    | true => rw [depthAfter_of_opens _ ho, depthAfter_of_opens _ ho]
    | false => rw [depthAfter_of_neither _ ho hc, depthAfter_of_neither _ ho hc]

theorem depthFrom_concat (d : Nat) (ls : List Line) (l : Line) :
    depthFrom d (ls ++ [l]) = depthAfter (depthFrom d ls) l := by
  simp [depthFrom]

@[simp]
theorem staticDepth_zero (p : Program) : p.staticDepth 0 = 0 := rfl

theorem staticDepth_succ {pc : Nat} (h : p[pc]? = some l) :
    p.staticDepth (pc + 1) = depthAfter (p.staticDepth pc) l := by
  have htake : p.toList.take (pc + 1) = p.toList.take pc ++ [l] := by
    rw [List.take_add_one, Array.getElem?_toList, h]
    rfl
  unfold staticDepth
  rw [htake, depthFrom_concat]

/-- The line at `i` has a name, and no procedure is open in front of it. -/
structure Visible (p : Program) (name : List UInt8) (i : Nat) : Prop where
  line : ∃ l, p[i]? = some l ∧ l.name = name
  depth : p.staticDepth i = 0

/-- Whether a label is visible can be read off the line. -/
theorem visible_iff {name : List UInt8} {i : Nat} :
    p.Visible name i ↔ (p[i]?.map Line.name) = some name ∧ p.staticDepth i = 0 := by
  rw [Option.map_eq_some_iff]
  exact ⟨fun h => ⟨h.line, h.depth⟩, fun h => ⟨h.1, h.2⟩⟩

instance (p : Program) (name : List UInt8) (i : Nat) : Decidable (p.Visible name i) :=
  decidable_of_iff _ visible_iff.symm

theorem Visible.lt_size {name : List UInt8} {i : Nat} (h : p.Visible name i) : i < p.size := by
  obtain ⟨l, hl, -⟩ := h.line
  exact (Array.getElem?_eq_some_iff.mp hl).1

/-- The last of some lines defines its label behind all the others. -/
theorem addLabels_concat (labels : Labels Nat (List UInt8)) (depth pc : Nat) (ls : List Line)
    (l : Line) :
    addLabels labels depth pc (ls ++ [l]) =
      if depthFrom depth ls = 0 then (addLabels labels depth pc ls).define l.name (pc + ls.length)
      else addLabels labels depth pc ls := by
  induction ls generalizing labels depth pc with
  | nil => rfl
  | cons l' rest ih =>
    rw [List.cons_append, addLabels, ih, List.length_cons, addLabels]
    have hpc : pc + 1 + rest.length = pc + (rest.length + 1) := by omega
    rw [hpc]
    rfl

/-- A line at which a label is visible takes the place of all those before it. -/
theorem lookup?_take_succ {name : List UInt8} (hname : name ≠ []) {n : Nat} (hn : n < p.size) :
    (addLabels .empty 0 0 (p.toList.take (n + 1))).lookup? name =
      if p.Visible name n then some n
      else (addLabels .empty 0 0 (p.toList.take n)).lookup? name := by
  have hl : p[n]? = some p[n] := Array.getElem?_eq_getElem hn
  have htake : p.toList.take (n + 1) = p.toList.take n ++ [p[n]] := by
    rw [List.take_add_one, Array.getElem?_toList, hl]
    rfl
  have hlength : (p.toList.take n).length = n := by
    rw [List.length_take, Array.length_toList]
    omega
  have hvisible : p.Visible name n ↔ p[n].name = name ∧ p.staticDepth n = 0 := by
    rw [visible_iff, hl, Option.map_some, Option.some_inj]
  have hdepth : depthFrom 0 (p.toList.take n) = p.staticDepth n := rfl
  rw [htake, addLabels_concat, hlength, Nat.zero_add, hdepth]
  by_cases hd : p.staticDepth n = 0
  · rw [if_pos hd, Labels.lookup?_define]
    by_cases hlabel : p[n].name = name
    · rw [if_pos (hvisible.mpr ⟨hlabel, hd⟩), hlabel, if_pos ⟨rfl, hname⟩]
    · rw [if_neg (fun h => hlabel (hvisible.mp h).1), if_neg (fun h => hlabel h.1.symm)]
  · rw [if_neg hd, if_neg (fun h => hd (hvisible.mp h).2)]

/-- The greatest of the numbers up to `n` that have a property. -/
theorem isGreatest_lt_succ (P : Nat → Prop) [DecidablePred P] (n k : Nat) :
    IsGreatest {i | i < n + 1 ∧ P i} k ↔
      if P n then k = n else IsGreatest {i | i < n ∧ P i} k := by
  by_cases hP : P n
  · have hgreatest : IsGreatest {i | i < n + 1 ∧ P i} n :=
      ⟨⟨Nat.lt_succ_self n, hP⟩, fun i hi => Nat.le_of_lt_succ hi.1⟩
    rw [if_pos hP]
    exact ⟨fun h => h.unique hgreatest, fun h => h ▸ hgreatest⟩
  · have hsame : {i | i < n + 1 ∧ P i} = {i | i < n ∧ P i} := by
      ext i
      constructor
      · rintro ⟨hi, hPi⟩
        have hne : i ≠ n := fun heq => hP (heq ▸ hPi)
        exact ⟨by omega, hPi⟩
      · rintro ⟨hi, hPi⟩
        exact ⟨by omega, hPi⟩
    rw [if_neg hP, hsame]

/-- Among the lines in front of `n`, a label leads to the last one at which it is visible. -/
theorem lookup?_take_iff {name : List UInt8} (hname : name ≠ []) {n position : Nat}
    (hn : n ≤ p.size) :
    (addLabels .empty 0 0 (p.toList.take n)).lookup? name = some position ↔
      IsGreatest {i | i < n ∧ p.Visible name i} position := by
  induction n with
  | zero =>
    constructor
    · intro h
      cases h
    · rintro ⟨⟨hlt, -⟩, -⟩
      exact absurd hlt (Nat.not_lt_zero _)
  | succ n ih =>
    rw [lookup?_take_succ hname hn, isGreatest_lt_succ, ← ih (Nat.le_of_lt hn)]
    split
    · rw [Option.some_inj, eq_comm]
    · exact Iff.rfl

/-- A label leads to the last line at which it is visible. -/
theorem lookup?_labels_iff {name : List UInt8} (hname : name ≠ []) {position : Nat} :
    p.labels.lookup? name = some position ↔ IsGreatest {i | p.Visible name i} position := by
  have hset : {i | i < p.size ∧ p.Visible name i} = {i | p.Visible name i} := by
    ext i
    exact ⟨fun h => h.2, fun h => ⟨h.lt_size, h⟩⟩
  have hall : p.toList.take p.size = p.toList := by
    rw [← Array.length_toList, List.take_length]
  rw [← hset, ← lookup?_take_iff hname (Nat.le_refl p.size), hall]
  rfl

/-- The empty text is no label. -/
theorem lookup?_labels_empty (p : Program) : p.labels.lookup? [] = none := by
  have hall : ∀ ls : List Line, (addLabels .empty 0 0 ls).lookup? [] = none := by
    intro ls
    induction ls using List.reverseRecOn with
    | nil => rfl
    | append_singleton ls l ih =>
      rw [addLabels_concat]
      split
      · rw [Labels.lookup?_define, if_neg (fun h => h.2 h.1.symm)]
        exact ih
      · exact ih
  exact hall p.toList

/-- A label that is found is visible where it leads. -/
theorem visible_of_lookup? {name : List UInt8} {position : Nat}
    (h : p.labels.lookup? name = some position) : p.Visible name position := by
  by_cases hname : name = []
  · subst hname
    rw [lookup?_labels_empty] at h
    cases h
  · exact ((lookup?_labels_iff hname).mp h).1

/-- The line at `last` ends the procedure that the line at `first` begins: it is the first one
behind it after which no more procedures are open than in front of it. -/
structure Matching (p : Program) (first last : Nat) : Prop where
  lt : first < last
  opens : ∃ l, p[first]? = some l ∧ l.opens = true
  closes : ∃ l, p[last]? = some l ∧ l.closes = true
  inside : ∀ i, first < i → i ≤ last → p.staticDepth first < p.staticDepth i
  back : p.staticDepth (last + 1) = p.staticDepth first

end Program

/-! ## Balanced bodies -/

/-- Some lines begin `d` procedures more than they end, and at no place have they ended more than
they have begun. -/
structure OpenBy (d : Nat) (ls : List Line) : Prop where
  total : ls.countP Line.opens = ls.countP Line.closes + d
  initial : ∀ ls', ls' <+: ls → ls'.countP Line.closes ≤ ls'.countP Line.opens

/-- A body ends all procedures that it begins, and no other. -/
def Program.Balanced (p : Program) : Prop := OpenBy 0 p.toList

theorem openBy_nil : OpenBy 0 [] := by
  constructor
  · rfl
  · intro ls' h
    rw [List.prefix_nil.mp h]
    exact Nat.le_refl 0

/-- A line more, unless it ends a procedure that the lines have not begun. -/
theorem OpenBy.concat {d : Nat} {ls : List Line} {l : Line} (h : OpenBy d ls)
    (hl : l.closes = true → 0 < d) : OpenBy (Program.depthAfter d l) (ls ++ [l]) := by
  have htotal := h.total
  -- what the line adds to the balance is what it does to the depth
  have hcount : (ls ++ [l]).countP Line.opens =
      (ls ++ [l]).countP Line.closes + Program.depthAfter d l := by
    rw [List.countP_append, List.countP_append, List.countP_singleton, List.countP_singleton]
    cases hc : l.closes with
    | true =>
      have hpos := hl hc
      rw [Program.depthAfter_of_closes d hc, Line.not_opens_of_closes hc]
      simp only [Bool.false_eq_true, if_false, if_true]
      omega
    | false =>
      cases ho : l.opens with
      | true =>
        rw [Program.depthAfter_of_opens d ho]
        simp only [Bool.false_eq_true, if_false, if_true]
        omega
      | false =>
        rw [Program.depthAfter_of_neither d ho hc]
        simp only [Bool.false_eq_true, if_false]
        omega
  constructor
  · exact hcount
  · intro ls' hpre
    rcases List.prefix_concat_iff.mp hpre with rfl | hpre
    · rw [hcount]
      exact Nat.le_add_right _ _
    · exact h.initial ls' hpre

/-- Where lines have never ended more procedures than they have begun, the depth behind them is the
difference. -/
theorem depthFrom_of_initial {ls : List Line}
    (h : ∀ ls', ls' <+: ls → ls'.countP Line.closes ≤ ls'.countP Line.opens) :
    OpenBy (Program.depthFrom 0 ls) ls := by
  induction ls using List.reverseRecOn with
  | nil => exact openBy_nil
  | append_singleton ls l ih =>
    have hopen := ih fun ls' hpre => h ls' (hpre.trans (List.prefix_append _ _))
    rw [Program.depthFrom_concat]
    apply hopen.concat
    intro hc
    -- with nothing open, the line would end one more than was begun
    have hall := h (ls ++ [l]) (List.prefix_refl _)
    have htotal := hopen.total
    rw [List.countP_append, List.countP_append, List.countP_singleton, List.countP_singleton, hc,
      Line.not_opens_of_closes hc] at hall
    simp only [Bool.false_eq_true, if_false, if_true] at hall
    omega

namespace Program.Balanced

variable {p : Program} {pc : Nat} {l : Line}

theorem openBy_take (h : p.Balanced) (pc : Nat) : OpenBy (p.staticDepth pc) (p.toList.take pc) := by
  apply depthFrom_of_initial
  intro ls' hpre
  exact h.initial ls' (hpre.trans (List.take_prefix _ _))

/-- At the end of a balanced body no procedure is open. -/
theorem staticDepth_end (h : p.Balanced) (hend : p[pc]? = none) : p.staticDepth pc = 0 := by
  have hopen := (h.openBy_take pc).total
  have htotal := h.total
  have hlen : p.toList.length ≤ pc := by simpa using hend
  rw [List.take_of_length_le hlen] at hopen
  omega

/-- Outside of all procedures a balanced body ends none. -/
theorem not_closes (h : p.Balanced) (hl : p[pc]? = some l) (hd : p.staticDepth pc = 0) :
    l.closes = false := by
  cases hc : l.closes with
  | false => rfl
  | true =>
    have hopen := (h.openBy_take pc).total
    have hnext := (h.openBy_take (pc + 1)).total
    rw [List.take_add_one, Array.getElem?_toList, hl, Option.toList_some, List.countP_append,
      List.countP_append, List.countP_singleton, List.countP_singleton, hc,
      Line.not_opens_of_closes hc] at hnext
    simp only [Bool.false_eq_true, if_false, if_true] at hnext
    omega

end Program.Balanced

end AddressCode
