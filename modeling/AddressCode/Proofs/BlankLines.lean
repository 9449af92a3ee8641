import AddressCode.Proofs.InsertedBlanks
import AddressCode.Proofs.LineByLine
import AddressCode.Proofs.Twins

/-!
# AddressCode.Proofs.BlankLines — blank lines do nothing

Lines of white space may be put anywhere into a program, into the bodies of its procedures as well
(`Program.Respaced`).  They shift the numbers of the other lines, and with them the positions of the
labels and all that is recorded, but they change nothing else.

* `Program.SamePlace` relates positions of two such texts: what comes behind them is the same, apart
  from blank lines.  Labels stand at the same places (`Program.labels_respaced`).
* `Machine.Respaced` relates two states, whose activations are at the same places.  A blank line
  leads from a state to one that is related to the same states (`Machine.Respaced.pass`), so that
  one run can catch up with the other one (`Machine.Respaced.catch_up`).
* At the same line, both take the same step (`Machine.Respaced.step`), and report the same with the
  number that the line has in its text.

`blank_lines_inert` puts this together for whole runs.
-/

namespace AddressCode

section Option

variable {α β α' β' : Type} {R : α → β → Prop} {o : Option α} {o' : Option β}

theorem optionRel_symm {S : β → α → Prop} (h : Option.Rel R o o') (hRS : ∀ a b, R a b → S b a) :
    Option.Rel S o' o := by
  cases h with
  | some hr => exact .some (hRS _ _ hr)
  | none => exact .none

theorem optionRel_map {S : α' → β' → Prop} {f : α → α'} {g : β → β'} (h : Option.Rel R o o')
    (hfg : ∀ a b, R a b → S (f a) (g b)) : Option.Rel S (o.map f) (o'.map g) := by
  cases h with
  | some hr => exact .some (hfg _ _ hr)
  | none => exact .none

end Option

/-! ## Blank lines -/

namespace Line

/-- Is there nothing in a line but white space? -/
def isBlank (l : Line) : Bool := Text.allBlank l.text

variable {l : Line}

theorem splitLabel_of_isBlank (h : l.isBlank = true) : splitLabel l.pieces = ([], l.pieces) := by
  refine splitLabel_of_no_colon fun hmem => ?_
  have hshown : ':' ∈ l.text.toList := by
    rw [text, Text.display, String.toList_ofList]
    exact List.mem_flatMap.mpr ⟨_, hmem, List.mem_singleton_self ':'⟩
  have hcolon : Text.isBlank ':' = true := List.all_eq_true.mp h ':' hshown
  exact absurd hcolon (by decide)

/-- A blank line has no label. -/
theorem name_of_isBlank (h : l.isBlank = true) : l.name = [] := by
  rw [name, l.label_eq, splitLabel_of_isBlank h]
  rfl

/-- A blank line does nothing. -/
theorem instr_of_isBlank (h : l.isBlank = true) : l.instr = .ok .noop := by
  have hread : ∀ source, readInstr source l.pieces = .ok .noop := fun source => if_pos h
  rw [l.instr_eq]
  simp only [classify, splitLabel_of_isBlank h, hread]
  rfl

theorem opens_of_isBlank (h : l.isBlank = true) : l.opens = false := by
  simp [opens, instr_of_isBlank h]

theorem closes_of_isBlank (h : l.isBlank = true) : l.closes = false := by
  simp [closes, instr_of_isBlank h]

end Line

/-! ## Texts that differ in blank lines -/

namespace Program

/-- The lines that are not blank. -/
def solid (ls : List Line) : List Line := ls.filter (!·.isBlank)

/-- Two programs are the same, apart from blank lines. -/
def Respaced (p p' : Program) : Prop := solid p'.toList = solid p.toList

/-- Behind the position `i` of a program and the position `j` of another one, the lines are the
same, apart from blank ones. -/
def SamePlace (p p' : Program) (i j : Nat) : Prop :=
  solid (p'.toList.drop j) = solid (p.toList.drop i)

/-- The line at `i` of a program is the line at `j` of another one, and it is not blank. -/
structure SameLine (p p' : Program) (i j : Nat) : Prop where
  place : SamePlace p p' i j
  line : ∃ l : Line, l.isBlank = false ∧ p[i]? = some l ∧ p'[j]? = some l

variable {p p' : Program} {i j : Nat} {l : Line} {ls blanks : List Line}

theorem solid_cons_blank (h : l.isBlank = true) : solid (l :: ls) = solid ls :=
  List.filter_cons_of_neg (by simp [h])

theorem solid_cons (h : l.isBlank = false) : solid (l :: ls) = l :: solid ls :=
  List.filter_cons_of_pos (by simp [h])

theorem solid_append (ls ls' : List Line) : solid (ls ++ ls') = solid ls ++ solid ls' :=
  List.filter_append ls ls'

theorem solid_blanks (h : ∀ l ∈ blanks, l.isBlank = true) : solid blanks = [] :=
  List.filter_eq_nil_iff.mpr fun l hl => by simp [h l hl]

/-- Lines whose first one that is not blank is `l` begin with blank lines, and `l` is next. -/
theorem eq_of_solid_cons {rest : List Line} (h : solid ls = l :: rest) :
    ∃ blanks ls', ls = blanks ++ l :: ls' ∧ (∀ b ∈ blanks, b.isBlank = true) ∧
      l.isBlank = false ∧ solid ls' = rest := by
  obtain ⟨blanks, ls', rfl, hblanks, hl, hrest⟩ := List.filter_eq_cons_iff.mp h
  exact ⟨blanks, ls', rfl, fun b hb => by simpa using hblanks b hb, by simpa using hl, hrest⟩

/-- Blank lines may be put in at any position. -/
theorem respaced_insert (ls : List Line) (i : Nat) (h : ∀ l ∈ blanks, l.isBlank = true) :
    Respaced ls.toArray (ls.take i ++ blanks ++ ls.drop i).toArray := by
  have hsplit : solid ls = solid (ls.take i) ++ solid (ls.drop i) := by
    rw [← solid_append, List.take_append_drop]
  simp only [Respaced, solid_append, solid_blanks h, List.append_nil, hsplit]

theorem drop_of_getElem? (h : p[i]? = some l) :
    p.toList.drop i = l :: p.toList.drop (i + 1) := by
  obtain ⟨hi, rfl⟩ := Array.getElem?_eq_some_iff.mp h
  exact List.drop_eq_getElem_cons hi

theorem getElem?_of_drop (h : p.toList.drop i = l :: ls) : p[i]? = some l := by
  rw [← Array.getElem?_toList, ← List.head?_drop, h]
  rfl

theorem drop_succ (h : p.toList.drop i = l :: ls) : p.toList.drop (i + 1) = ls := by
  rw [← List.tail_drop, h]
  rfl

theorem SamePlace.symm (h : SamePlace p p' i j) : SamePlace p' p j i := Eq.symm h

/-- Passing over a blank line leads to the same place. -/
theorem SamePlace.pass (h : SamePlace p p' i j) (hl : p[i]? = some l) (hblank : l.isBlank = true) :
    SamePlace p p' (i + 1) j := by
  unfold SamePlace at h ⊢
  rw [h, drop_of_getElem? hl, solid_cons_blank hblank]

theorem head?_solid (h : ∀ l ∈ p[i]?, l.isBlank = false) :
    (solid (p.toList.drop i)).head? = p[i]? := by
  cases hl : p[i]? with
  | some l =>
    rw [drop_of_getElem? hl, solid_cons (h l hl)]
    rfl
  | none =>
    rw [List.drop_eq_nil_of_le (by simpa using hl)]
    rfl

/-- At the same place, the next lines are the same, unless one of them is blank. -/
theorem SamePlace.line_eq (h : SamePlace p p' i j) (hi : ∀ l ∈ p[i]?, l.isBlank = false)
    (hj : ∀ l ∈ p'[j]?, l.isBlank = false) : p'[j]? = p[i]? := by
  rw [← head?_solid hi, ← head?_solid hj, h]

/-- Behind the same line is the same place. -/
theorem SameLine.succ (h : SameLine p p' i j) : SamePlace p p' (i + 1) (j + 1) := by
  obtain ⟨hplace, l, hl, hi, hj⟩ := h
  unfold SamePlace at hplace ⊢
  rw [drop_of_getElem? hi, drop_of_getElem? hj, solid_cons hl, solid_cons hl] at hplace
  exact (List.cons.inj hplace).2

/-! ## Labels -/

theorem depthAfter_of_isBlank (d : Nat) (h : l.isBlank = true) : depthAfter d l = d :=
  depthAfter_of_neither d (Line.opens_of_isBlank h) (Line.closes_of_isBlank h)

/-- A blank line adds no label. -/
theorem addLabels_cons_blank (t : Labels Nat (List UInt8)) (d pc : Nat) (h : l.isBlank = true) :
    addLabels t d pc (l :: ls) = addLabels t d (pc + 1) ls := by
  have hname : l.name = default := Line.name_of_isBlank h
  simp [addLabels, hname, Labels.define_default, depthAfter_of_isBlank d h]

theorem addLabels_blanks (t : Labels Nat (List UInt8)) (d pc : Nat)
    (h : ∀ l ∈ blanks, l.isBlank = true) :
    addLabels t d pc (blanks ++ ls) = addLabels t d (pc + blanks.length) ls := by
  induction blanks generalizing pc with
  | nil => rfl
  | cons b blanks ih =>
    obtain ⟨hb, hblanks⟩ := List.forall_mem_cons.mp h
    rw [List.cons_append, addLabels_cons_blank t d pc hb, ih _ hblanks, List.length_cons,
      Nat.add_assoc, Nat.add_comm 1]

/-- Both tables have the same labels, at the same places. -/
def SameLabels (p p' : Program) (t t' : Labels Nat (List UInt8)) : Prop :=
  ∀ label, Option.Rel (SamePlace p p') (t.lookup? label) (t'.lookup? label)

theorem SameLabels.define {t t' : Labels Nat (List UInt8)} (h : SameLabels p p' t t')
    (label : List UInt8) (hplace : SamePlace p p' i j) :
    SameLabels p p' (t.define label i) (t'.define label j) := by
  intro label'
  unfold Labels.define
  split
  · exact h label'
  · simp only [Labels.lookup?, Ordered.get?_insert]
    split
    · exact .some hplace
    · exact h label'

/-- The lines from the same place on add labels at the same places.  The induction goes along the
lines of the first text; the blank ones of the other text are passed over at once. -/
theorem SameLabels.addLabels {t t' : Labels Nat (List UInt8)} {d : Nat} {ls' : List Line}
    (h : SameLabels p p' t t') (hi : p.toList.drop i = ls) (hj : p'.toList.drop j = ls')
    (hsolid : solid ls' = solid ls) :
    SameLabels p p' (addLabels t d i ls) (addLabels t' d j ls') := by
  induction ls generalizing t t' d i j ls' with
  | nil =>
    have hblanks : ∀ l ∈ ls', l.isBlank = true := by
      intro l hl
      simpa using List.filter_eq_nil_iff.mp hsolid l hl
    have hnone : Program.addLabels t' d j ls' = t' := by
      rw [← List.append_nil ls', addLabels_blanks t' d j hblanks]
      rfl
    rw [hnone]
    exact h
  | cons l rest ih =>
    cases hl : l.isBlank with
    | true =>
      rw [addLabels_cons_blank t d i hl]
      rw [solid_cons_blank hl] at hsolid
      exact ih h (drop_succ hi) hj hsolid
    | false =>
      have hplace : SamePlace p p' i j := by
        unfold SamePlace
        rw [hi, hj, hsolid]
      rw [solid_cons hl] at hsolid
      obtain ⟨blanks, rest', rfl, hblanks, -, hrest⟩ := eq_of_solid_cons hsolid
      -- the line stands behind the blank lines
      have hj' : p'.toList.drop (j + blanks.length) = l :: rest' := by
        rw [← List.drop_drop, hj, List.drop_left]
      have hplace' : SamePlace p p' i (j + blanks.length) := by
        unfold SamePlace
        rw [hi, hj', solid_cons hl, solid_cons hl, hrest]
      rw [addLabels_blanks t' d j hblanks]
      unfold Program.addLabels
      refine ih ?_ (drop_succ hi) (drop_succ hj') hrest
      split
      · exact h.define l.name hplace'
      · exact h

/-- The labels of a program are at the same places. -/
theorem labels_respaced (h : Respaced p p') : SameLabels p p' p.labels p'.labels :=
  SameLabels.addLabels (fun _ => .none) List.drop_zero List.drop_zero h

end Program

/-! ## Procedures -/

/-- Two procedures are the same, apart from blank lines in their bodies. -/
structure Procedure.Respaced (q q' : Procedure) : Prop where
  name : q'.name = q.name
  arity : q'.arity = q.arity
  body : Program.Respaced q.body q'.body

theorem Procedure.Respaced.symm {q q' : Procedure} (h : q.Respaced q') : q'.Respaced q :=
  ⟨h.name.symm, h.arity.symm, h.body.symm⟩

/-- Two scopes define the same procedures, apart from blank lines. -/
def Scope.Respaced (s s' : Scope) : Prop :=
  ∀ name, Option.Rel Procedure.Respaced (s.find? name) (s'.find? name)

namespace Scope.Respaced

variable {s s' : Scope} {l : Line}

theorem symm (h : s.Respaced s') : s'.Respaced s :=
  fun name => optionRel_symm (h name) fun _ _ hq => hq.symm

theorem define (h : s.Respaced s') (q : Procedure) : (s.define q).Respaced (s'.define q) := by
  intro name
  simp only [Scope.find?_define]
  split
  · exact .some ⟨rfl, rfl, rfl⟩
  · exact h name

/-- Both record the same line. -/
theorem append (h : s.Respaced s') (proc : String) (l : Line) :
    (s.append proc l).Respaced (s'.append proc l) := by
  intro name
  simp only [Scope.find?_append]
  split
  · refine optionRel_map (h name) fun q q' hq => ⟨hq.name, hq.arity, ?_⟩
    have hbody := hq.body
    unfold Program.Respaced at hbody ⊢
    rw [Array.toList_push, Array.toList_push, Program.solid_append, Program.solid_append, hbody]
  · exact h name

/-- One of them records a blank line. -/
theorem append_blank (h : s.Respaced s') (proc : String) (hl : l.isBlank = true) :
    (s.append proc l).Respaced s' := by
  intro name
  simp only [Scope.find?_append]
  split
  · have hpush : ∀ q q' : Procedure, q.Respaced q' →
        Procedure.Respaced { q with body := q.body.push l } q' := by
      intro q q' hq
      refine ⟨hq.name, hq.arity, ?_⟩
      have hnil : Program.solid [l] = [] := Program.solid_blanks (by simpa using hl)
      have hbody := hq.body
      unfold Program.Respaced at hbody ⊢
      rw [Array.toList_push, Program.solid_append, hnil, List.append_nil, hbody]
    simpa using optionRel_map (g := id) (h name) hpush
  · exact h name

end Scope.Respaced

/-! ## Activations -/

/-- Two activations are at the same place of texts that differ in blank lines, and they have the
same variables, parameters and recording. -/
structure Activation.Respaced (a a' : Activation) : Prop where
  frame : a'.frame = a.frame
  scope : a.scope.Respaced a'.scope
  home : List.Forall₂ Scope.Respaced a.home a'.home
  program : Program.Respaced a.program a'.program
  labels : Program.SameLabels a.program a'.program a.labels a'.labels
  place : Program.SamePlace a.program a'.program a.pc a'.pc
  params : a'.params = a.params
  recording : a'.recording = a.recording
  result : a'.result = a.result

/-- Two activations are at the same line of such texts. -/
structure Activation.InStep (a a' : Activation) : Prop extends a.Respaced a' where
  line : Program.SameLine a.program a'.program a.pc a'.pc

/-- The positions of a jump are the same place, and the number that is printed is that of the line;
signals are the same otherwise. -/
inductive Signal.InStep (a a' : Activation) : Signal → Signal → Prop where
  | next : InStep a a' .next .next
  | jump {i j : Nat} (h : Program.SamePlace a.program a'.program i j) :
      InStep a a' (.jump i) (.jump j)
  | ret (v : Value) : InStep a a' (.ret v) (.ret v)
  | print (v : Value) : InStep a a' (.print v (a.pc + 1)) (.print v (a'.pc + 1))
  | fault (c : Cause) : InStep a a' (.fault c) (.fault c)

/-- Two effects leave activations in step. -/
inductive Effect.InStep : Effect → Effect → Prop where
  | signal {a a' : Activation} {sig sig' : Signal} (h : a.InStep a') (s : Store)
      (hsig : sig.InStep a a' sig') : InStep (.signal a s sig) (.signal a' s sig')
  | enter {a a' callee callee' : Activation} (h : a.InStep a')
      (hcallee : callee.Respaced callee') : InStep (.enter a callee) (.enter a' callee')
  | overflow : InStep .overflow .overflow

namespace Activation

variable {a a' : Activation} {s : Store} {l : Line} {limit : Nat}

theorem Respaced.symm (h : a.Respaced a') : a'.Respaced a := by
  refine ⟨h.frame.symm, h.scope.symm, ?_, h.program.symm, ?_, h.place.symm, h.params.symm,
    h.recording.symm, h.result.symm⟩
  · exact List.Forall₂.flip (h.home.imp fun _ _ hs => hs.symm)
  · exact fun label => optionRel_symm (h.labels label) fun _ _ hplace => hplace.symm

theorem Respaced.heap (h : a.Respaced a') : a'.heap = a.heap := congrArg Frame.heap h.frame

theorem Respaced.name (h : a.Respaced a') : a'.name = a.name := congrArg Frame.name h.frame

/-! ### Passing over a blank line -/

/-- What a blank line does: it is recorded, if there is a recording. -/
def pass (a : Activation) (l : Line) : Activation :=
  match a.recording with
  | some r => (a.record r l).advance
  | none => a.advance

theorem record_of_isBlank (r : Recording) (h : l.isBlank = true) :
    a.record r l = { a with recording := some r, scope := a.scope.append r.proc l } := by
  simp [record, Line.closes_of_isBlank h, Program.depthAfter_of_isBlank r.depth h]

theorem pass_program (a : Activation) (l : Line) : (a.pass l).program = a.program := by
  unfold pass record
  repeat' split
  all_goals rfl

theorem pass_pc (a : Activation) (l : Line) : (a.pass l).pc = a.pc + 1 := by
  unfold pass record
  repeat' split
  all_goals rfl

theorem Respaced.pass (h : a.Respaced a') (hl : a.program[a.pc]? = some l)
    (hblank : l.isBlank = true) : (a.pass l).Respaced a' := by
  have hplace := h.place.pass hl hblank
  unfold Activation.pass
  cases hr : a.recording with
  | none => exact { h with place := hplace }
  | some r =>
    simp only [record_of_isBlank r hblank]
    exact { h with
      place := hplace
      scope := h.scope.append_blank r.proc hblank
      recording := h.recording.trans hr }

/-! ### Taking the same line -/

namespace InStep

theorem advance (h : a.InStep a') : a.advance.Respaced a'.advance :=
  { h.toRespaced with place := h.line.succ }

theorem withHeap (h : a.InStep a') (g : Heap) : (a.withHeap g).InStep (a'.withHeap g) :=
  { h with frame := by simp [Activation.withHeap, h.frame] }

theorem withParams (h : a.InStep a') (ps : Params) :
    InStep { a with params := ps } { a' with params := ps } :=
  { h with params := rfl }

/-- Both begin to record a procedure. -/
theorem define (h : a.InStep a') (q : Procedure) (r : Option Recording) :
    InStep { a with scope := a.scope.define q, recording := r }
      { a' with scope := a'.scope.define q, recording := r } :=
  { h with scope := h.scope.define q, recording := rfl }

/-- The line that is recorded is the same. -/
theorem record (h : a.InStep a') (r : Recording) (l : Line) :
    (a.record r l).InStep (a'.record r l) := by
  unfold Activation.record
  split
  · exact { h with recording := rfl }
  · exact { h with recording := rfl, scope := h.scope.append r.proc l }

/-- A caller goes on behind its call. -/
theorem resume (h : a.InStep a') (result : String) (v : Option Value) :
    (Machine.resume a result v).Respaced (Machine.resume a' result v) := by
  unfold Machine.resume
  split
  · rw [h.heap]
    exact (h.withHeap _).advance
  · exact h.advance

end InStep

/-- The bodies of procedures that differ in blank lines begin at the same place. -/
theorem respaced_ofCall {q q' : Procedure} {home home' : List Scope} (depth : Nat)
    (hq : q.Respaced q') (hhome : List.Forall₂ Scope.Respaced home home') (args : List Value)
    (result : String) :
    (ofCall depth q home args result).Respaced (ofCall depth q' home' args result) where
  frame := by simp [ofCall, hq.name]
  scope _ := .none
  home := hhome
  program := hq.body
  labels := Program.labels_respaced hq.body
  place := hq.body
  params := rfl
  recording := rfl
  result := rfl

theorem inStep_call (h : a.InStep a') (proc : String) (count : Option Nat)
    (result : Option String) :
    Effect.InStep (a.call limit s proc count result) (a'.call limit s proc count result) := by
  have hfault : ∀ c, Effect.InStep (a.fault s c) (a'.fault s c) :=
    fun c => .signal h s (.fault c)
  have hscopes : List.Forall₂ Scope.Respaced a.scopes a'.scopes := .cons h.scope h.home
  have hfound := Scope.resolve?_rel (fun _ _ hs => hs proc) hscopes
  simp only [call_eq]
  generalize Scope.resolve? proc a.scopes = o, Scope.resolve? proc a'.scopes = o' at hfound ⊢
  cases hfound with
  | none => exact hfault _
  | @some r r' hr =>
    obtain ⟨hq, hhome⟩ := hr
    have hdepth : a'.frame.depth = a.frame.depth := congrArg Frame.depth h.frame
    simp only [hq.name, hq.arity, hdepth, h.params]
    split
    · exact hfault _
    · split
      · exact hfault _
      · split
        · exact hfault _
        · exact .enter (h.withParams _) (respaced_ofCall _ hq hhome _ _)

/-- At the same line, the same instruction has the same effect.  The induction follows the
conditions in front of the core. -/
theorem inStep_execute (h : a.InStep a') (ins : Instr) :
    Effect.InStep (a.execute limit s ins) (a'.execute limit s ins) := by
  have hfault : ∀ c, Effect.InStep (a.fault s c) (a'.fault s c) :=
    fun c => .signal h s (.fault c)
  induction ins with
  | noop => exact .signal h s .next
  | ifThen cond action ih =>
    simp only [execute, h.heap]
    split
    · exact hfault _
    · split
      · exact ih
      · exact .signal h s .next
  | print x | expression x =>
    simp only [execute, h.heap]
    split
    · exact hfault _
    · exact .signal h s (.print _)
  | ret x =>
    cases x with
    | none => exact .signal h s (.ret _)
    | some x =>
      simp only [execute, h.heap]
      split
      · exact hfault _
      · exact .signal h s (.ret _)
  | goto label =>
    simp only [execute]
    have hlabel := h.labels (Text.Utf8.encode label)
    generalize a.labels.lookup? (Text.Utf8.encode label) = o,
      a'.labels.lookup? (Text.Utf8.encode label) = o' at hlabel ⊢
    cases hlabel with
    | none => exact hfault _
    | some hplace => exact .signal h s (.jump hplace)
  | call proc count result => exact inStep_call h proc count result
  | param x =>
    simp only [execute, h.heap, h.params]
    split
    · exact hfault _
    · split
      · exact .overflow
      · exact .signal (h.withParams _) _ .next
  | beginFunc name arity =>
    exact .signal (h.define ⟨name, arity, #[]⟩ _) s .next
  | endFunc => exact hfault _
  | assign target x =>
    simp only [execute_assign, h.heap]
    split
    · exact hfault _
    · split
      · exact hfault _
      · exact .signal (h.withHeap _) _ .next

theorem inStep_effect (h : a.InStep a') (l : Line) :
    Effect.InStep (a.effect limit s l) (a'.effect limit s l) := by
  unfold effect
  split
  · exact .signal h s (.fault _)
  · exact inStep_execute h _

end Activation

/-! ## What is allNotices, and from which text -/

/-- A record without the number of its line. -/
def Record.unnumbered (r : Record) : Record := { r with line := 0 }

/-- A fault without the number of its line. -/
def Fault.unnumbered (f : Fault) : Fault := { f with line := 0 }

/-- A result without the number of the line of its fault. -/
def Result.unnumbered (r : Result) : Result := { r with fault := r.fault.map Fault.unnumbered }

/-- An outcome without the number of the line of its fault. -/
def Machine.Outcome.unnumbered : Machine.Outcome → Machine.Outcome
  | .finished r => .finished r.unnumbered
  | o => o

theorem Machine.unnumbered_eq_running {o : Machine.Outcome} :
    o.unnumbered = .running ↔ o = .running := by
  cases o <;> simp [Machine.Outcome.unnumbered]

/-- An event, and the text that its line belongs to. -/
structure Notice where
  event : Event
  text : Program

/-- Two notices are the same up to the number of the line, and both numbers belong to the same line
in two texts that differ in blank lines. -/
structure Notice.Respaced (r r' : Notice) : Prop where
  event : r'.event.onLine 0 = r.event.onLine 0
  text : Program.Respaced r.text r'.text
  line : ∃ i j : Nat, r.event.line = (i : Int) + 1 ∧ r'.event.line = (j : Int) + 1 ∧
    Program.SameLine r.text r'.text i j

theorem Notice.Respaced.symm {r r' : Notice} (h : r.Respaced r') : r'.Respaced r := by
  obtain ⟨hevent, htext, i, j, hi, hj, hplace, l, hl, hli, hlj⟩ := h
  exact ⟨hevent.symm, htext.symm, j, i, hj, hi, hplace.symm, l, hl, hlj, hli⟩

/-- Activations in step give the same notices from their lines. -/
theorem Activation.InStep.notice {a a' : Activation} {e e' : Event} (h : a.InStep a')
    (hsame : e'.onLine 0 = e.onLine 0) (he : e.line = (a.pc : Int) + 1)
    (he' : e'.line = (a'.pc : Int) + 1) : Notice.Respaced ⟨e, a.program⟩ ⟨e', a'.program⟩ :=
  ⟨hsame, h.program, a.pc, a'.pc, he, he', h.line⟩

namespace Machine

/-- The events of `m'` that are not yet among those of `m`.  The first one comes from the running
activation; a second one is the fault of its caller, who takes the failure of the receiver. -/
def notices (m m' : Machine) : List Notice :=
  (m'.events.toList.drop m.events.size).zipWith Notice.mk (m.activations.map (·.program))

/-- What is reported in up to `n` steps. -/
def allNotices (cfg : Config) (n : Nat) (m : Machine) : List Notice := m.collected notices cfg n

section Notices

variable {cfg : Config} {m m' : Machine}

theorem notices_of_silent (h : m'.events = m.events) : m.notices m' = [] := by
  simp [notices, h]

theorem notices_of_push {e : Event} (h : m'.events = m.events.push e) :
    m.notices m' = [⟨e, m.current.program⟩] := by
  simp [notices, activations, h]

theorem notices_of_push_push {e f : Event} {c : Activation} {rest : List Activation}
    (hc : m.callers = c :: rest) (h : m'.events = (m.events.push e).push f) :
    m.notices m' = [⟨e, m.current.program⟩, ⟨f, c.program⟩] := by
  simp [notices, activations, h, hc]

theorem delivers_of_silent (h : m'.events = m.events) :
    m.Delivers m' ((m.notices m').map (·.event)) := by
  simp [Delivers, notices_of_silent h, h]

theorem delivers_of_push {e : Event} (h : m'.events = m.events.push e) :
    m.Delivers m' ((m.notices m').map (·.event)) := by
  simp [Delivers, notices_of_push h, h]

/-- All events of a step are reported. -/
theorem delivers_notices (cfg : Config) (m : Machine) :
    m.Delivers (m.step cfg).state ((m.notices (m.step cfg).state).map (·.event)) := by
  have htakes := takes_step cfg m
  generalize m.step cfg = o at htakes
  cases htakes with
  | fallOff | finish | record | quiet | jump | enter | ret | finishWith | overflow =>
    exact delivers_of_silent rfl
  | fault | halt | print | escape => exact delivers_of_push rfl
  | sinkFault _ _ _ hc | sinkHalt _ _ _ hc =>
    rw [Delivers, notices_of_push_push hc rfl]
    simp [Step.state, advance, deliver, printed, unwind, backTo]

/-- The events of a run are what is reported. -/
theorem delivers_allNotices (cfg : Config) (n : Nat) (m : Machine) :
    m.Delivers (m.run cfg n).1 ((m.allNotices cfg n).map (·.event)) :=
  delivers_collected (delivers_notices cfg) n m

end Notices

/-! ## States -/

/-- A signal other than to go on is handled in the state of the line. -/
theorem step_of_signal {cfg : Config} {m : Machine} {l : Line} {a : Activation} {s : Store}
    {sig : Signal} (hl : m.At l) (he : m.effect cfg l = .signal a s sig) (hsig : sig ≠ .next) :
    m.step cfg = handle cfg m sig := by
  obtain ⟨rfl, rfl⟩ := eq_of_signal he hsig
  rw [step_at cfg hl, he]

/-- The line that the next step takes, if there is one. -/
def line? (m : Machine) : Option Line := m.current.program[m.current.pc]?

/-- What a blank line does. -/
def pass (m : Machine) (l : Line) : Machine := { m with current := m.current.pass l }

theorem notices_pass (m : Machine) (l : Line) : m.notices (m.pass l) = [] :=
  notices_of_silent rfl

theorem step_of_isBlank (cfg : Config) {m : Machine} {l : Line} (hl : m.line? = some l)
    (hblank : l.isBlank = true) : m.step cfg = .next (m.pass l) := by
  unfold line? at hl
  simp only [step, hl, stepLine, pass, Activation.pass]
  cases m.current.recording with
  | some r => rfl
  | none =>
    rw [Line.instr_of_isBlank hblank]
    rfl

/-- Two states whose activations are at the same places of texts that differ in blank lines. -/
structure Respaced (m m' : Machine) : Prop where
  current : m.current.Respaced m'.current
  callers : List.Forall₂ Activation.InStep m.callers m'.callers
  store : m'.store = m.store
  log : m'.log.map Record.unnumbered = m.log.map Record.unnumbered
  delivered : m'.delivered = m.delivered

/-- Two steps from `m` and `m'` report the same, and lead to related states or end in the same way,
up to the numbers of lines. -/
inductive StepRespaced (m m' : Machine) : Step → Step → Prop where
  | next {m₁ m₁' : Machine} (h : m₁.Respaced m₁')
      (hr : List.Forall₂ Notice.Respaced (m.notices m₁) (m'.notices m₁')) :
      StepRespaced m m' (.next m₁) (.next m₁')
  | done {m₁ m₁' : Machine} {r r' : Result} (h : m₁.Respaced m₁')
      (hr : List.Forall₂ Notice.Respaced (m.notices m₁) (m'.notices m₁'))
      (hresult : r'.unnumbered = r.unnumbered) : StepRespaced m m' (.done m₁ r) (.done m₁' r')
  | escaped {m₁ m₁' : Machine} {message : String} (h : m₁.Respaced m₁')
      (hr : List.Forall₂ Notice.Respaced (m.notices m₁) (m'.notices m₁')) :
      StepRespaced m m' (.escaped m₁ message) (.escaped m₁' message)
  | aborted {m₁ m₁' : Machine} (h : m₁.Respaced m₁')
      (hr : List.Forall₂ Notice.Respaced (m.notices m₁) (m'.notices m₁')) :
      StepRespaced m m' (.aborted m₁) (.aborted m₁')

namespace Respaced

variable {cfg : Config} {m m' base base' m₁ m₁' : Machine} {l : Line}

theorem silent (h : m₁.events = m.events) (h' : m₁'.events = m'.events) :
    List.Forall₂ Notice.Respaced (m.notices m₁) (m'.notices m₁') := by
  rw [notices_of_silent h, notices_of_silent h']
  exact .nil

theorem bottom (h : m.Respaced m') : m.bottom.Respaced m'.bottom := by
  have hlast : ∀ {as as' : List Activation} {a a' : Activation},
      List.Forall₂ Activation.InStep as as' → a.Respaced a' →
        (as.getLast?.getD a).Respaced (as'.getLast?.getD a') := by
    intro as as' a a' has
    induction has generalizing a a' with
    | nil => exact fun ha => ha
    | cons hfirst _ ih =>
      rw [List.getLast?_cons, List.getLast?_cons]
      exact fun _ => ih hfirst.toRespaced
  exact hlast h.callers h.current

theorem unwind (h : m.Respaced m') : m.unwind.Respaced m'.unwind :=
  { h with current := h.bottom, callers := .nil }

/-- A fault of lines in step, after `base` and `base'` may have reported something. -/
theorem raise (h : m.Respaced m') (hcur : m.current.InStep m'.current) (c : Cause)
    (hr : List.Forall₂ Notice.Respaced (base.notices (m.deliver (.faulted (m.faultOf c))))
      (base'.notices (m'.deliver (.faulted (m'.faultOf c))))) :
    StepRespaced base base' (m.raise cfg c) (m'.raise cfg c) := by
  rw [raise_eq, raise_eq]
  split
  · have hname := h.current.name
    refine .done (unwind ?_) hr ?_
    · exact { h with }
    · simp [Result.unnumbered, Fault.unnumbered, faultOf, hname]
  · exact .next { h with current := hcur.advance } hr

/-- Both are at the top level, or both have a caller to go back to. -/
theorem callers_cases (h : m.Respaced m') :
    (m.callers = [] ∧ m'.callers = []) ∨ ∃ c rest c' rest', m.callers = c :: rest ∧
      m'.callers = c' :: rest' ∧ c.InStep c' ∧ List.Forall₂ Activation.InStep rest rest' := by
  have hcallers := h.callers
  generalize m.callers = as, m'.callers = as' at hcallers ⊢
  cases hcallers with
  | nil => exact Or.inl ⟨rfl, rfl⟩
  | cons hcaller hrest => exact Or.inr ⟨_, _, _, _, rfl, rfl, hcaller, hrest⟩

/-- The end of an activation, with the same value or without one. -/
theorem leave (h : m.Respaced m') (v : Option Value) :
    StepRespaced m m' (m.leave v) (m'.leave v) := by
  unfold Machine.leave
  rcases h.callers_cases with ⟨hc, hc'⟩ | ⟨c, rest, c', rest', hc, hc', hcaller, hrest⟩
  · rw [hc, hc']
    exact .done h (silent rfl rfl) rfl
  · rw [hc, hc']
    refine .next { h with current := ?_, callers := hrest } (silent rfl rfl)
    rw [h.current.result]
    exact hcaller.resume _ v

/-- A record from lines in step. -/
theorem emit (h : m.Respaced m') (hcur : m.current.InStep m'.current) (v : Value) :
    StepRespaced m m' (m.emit cfg v (m.current.pc + 1)) (m'.emit cfg v (m'.current.pc + 1)) := by
  have hname := h.current.name
  have hprinted : (m.printed v (m.current.pc + 1)).Respaced
      (m'.printed v (m'.current.pc + 1)) := by
    refine { h with log := ?_, delivered := congrArg (· + 1) h.delivered }
    simp [printed, h.log, Record.unnumbered, hname]
  have hnotice : Notice.Respaced
      ⟨.printed ⟨v, m.current.pc + 1, m.current.name⟩ (m.store.text? v), m.current.program⟩
      ⟨.printed ⟨v, m'.current.pc + 1, m'.current.name⟩ (m'.store.text? v),
        m'.current.program⟩ :=
    hcur.notice (by simp [Event.onLine, hname, h.store]) rfl rfl
  have hone : ∀ {m₁ m₁' : Machine}, m₁.events = (m.printed v (m.current.pc + 1)).events →
      m₁'.events = (m'.printed v (m'.current.pc + 1)).events →
        List.Forall₂ Notice.Respaced (m.notices m₁) (m'.notices m₁') := by
    intro m₁ m₁' hm hm'
    rw [notices_of_push hm, notices_of_push hm']
    exact .cons hnotice .nil
  rw [emit_eq, emit_eq, h.delivered]
  split
  · exact .next { hprinted with current := hcur.advance } (hone rfl rfl)
  · rcases h.callers_cases with ⟨hc, hc'⟩ | ⟨c, rest, c', rest', hc, hc', hcaller, hrest⟩
    · rw [hc, hc']
      exact .escaped hprinted (hone rfl rfl)
    · rw [hc, hc']
      simp only
      split
      · exact .escaped hprinted.unwind (hone rfl rfl)
      · -- the fault is one of the callers, who are at the same line as well
        have hback : ((m.printed v (m.current.pc + 1)).backTo c rest).Respaced
            ((m'.printed v (m'.current.pc + 1)).backTo c' rest') :=
          { hprinted with current := hcaller.toRespaced, callers := hrest }
        refine hback.raise hcaller _ ?_
        rw [notices_of_push_push hc rfl, notices_of_push_push hc' rfl]
        refine .cons hnotice (.cons (hcaller.notice ?_ rfl rfl) .nil)
        simp [Event.onLine, faultOf, backTo, hcaller.name]

/-- Both carry out the same line. -/
theorem step_at (h : m.Respaced m') (hcur : m.current.InStep m'.current) (hl : m.At l)
    (hl' : m'.At l) : StepRespaced m m' (m.step cfg) (m'.step cfg) := by
  have heff : Effect.InStep (m.effect cfg l) (m'.effect cfg l) := by
    unfold effect
    rw [h.store]
    exact Activation.inStep_effect hcur l
  generalize he : m.effect cfg l = o, he' : m'.effect cfg l = o' at heff
  cases heff with
  | overflow =>
    rw [Machine.step_at cfg hl, Machine.step_at cfg hl', he, he']
    exact .aborted h (silent rfl rfl)
  | enter ha hcallee =>
    rw [Machine.step_at cfg hl, Machine.step_at cfg hl', he, he']
    exact .next { h with current := hcallee, callers := .cons ha h.callers } (silent rfl rfl)
  | signal ha s hsig =>
    cases hsig with
    | next =>
      rw [Machine.step_at cfg hl, Machine.step_at cfg hl', he, he']
      exact .next { h with current := ha.advance, store := rfl } (silent rfl rfl)
    | jump hplace =>
      obtain ⟨rfl, -⟩ := eq_of_signal he (by simp)
      obtain ⟨rfl, -⟩ := eq_of_signal he' (by simp)
      rw [step_of_signal hl he (by simp), step_of_signal hl' he' (by simp)]
      exact .next { h with current := { h.current with place := hplace } } (silent rfl rfl)
    | ret v =>
      rw [step_of_signal hl he (by simp), step_of_signal hl' he' (by simp)]
      exact h.leave (some v)
    | print v =>
      obtain ⟨rfl, -⟩ := eq_of_signal he (by simp)
      obtain ⟨rfl, -⟩ := eq_of_signal he' (by simp)
      rw [step_of_signal hl he (by simp), step_of_signal hl' he' (by simp)]
      exact h.emit hcur v
    | fault c =>
      rw [step_of_signal hl he (by simp), step_of_signal hl' he' (by simp)]
      refine h.raise hcur c ?_
      rw [notices_of_push rfl, notices_of_push rfl]
      refine .cons (hcur.notice ?_ rfl rfl) .nil
      simp [Event.onLine, faultOf, h.current.name]

/-- At the same line, or at the end of both texts, both take the same step. -/
theorem step (h : m.Respaced m') (hline : m'.line? = m.line?)
    (hsolid : ∀ l ∈ m.line?, l.isBlank = false) :
    StepRespaced m m' (m.step cfg) (m'.step cfg) := by
  unfold line? at hline hsolid
  cases hl : m.current.program[m.current.pc]? with
  | none =>
    rw [hl] at hline
    simp only [Machine.step, hl, hline]
    exact h.leave none
  | some l =>
    have hl' : m'.current.program[m'.current.pc]? = some l := hline.trans hl
    have hcur : m.current.InStep m'.current :=
      { h.current with line := ⟨h.current.place, l, hsolid l hl, hl, hl'⟩ }
    cases hr : m.current.recording with
    | some r =>
      have hr' : m'.current.recording = some r := h.current.recording.trans hr
      simp only [Machine.step, hl, hl', stepLine, hr, hr']
      exact .next { h with current := (hcur.record r l).advance } (silent rfl rfl)
    | none => exact h.step_at hcur ⟨hl, hr⟩ ⟨hl', h.current.recording.trans hr⟩

/-! ### Catching up -/

/-- Passing over a blank line leads to a state that is related to the same states. -/
theorem pass (h : m.Respaced m') (hl : m.line? = some l) (hblank : l.isBlank = true) :
    (m.pass l).Respaced m' :=
  { h with current := h.current.pass hl hblank }

theorem pass_right (h : m.Respaced m') (hl : m'.line? = some l) (hblank : l.isBlank = true) :
    m.Respaced (m'.pass l) :=
  { h with current := (h.current.symm.pass hl hblank).symm }

theorem line?_eq (h : m.Respaced m') (hm : ∀ l ∈ m.line?, l.isBlank = false)
    (hm' : ∀ l ∈ m'.line?, l.isBlank = false) : m'.line? = m.line? :=
  h.current.place.line_eq hm hm'

/-- A state that is about to take a line that is not blank, or is at the end of its text, waits for
the other one, which passes over the blank lines in front of that place and reports nothing.  The
induction goes along the lines that the other one has in front of it. -/
theorem catch_up (h : m.Respaced m') (hsolid : ∀ l ∈ m.line?, l.isBlank = false) (cfg : Config) :
    ∃ k m₁', m'.run cfg k = (m₁', .running) ∧ m'.allNotices cfg k = [] ∧ m.Respaced m₁' ∧
      m₁'.line? = m.line? := by
  generalize hls : m'.current.program.toList.drop m'.current.pc = ls
  induction ls generalizing m' with
  | nil =>
    have hend : m'.line? = none := by
      unfold line?
      rw [← Array.getElem?_toList, ← List.head?_drop, hls]
      rfl
    exact ⟨0, m', rfl, rfl, h, h.line?_eq hsolid (by simp [hend])⟩
  | cons l rest ih =>
    have hl : m'.line? = some l := Program.getElem?_of_drop hls
    cases hblank : l.isBlank with
    | true =>
      have hrest : (m'.pass l).current.program.toList.drop (m'.pass l).current.pc = rest := by
        show (m'.current.pass l).program.toList.drop (m'.current.pass l).pc = rest
        rw [Activation.pass_program, Activation.pass_pc]
        exact Program.drop_succ hls
      obtain ⟨k, m₁', hrun, hrep, hrel, hline⟩ := ih (h.pass_right hl hblank) hrest
      refine ⟨k + 1, m₁', ?_, ?_, hrel, hline⟩
      · simp only [Machine.run, step_of_isBlank cfg hl hblank, hrun]
      · rw [allNotices] at hrep
        simp only [allNotices, collected, step_of_isBlank cfg hl hblank, Step.state, notices_pass,
          hrep, List.append_nil]
    | false => exact ⟨0, m', rfl, rfl, h, h.line?_eq hsolid (by simp [hl, hblank])⟩

/-! ### Runs -/

/-- A run is followed by the other one. -/
theorem run (h : m.Respaced m') (cfg : Config) (n : Nat) :
    ∃ n', (m.run cfg n).1.Respaced (m'.run cfg n').1 ∧
      (m'.run cfg n').2.unnumbered = (m.run cfg n).2.unnumbered ∧
      List.Forall₂ Notice.Respaced (m.allNotices cfg n) (m'.allNotices cfg n') := by
  induction n generalizing m m' with
  | zero => exact ⟨0, h, rfl, .nil⟩
  | succ n ih =>
    by_cases hsolid : ∀ l ∈ m.line?, l.isBlank = false
    · obtain ⟨k, m₁', hrun, hrep, hrel, hline⟩ := h.catch_up hsolid cfg
      have hstep : StepRespaced m m₁' (m.step cfg) (m₁'.step cfg) := hrel.step hline hsolid
      have hrunning : (m'.run cfg k).2 = .running := by rw [hrun]
      -- the other run goes on from the same line
      have hgo : ∀ n', m'.run cfg (k + n') = m₁'.run cfg n' := by
        intro n'
        rw [run_add hrunning, hrun]
      have hnotice : ∀ n', m'.allNotices cfg (k + n') = m₁'.allNotices cfg n' := by
        intro n'
        rw [allNotices, collected_add hrunning, ← allNotices, hrep, hrun, List.nil_append,
          ← allNotices]
      generalize hs : m.step cfg = o, hs' : m₁'.step cfg = o' at hstep
      cases hstep with
      | next hnext hr =>
        obtain ⟨n', hstate, hout, hrest⟩ := ih hnext
        refine ⟨k + (n' + 1), ?_⟩
        rw [hgo, hnotice]
        simp only [Machine.run, allNotices, collected, hs, hs', Step.state]
        exact ⟨hstate, hout, List.rel_append hr hrest⟩
      | done hend hr hresult =>
        refine ⟨k + 1, ?_⟩
        rw [hgo, hnotice]
        simp only [Machine.run, allNotices, collected, hs, hs', Step.state, List.append_nil]
        exact ⟨hend, congrArg Outcome.finished hresult, hr⟩
      | escaped hend hr | aborted hend hr =>
        refine ⟨k + 1, ?_⟩
        rw [hgo, hnotice]
        simp only [Machine.run, allNotices, collected, hs, hs', Step.state, List.append_nil]
        exact ⟨hend, trivial, hr⟩
    · -- the other run waits while this one passes over a blank line
      simp only [not_forall, Bool.not_eq_false] at hsolid
      obtain ⟨l, hl, hblank⟩ := hsolid
      obtain ⟨n', hstate, hout, hrest⟩ := ih (h.pass hl hblank)
      refine ⟨n', ?_⟩
      simp only [Machine.run, allNotices, collected, step_of_isBlank cfg hl hblank, Step.state,
        notices_pass, List.nil_append]
      exact ⟨hstate, hout, hrest⟩

end Respaced

end Machine

/-! ## Runs of programs that differ in blank lines -/

namespace Engine

/-- What the run of a program reports in `n` steps. -/
def notices (e : Engine) (p : Program) (inputs : List Number) (n : Nat) : List Notice :=
  (((e.load p).reset.bind inputs).start p).allNotices e.config n

/-- The run of `p` comes in `n` steps to the same as the run of `p'` in `n'` steps: they have
reported the same, have the same variables, arrays, pending parameters and recording, and the same
records and procedures, apart from the numbers of lines and from blank lines; and they have come to
the same end, or are both still running. -/
structure SameRun (e : Engine) (inputs : List Number) (p p' : Program) (n n' : Nat) : Prop where
  outcome : (e.run p' inputs n').2.unnumbered = (e.run p inputs n).2.unnumbered
  notices : List.Forall₂ Notice.Respaced (e.notices p inputs n) (e.notices p' inputs n')
  output : (e.run p' inputs n').1.output.map Record.unnumbered =
    (e.run p inputs n).1.output.map Record.unnumbered
  heap : (e.run p' inputs n').1.heap = (e.run p inputs n).1.heap
  store : (e.run p' inputs n').1.machine.store = (e.run p inputs n).1.machine.store
  params : (e.run p' inputs n').1.machine.current.params =
    (e.run p inputs n).1.machine.current.params
  recording : (e.run p' inputs n').1.machine.current.recording =
    (e.run p inputs n).1.machine.current.recording
  procedures : (e.run p inputs n).1.procedures.Respaced (e.run p' inputs n').1.procedures

variable {e : Engine} {p p' : Program} {inputs : List Number} {n n' : Nat}

theorem SameRun.symm (h : e.SameRun inputs p p' n n') : e.SameRun inputs p' p n' n :=
  ⟨h.outcome.symm, List.Forall₂.flip (h.notices.imp fun _ _ hr => hr.symm), h.output.symm,
    h.heap.symm, h.store.symm, h.params.symm, h.recording.symm, h.procedures.symm⟩

theorem SameRun.running_iff (h : e.SameRun inputs p p' n n') :
    (e.run p' inputs n').2 = .running ↔ (e.run p inputs n).2 = .running := by
  rw [← Machine.unnumbered_eq_running, h.outcome, Machine.unnumbered_eq_running]

/-- What a run reports are the events that it delivers. -/
theorem events_run (e : Engine) (p : Program) (inputs : List Number) (n : Nat) :
    (e.run p inputs n).1.machine.events.toList = (e.notices p inputs n).map (·.event) := by
  have hdelivers := Machine.delivers_allNotices e.config n (((e.load p).reset.bind inputs).start p)
  exact hdelivers

theorem sameRun_of_respaced (e : Engine) (inputs : List Number) (h : Program.Respaced p p')
    (n : Nat) : ∃ n', e.SameRun inputs p p' n n' := by
  have hstart : (((e.load p).reset.bind inputs).start p).Respaced
      (((e.load p').reset.bind inputs).start p') := by
    refine ⟨?_, .nil, rfl, rfl, rfl⟩
    exact ⟨rfl, fun _ => .none, .nil, h, Program.labels_respaced h, h, rfl, rfl, rfl⟩
  obtain ⟨n', hstate, houtcome, hnotices⟩ := hstart.run e.config n
  exact ⟨n', houtcome, hnotices, hstate.log, hstate.current.heap, hstate.store,
    hstate.current.params, hstate.current.recording, hstate.current.scope⟩

/-- Blank lines do nothing.  If two programs are the same, apart from blank lines, then whatever
one of them has come to in some steps, the other one comes to in some number of steps as well, so
that one ends if and only if the other one does.  What a run reports is what it delivers. -/
theorem blank_lines_inert (e : Engine) (inputs : List Number) (h : Program.Respaced p p') :
    (∀ n, ∃ n', e.SameRun inputs p p' n n') ∧ (∀ n', ∃ n, e.SameRun inputs p p' n n') ∧
      ((∃ n, (e.run p inputs n).2 ≠ .running) ↔ ∃ n', (e.run p' inputs n').2 ≠ .running) ∧
      ∀ q n, (e.run q inputs n).1.machine.events.toList =
        (e.notices q inputs n).map (·.event) := by
  have hfirst := sameRun_of_respaced e inputs h
  have hsecond : ∀ n', ∃ n, e.SameRun inputs p p' n n' := by
    intro n'
    obtain ⟨n, hsame⟩ := sameRun_of_respaced e inputs h.symm n'
    exact ⟨n, hsame.symm⟩
  refine ⟨hfirst, hsecond, ?_, fun q n => events_run e q inputs n⟩
  constructor
  · rintro ⟨n, hn⟩
    obtain ⟨n', hsame⟩ := hfirst n
    exact ⟨n', fun hn' => hn (hsame.running_iff.mp hn')⟩
  · rintro ⟨n', hn'⟩
    obtain ⟨n, hsame⟩ := hsecond n'
    exact ⟨n, fun hn => hn' (hsame.running_iff.mpr hn)⟩

/-- A run comes to one end only. -/
theorem run_eq_of_ended (h : (e.run p inputs n).2 ≠ .running)
    (h' : (e.run p inputs n').2 ≠ .running) : e.run p inputs n = e.run p inputs n' := by
  have hstop := Machine.run_of_le (Nat.le_max_left n n') h
  have hstop' := Machine.run_of_le (Nat.le_max_right n n') h'
  have hrun := hstop.symm.trans hstop'
  unfold run exec execute
  rw [hrun]

/-- A procedure that jumps and fails, and a call of it. -/
def failingCall : List Line :=
  ["BeginFunc f, 0", "goto last", "print 1", "last: print x", "EndFunc", "call f, 0"].map
    Line.ofString

/-- The same with two blank lines in the body of the procedure. -/
def spacedCall : List Line :=
  failingCall.take 2 ++ ["", " \t"].map Line.ofString ++ failingCall.drop 2

/-- The fault of the procedure in the line with the given number. -/
def failsInLine (line : Int) : Event := .faulted ⟨.unknownVariable (.variable "x"), line, "f"⟩

/-- The call still ends with the one fault, which is now in the fifth line of the body. -/
theorem blank_lines_inert_failingCall :
    ((Engine.new {}).run failingCall.toArray [] 10).1.machine.events = #[failsInLine 3] ∧
      ∃ n', (Engine.new {}).SameRun [] failingCall.toArray spacedCall.toArray 10 n' ∧
        ((Engine.new {}).run spacedCall.toArray [] n').2 ≠ .running ∧
        ((Engine.new {}).run spacedCall.toArray [] n').1.machine.events = #[failsInLine 5] := by
  have hblanks : ∀ l ∈ ["", " \t"].map Line.ofString, l.isBlank = true := by
    decide +kernel
  have hfacts : ((Engine.new {}).run failingCall.toArray [] 10).2 ≠ .running ∧
      ((Engine.new {}).run failingCall.toArray [] 10).1.machine.events = #[failsInLine 3] ∧
      ((Engine.new {}).run spacedCall.toArray [] 12).2 ≠ .running ∧
      ((Engine.new {}).run spacedCall.toArray [] 12).1.machine.events = #[failsInLine 5] := by
    decide +kernel
  obtain ⟨hend, hevents, hend', hevents'⟩ := hfacts
  have hspaced : Program.Respaced failingCall.toArray spacedCall.toArray :=
    Program.respaced_insert failingCall 2 hblanks
  obtain ⟨hsame, -⟩ := blank_lines_inert (.new {}) [] hspaced
  obtain ⟨n', hn'⟩ := hsame 10
  have hstop : ((Engine.new {}).run spacedCall.toArray [] n').2 ≠ .running :=
    fun hrunning => hend (hn'.running_iff.mp hrunning)
  refine ⟨hevents, n', hn', hstop, ?_⟩
  rw [run_eq_of_ended hstop hend', hevents']

end Engine

end AddressCode
