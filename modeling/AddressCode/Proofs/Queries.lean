import AddressCode.Proofs.History
import AddressCode.Proofs.LineByLine

/-!
# AddressCode.Proofs.Queries — asking for a value and running a line

There are two ways to the value of an expression: asking for it, which evaluates it at the top level
and runs nothing, and running it as a line, which prints it.  They agree
(`get_agrees_with_runLine`): the value that is got is the one that is printed, a fault that is got
is the one that is reported, and neither way leaves anything behind but the record in the log.

`get_of_expression` says what asking comes to, `delivers_of_print` and `delivers_of_fault` what a
line comes to that prints or is a fault, whether faults halt a run or not.
-/

namespace AddressCode.Engine

open Machine

variable {e : Engine} {text : List Text.Piece} {st : Statement} {x : Expr}

/-! ## Asking -/

/-- Asking for an expression is evaluating it at the top level. -/
theorem get_of_expression (h : classify text = .ok st)
    (hx : st.instr = .expression x) :
    e.get text = (x.eval e.machine.current.heap e.machine.store).mapError .fault := by
  obtain ⟨label, ins, source⟩ := st
  obtain rfl : ins = .expression x := hx
  simp only [get, h]
  cases x.eval e.machine.current.heap e.machine.store with
  | ok v => rfl
  | error c => rfl

/-- There is no fault in asking for what is no expression. -/
theorem get_of_not_expression
    (h : ∀ st x, classify text = .ok st → st.instr ≠ .expression x) :
    ∃ err, e.get text = .error err ∧ ∀ c, err ≠ .fault c := by
  unfold get
  split
  · exact ⟨_, rfl, nofun⟩
  · rename_i hst
    exact absurd rfl (h _ _ hst)
  · exact ⟨_, rfl, nofun⟩

/-! ## Running a line -/

/-- The state in which an engine starts a line, with no inputs. -/
def lineStart (e : Engine) (text : List Text.Piece) : Machine :=
  (e.bind []).start #[.ofPieces text]

/-- The line is the first one, and it is at the top level. -/
theorem at_lineStart (hquiet : e.machine.current.recording = none) :
    (e.lineStart text).At (.ofPieces text) :=
  ⟨rfl, hquiet⟩

/-- What an expression does as a line. -/
theorem effect_lineStart (h : classify text = .ok st)
    (hx : st.instr = .expression x) :
    (e.lineStart text).effect e.config (.ofPieces text) =
      .signal (e.lineStart text).current (e.lineStart text).store
        (match x.eval e.machine.current.heap e.machine.store with
          | .ok v => .print v 1
          | .error c => .fault c) := by
  have hinstr : (Line.ofPieces text).instr = .ok (.expression x) := by
    rw [Line.instr_eq]
    change (classify text).map (·.instr) = _
    rw [h, ← hx]
    rfl
  have heval : x.eval (e.lineStart text).current.heap (e.lineStart text).store =
      x.eval e.machine.current.heap e.machine.store := rfl
  simp only [Machine.effect, Activation.effect, hinstr, Activation.execute, heval]
  cases x.eval e.machine.current.heap e.machine.store with
  | ok v => rfl
  | error c => rfl

/-- Running the line comes to its end, however many more steps it is given, with the engine `e'`.
It has delivered the event `ev` and nothing else, its log is `log`, and the top level, the arrays
and the loaded program are as they were. -/
structure Delivers (e : Engine) (text : List Text.Piece) (ev : Event) (log : Log)
    (e' : Engine) : Prop where
  run : ∃ r, ∀ n ≥ 2, e.runLine text [] false n = (e', .finished r)
  events : e'.machine.events = #[ev]
  output : e'.output = log
  same : SameTop e.machine e'.machine
  program : e'.program = e.program

/-- At the top level the bottom of the stack is all there is. -/
theorem bottom_of_callers {m : Machine} (h : m.callers = []) : m.bottom = m.current := by
  simp [bottom, h]

/-- A line that changes nothing but what was delivered leaves the top level as it is. -/
theorem delivers_of_run (m' : Machine) (pc : Nat) {r : Result} {k : Nat} {ev : Event} (hk : k ≤ 2)
    (hrun : (e.lineStart text).run e.config k = (m', .finished r))
    (hcallers : e.machine.callers = []) (hcallers' : m'.callers = [])
    (hstore : m'.store = e.machine.store)
    (hcur : m'.current = { (e.lineStart text).current with pc := pc })
    (hevents : m'.events = #[ev]) : e.Delivers text ev m'.log { e with machine := m' } := by
  constructor
  case run =>
    refine ⟨r, fun n hn => ?_⟩
    have hall : (e.lineStart text).run e.config n = (m', .finished r) := by
      rw [run_of_le (hk.trans hn) (by simp [hrun]), hrun]
    show ({ e with machine := ((e.lineStart text).run e.config n).1 },
      ((e.lineStart text).run e.config n).2) = _
    rw [hall]
  case events => exact hevents
  case output => rfl
  case same =>
    constructor
    · exact hstore
    all_goals
      rw [bottom_of_callers hcallers, bottom_of_callers hcallers', hcur]
      rfl
  case program => rfl

/-- A line that goes on has come to the end of the program. -/
theorem delivers_of_next (m : Machine) {ev : Event} (hcallers : e.machine.callers = [])
    (hs : (e.lineStart text).step e.config = .next m.advance)
    (hcur : m.current = (e.lineStart text).current) (hcallers' : m.callers = [])
    (hstore : m.store = e.machine.store) (hevents : m.events = #[ev]) :
    e.Delivers text ev m.log { e with machine := m.advance } := by
  -- the text is one line, so behind it is the end of the program
  have hend : m.advance.step e.config = .done m.advance ⟨.boolean true, false, none⟩ := by
    have hline : m.advance.current.program[m.advance.current.pc]? = none := by
      simp only [advance, Activation.advance, hcur]
      rfl
    have htop : m.advance.callers = [] := hcallers'
    simp only [step, hline, leave, htop]
    rfl
  have hrun : (e.lineStart text).run e.config 2 =
      (m.advance, .finished ⟨.boolean true, false, none⟩) := by
    rw [Machine.run, hs]
    simp only [Machine.run, hend]
  refine delivers_of_run m.advance 1 (Nat.le_refl 2) hrun hcallers hcallers' hstore ?_ hevents
  simp only [advance, Activation.advance, hcur]
  rfl

/-- A line that prints a value delivers its record. -/
theorem delivers_of_print {v : Value} (htop : AtTop e.machine.current)
    (hcallers : e.machine.callers = []) (hat : (e.lineStart text).At (.ofPieces text))
    (hsink : ∀ k, e.config.sinkFails k = false)
    (heff : (e.lineStart text).effect e.config (.ofPieces text) =
      .signal (e.lineStart text).current (e.lineStart text).store (.print v 1)) :
    ∃ e', e.Delivers text (.printed ⟨v, 1, rootName⟩ (e.machine.store.text? v))
      (e.output.push ⟨v, 1, rootName⟩) e' := by
  have hname : (e.lineStart text).current.name = rootName := htop.name
  have hdelivers := delivers_of_next _ hcallers (step_of_print hat heff (hsink _)) rfl hcallers rfl
    rfl
  rw [← hname]
  exact ⟨_, hdelivers⟩

/-- A line that is a fault reports it. -/
theorem delivers_of_fault {c : Cause} (htop : AtTop e.machine.current)
    (hcallers : e.machine.callers = []) (hat : (e.lineStart text).At (.ofPieces text))
    (heff : (e.lineStart text).effect e.config (.ofPieces text) =
      .signal (e.lineStart text).current (e.lineStart text).store (.fault c)) :
    ∃ e', e.Delivers text (.faulted ⟨c, 1, rootName⟩) e.output e' := by
  have hname : (e.lineStart text).current.name = rootName := htop.name
  have hs := step_of_fault hat heff
  have hfault : (e.lineStart text).faultOf c = ⟨c, 1, rootName⟩ := by
    rw [faultOf, hname]
    rfl
  rw [hfault] at hs
  let m : Machine := (e.lineStart text).deliver (.faulted ⟨c, 1, rootName⟩)
  have hcallers' : m.callers = [] := hcallers
  by_cases hh : e.config.halt
  · -- the run is halted at once, where there is nothing to unwind
    rw [if_pos hh, unwind_of_callers hcallers'] at hs
    have hrun : (e.lineStart text).run e.config 1 =
        (m, .finished ⟨.undefined, false, some ⟨c, 1, rootName⟩⟩) := by
      simp only [Machine.run, hs]
    exact ⟨_, delivers_of_run m 0 (Nat.le_succ 1) hrun hcallers hcallers' rfl rfl rfl⟩
  · rw [if_neg hh] at hs
    exact ⟨_, delivers_of_next m hcallers hs rfl hcallers' rfl rfl⟩

/-! ## Both ways -/

/-- Between operations, while nothing is being recorded and as long as no receiver fails, asking for
a text that is read as an expression gives a value just if running it as a line delivers the record
of this value, with line 1 and the name of the top level, and nothing else; and asking gives a fault
just if the line reports the fault of this cause, with that place, and delivers nothing else.  It
gives one or the other.  The line comes to its end and leaves the arrays, the variables, the
procedures, the pending parameters, the recording and the loaded program as they are, and the log
but for the record.  Asking for any other text is an error that is no fault.  Asking leaves the
engine as it is, whatever the text. -/
theorem get_agrees_with_runLine (he : e.Used) (hquiet : e.machine.current.recording = none)
    (hsink : ∀ k, e.config.sinkFails k = false) (text : List Text.Piece) :
    (∀ st x, classify text = .ok st → st.instr = .expression x →
      ∃ e' r, (∀ n ≥ 2, e.runLine text [] false n = (e', .finished r)) ∧
        (∀ v, e.get text = .ok v ↔
          ∃ t, e'.machine.events = #[.printed ⟨v, 1, rootName⟩ t]) ∧
        (∀ c, e.get text = .error (.fault c) ↔
          e'.machine.events = #[.faulted ⟨c, 1, rootName⟩]) ∧
        (∀ err, e.get text = .error err → ∃ c, err = .fault c) ∧
        SameTop e.machine e'.machine ∧ e'.program = e.program ∧
        (∀ v, e.get text = .ok v → e'.output = e.output.push ⟨v, 1, rootName⟩) ∧
        ∀ c, e.get text = .error (.fault c) → e'.output = e.output) ∧
    ((∀ st x, classify text = .ok st → st.instr ≠ .expression x) →
      ∃ err, e.get text = .error err ∧ ∀ c, err ≠ .fault c) ∧
    ∀ e', (Op.get text).Leads e e' → e' = e := by
  obtain ⟨htop, hcallers⟩ := he.atTop
  refine ⟨?_, get_of_not_expression, ?_⟩
  · intro st x hst hx
    have hat : (e.lineStart text).At (.ofPieces text) := at_lineStart hquiet
    have heff := effect_lineStart (e := e) hst hx
    rw [get_of_expression hst hx]
    cases heval : x.eval e.machine.current.heap e.machine.store with
    | ok v =>
      rw [heval] at heff
      obtain ⟨e', hdelivers⟩ := delivers_of_print htop hcallers hat hsink heff
      obtain ⟨r, hrun⟩ := hdelivers.run
      refine ⟨e', r, hrun, ?_, ?_, nofun, hdelivers.same, hdelivers.program, ?_, nofun⟩
      · intro w
        rw [hdelivers.events]
        simp [Except.mapError]
      · intro c
        rw [hdelivers.events]
        simp [Except.mapError]
      · rintro w ⟨⟩
        exact hdelivers.output
    | error c =>
      rw [heval] at heff
      obtain ⟨e', hdelivers⟩ := delivers_of_fault htop hcallers hat heff
      obtain ⟨r, hrun⟩ := hdelivers.run
      refine ⟨e', r, hrun, ?_, ?_, ?_, hdelivers.same, hdelivers.program, nofun, ?_⟩
      · intro v
        rw [hdelivers.events]
        simp [Except.mapError]
      · intro d
        rw [hdelivers.events]
        simp [Except.mapError]
      · rintro err ⟨⟩
        exact ⟨c, rfl⟩
      · intro d _
        exact hdelivers.output
  · rintro e' ⟨⟩
    rfl

/-- Two arrays, one in the other, a pointer, and a fault. -/
def holdingArrays : Program := .ofStrings
  ["a[0] = 1", "b[1] = a", "x = 2", "p = &x", "param q"]

/-- The engine that has run it. -/
def heldArrays : Engine := (((Engine.new {}).load holdingArrays).exec [] 6).1

/-- The engine that a run has left is one that operations lead to, and has the same options. -/
theorem used_exec (he : e.Session) {inputs : List Number} {n : Nat}
    (h : (e.exec inputs n).2.ended = true) :
    (e.exec inputs n).1.Used ∧ (e.exec inputs n).1.config = e.config :=
  ⟨(Session.exec he (Prod.ext rfl rfl) h).used, rfl⟩

theorem used_heldArrays
    (h : (((Engine.new {}).load holdingArrays).exec [] 6).2.ended = true) :
    heldArrays.Used ∧ heldArrays.config = ((Engine.new {}).load holdingArrays).config := by
  unfold heldArrays
  exact used_exec (.load (.new {}) _) h

/-- The value behind the pointer is got and printed, an array is refused as an index in both ways,
and an assignment has no value. -/
theorem get_agrees_with_runLine_heldArrays :
    (∃ e' r t, (∀ n ≥ 2, heldArrays.runLine "*p" [] false n = (e', .finished r)) ∧
      heldArrays.get "*p" = .ok (.scalar ⟨0x4000000000000000⟩) ∧
      e'.machine.events = #[.printed ⟨.scalar ⟨0x4000000000000000⟩, 1, rootName⟩ t]) ∧
    (∃ e' r, (∀ n ≥ 2, heldArrays.runLine "l: a[b[1]]" [] false n = (e', .finished r)) ∧
      heldArrays.get "l: a[b[1]]" =
        .error (.fault (.cannotIndex .array (.atomic (.element "b" (.atomic
          (.literal .one (some "1"))))))) ∧
      e'.machine.events = #[.faulted ⟨.cannotIndex .array (.atomic (.element "b" (.atomic
        (.literal .one (some "1"))))), 1, rootName⟩]) ∧
    ∃ err, heldArrays.get "x = 1" = .error err ∧ ∀ c, err ≠ .fault c := by
  have hfacts : (((Engine.new {}).load holdingArrays).exec [] 6).2.ended = true ∧
      heldArrays.machine.current.recording = none ∧
      classify (Text.ofString "*p") = .ok ⟨"", .expression (.unary "*" (.variable "p")), "*p"⟩ ∧
      heldArrays.get "*p" = .ok (.scalar ⟨0x4000000000000000⟩) ∧
      classify (Text.ofString "l: a[b[1]]") = .ok ⟨"l", .expression (.atomic (.element "a" (.atomic
        (.element "b" (.atomic (.literal .one (some "1"))))))), "l: a[b[1]]"⟩ ∧
      heldArrays.get "l: a[b[1]]" = .error (.fault (.cannotIndex .array (.atomic (.element "b"
        (.atomic (.literal .one (some "1"))))))) ∧
      classify (Text.ofString "x = 1") =
        .ok ⟨"", .assign (.variable 0 "x") (.atomic (.literal .one (some "1"))), "x = 1"⟩ := by
    decide +kernel
  obtain ⟨hended, hquiet, hread, hvalue, hread', hfault, hassign⟩ := hfacts
  obtain ⟨hused, hconfig⟩ := used_heldArrays hended
  have hsink : ∀ k, heldArrays.config.sinkFails k = false := by
    intro k
    rw [hconfig]
    rfl
  refine ⟨?_, ?_, ?_⟩
  · obtain ⟨hboth, -⟩ := get_agrees_with_runLine hused hquiet hsink "*p"
    obtain ⟨e', r, hrun, hprints, -⟩ := hboth _ _ hread rfl
    obtain ⟨t, hevents⟩ := (hprints _).mp hvalue
    exact ⟨e', r, t, hrun, hvalue, hevents⟩
  · obtain ⟨hboth, -⟩ := get_agrees_with_runLine hused hquiet hsink "l: a[b[1]]"
    obtain ⟨e', r, hrun, -, hfaults, -⟩ := hboth _ _ hread' rfl
    exact ⟨e', r, hrun, hfault, (hfaults _).mp hfault⟩
  · obtain ⟨-, hother, -⟩ := get_agrees_with_runLine hused hquiet hsink "x = 1"
    refine hother fun st x hst hx => ?_
    rw [hassign] at hst
    cases hst
    cases hx

end AddressCode.Engine
