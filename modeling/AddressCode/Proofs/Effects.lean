import AddressCode.Machine.Step

/-!
# AddressCode.Proofs.Effects — what a line and a step can do

Two inversions, from which the invariants of a run are derived without opening the interpreter
again.

* `Activation.Does` lists what a line does in the activation that carries it out; `does_effect`
  says that the list is complete.
* `Machine.Takes` lists the outcomes of a step; `takes_step` says that the list is complete.
-/

namespace AddressCode

/-! ## Lines -/

/-- The instruction that is carried out in the end, if every condition in front of it is true. -/
def Instr.core : Instr → Instr
  | .ifThen _ action => action.core
  | ins => ins

/-- The instruction in the core of a line that holds one. -/
def Line.core? (l : Line) : Option Instr := (l.instr.toOption).map Instr.core

namespace Activation

/-- What a line does in an activation that records nothing.  A line without an instruction is a
fault. -/
def effect (limit : Nat) (a : Activation) (s : Store) (l : Line) : Effect :=
  match l.instr with
  | .error e => a.fault s (.unrecognized e)
  | .ok ins => a.execute limit s ins

/-- The effects a line can have, each with what has to hold for it. -/
inductive Does (limit : Nat) (a : Activation) (s : Store) (l : Line) : Effect → Prop where
  /-- nothing is to be done, or a condition is false -/
  | pass : Does limit a s l (.signal a s .next)
  | fault (c : Cause) : Does limit a s l (.signal a s (.fault c))
  | print {x : Expr} {v : Value}
      (hl : l.core? = some (.print x) ∨ l.core? = some (.expression x))
      (hv : x.eval a.heap s = .ok v) :
      Does limit a s l (.signal a s (.print v (a.pc + 1)))
  /-- a return without an expression -/
  | leave (hl : l.core? = some (.ret none)) : Does limit a s l (.signal a s (.ret .undefined))
  | ret {x : Expr} {v : Value} (hl : l.core? = some (.ret (some x)))
      (hv : x.eval a.heap s = .ok v) : Does limit a s l (.signal a s (.ret v))
  | jump {label : String} {position : Nat} (hl : l.core? = some (.goto label))
      (hp : a.labels.lookup? (Text.Utf8.encode label) = some position) :
      Does limit a s l (.signal a s (.jump position))
  | call {proc : String} {count : Option Nat} {result : Option String} {p : Procedure}
      {home : List Scope} {args : List Value} {rest : Params}
      (hl : l.core? = some (.call proc count result))
      (hp : Scope.resolve? proc a.scopes = some (p, home))
      (hd : a.frame.depth < limit)
      (ht : a.params.take? p.arity = some (args, rest)) :
      Does limit a s l (.enter { a with params := rest }
        (.ofCall (a.frame.depth + 1) p home args (result.getD defaultResult)))
  | param {x : Expr} {v : Value} {s' : Store} {ps : Params} (hl : l.core? = some (.param x))
      (hv : x.eval a.heap s = .ok v) (hp : a.params.push? s v = some (s', ps)) :
      Does limit a s l (.signal { a with params := ps } s' .next)
  | overflow : Does limit a s l .overflow
  | define {name : String} {arity : Nat} (hl : l.core? = some (.beginFunc name arity)) :
      Does limit a s l (.signal
        { a with scope := a.scope.define ⟨name, arity, #[]⟩, recording := some ⟨name, 1⟩ } s .next)
  | assign {target : Target} {x : Expr} {v : Value} {h : Heap} {s' : Store}
      (hl : l.core? = some (.assign target x)) (hv : x.eval a.heap s = .ok v)
      (ht : target.assign a.heap s v = .ok (h, s')) :
      Does limit a s l (.signal (a.withHeap h) s' .next)

variable {limit : Nat} {a : Activation} {s : Store} {l : Line}

/-- A call takes its arguments or leaves all parameters where they are. -/
theorem call_eq (proc : String) (count : Option Nat) (result : Option String) :
    a.call limit s proc count result =
      match Scope.resolve? proc a.scopes with
      | none => a.fault s (.undefinedProcedure proc)
      | some (p, home) =>
        match count.filter fun n => (n : Int) ≠ p.arity with
        | some n => a.fault s (.wrongCount p.name p.arity n)
        | none =>
          if limit ≤ a.frame.depth then a.fault s (.tooManyCalls limit p.name)
          else match a.params.take? p.arity with
            | none => a.fault s (.tooFewParams p.name p.arity a.params.size)
            | some (args, rest) =>
              .enter { a with params := rest }
                (.ofCall (a.frame.depth + 1) p home args (result.getD defaultResult)) := by
  unfold call
  simp only [Params.take_eq]
  cases Scope.resolve? proc a.scopes with
  | none => rfl
  | some found =>
    dsimp only
    cases a.params.take? found.1.arity <;> rfl

/-- An assignment writes to its target, or it is a fault and changes nothing. -/
theorem execute_assign (target : Target) (x : Expr) :
    a.execute limit s (.assign target x) =
      match x.eval a.heap s with
      | .error c => a.fault s c
      | .ok v =>
        match target.assign a.heap s v with
        | .error c => a.fault s c
        | .ok (h, s') => .signal (a.withHeap h) s' .next := by
  simp only [execute, Target.write_eq]
  cases x.eval a.heap s with
  | error c => rfl
  | ok v =>
    dsimp only
    cases target.assign a.heap s v <;> rfl

/-- A call passes all checks and enters the procedure, or it is a fault. -/
theorem does_call {proc : String} {count : Option Nat} {result : Option String}
    (hl : l.core? = some (.call proc count result)) :
    Does limit a s l (a.call limit s proc count result) := by
  rw [call_eq]
  -- is the procedure known, is the count right, is there room, are there arguments?
  split
  · exact .fault _
  · rename_i p home hp
    split
    · exact .fault _
    · split
      · exact .fault _
      · rename_i hd
        split
        · exact .fault _
        · rename_i args rest ht
          exact .call hl hp (Nat.lt_of_not_le hd) ht

/-- The effect of an instruction is one its core can have.  The induction follows the conditions
in front of the core. -/
theorem does_execute (ins : Instr) (hl : l.core? = some ins.core) :
    Does limit a s l (a.execute limit s ins) := by
  induction ins with
  | noop => exact .pass
  | ifThen cond action ih =>
    simp only [execute]
    split
    · exact .fault _
    · split
      · -- an `if` has the core of its action
        exact ih hl
      · exact .pass
  | print x =>
    simp only [execute]
    split
    · exact .fault _
    · rename_i v hv
      exact .print (Or.inl hl) hv
  | ret x =>
    cases x with
    | none => exact .leave hl
    | some x =>
      simp only [execute]
      split
      · exact .fault _
      · rename_i v hv
        exact .ret hl hv
  | goto label =>
    simp only [execute]
    split
    · exact .fault _
    · rename_i position hp
      exact .jump hl hp
  | call proc count result => exact does_call hl
  | param x =>
    simp only [execute]
    split
    · exact .fault _
    · rename_i v hv
      split
      · exact .overflow
      · rename_i s' ps hp
        exact .param hl hv hp
  | beginFunc name arity => exact .define hl
  | endFunc => exact .fault _
  | assign target x =>
    rw [execute_assign]
    split
    · exact .fault _
    · rename_i v hv
      split
      · exact .fault _
      · rename_i h s' ht
        exact .assign hl hv ht
  | expression x =>
    simp only [execute]
    split
    · exact .fault _
    · rename_i v hv
      exact .print (Or.inr hl) hv

/-- Every line does one of the things in the list. -/
theorem does_effect (limit : Nat) (a : Activation) (s : Store) (l : Line) :
    Does limit a s l (a.effect limit s l) := by
  unfold effect
  split
  · exact .fault _
  · rename_i ins hins
    exact does_execute ins (by simp [Line.core?, hins, Except.toOption])

end Activation

/-! ## Steps -/

namespace Machine

/-- The running activation is about to carry out the line `l`. -/
structure At (m : Machine) (l : Line) : Prop where
  line : m.current.program[m.current.pc]? = some l
  quiet : m.current.recording = none

/-- What the line `l` does in the running activation. -/
def effect (cfg : Config) (m : Machine) (l : Line) : Effect :=
  m.current.effect cfg.maxDepth m.store l

/-- The effects the line `l` can have in the running activation. -/
def Does (cfg : Config) (m : Machine) (l : Line) (e : Effect) : Prop :=
  m.current.Does cfg.maxDepth m.store l e

/-- The fault of cause `c` in the running line. -/
def faultOf (m : Machine) (c : Cause) : Fault := ⟨c, (m.current.pc : Int) + 1, m.current.name⟩

/-- The state after a value was printed and delivered. -/
def printed (m : Machine) (v : Value) (line : Int) : Machine :=
  { m with
    log := m.log.push ⟨v, line, m.current.name⟩
    delivered := m.delivered + 1
    events := m.events.push (.printed ⟨v, line, m.current.name⟩ (m.store.text? v)) }

/-- Give up the running activation for a caller. -/
def backTo (m : Machine) (caller : Activation) (rest : List Activation) : Machine :=
  { m with current := caller, callers := rest }

variable {cfg : Config} {m : Machine} {l : Line}

theorem does_of_effect {e : Effect} (he : m.effect cfg l = e) : m.Does cfg l e := by
  rw [← he]
  exact Activation.does_effect cfg.maxDepth m.current m.store l

/-- Carrying out a line is doing what its effect asks for. -/
theorem step_at (cfg : Config) (h : m.At l) :
    m.step cfg =
      match m.effect cfg l with
      | .signal a s sig => handle cfg { m with current := a, store := s } sig
      | .enter a callee => .next { m with current := callee, callers := a :: m.callers }
      | .overflow => .aborted m := by
  simp only [step, h.line, stepLine, h.quiet, effect, Activation.effect]
  cases l.instr with
  | error e => rfl
  | ok ins => rfl

/-- A signal other than to go on leaves the activation and the store as they are. -/
theorem eq_of_signal {a : Activation} {s : Store} {sig : Signal}
    (he : m.effect cfg l = .signal a s sig) (hsig : sig ≠ .next) :
    a = m.current ∧ s = m.store := by
  have hd := does_of_effect he
  cases hd <;> simp_all

/-- A value is printed with the number of its line. -/
theorem line_of_print {a : Activation} {s : Store} {v : Value} {line : Int}
    (he : m.effect cfg l = .signal a s (.print v line)) : line = m.current.pc + 1 := by
  have hd := does_of_effect he
  cases hd
  rfl

theorem raise_eq (cfg : Config) (m : Machine) (c : Cause) :
    raise cfg m c =
      if cfg.halt then .done (m.deliver (.faulted (m.faultOf c))).unwind
        ⟨.undefined, false, some (m.faultOf c)⟩
      else .next (m.deliver (.faulted (m.faultOf c))).advance := rfl

/-- What comes of a record. -/
theorem emit_eq (cfg : Config) (m : Machine) (v : Value) (line : Int) :
    m.emit cfg v line =
      if !cfg.sinkFails (m.delivered + 1) then .next (m.printed v line).advance
      else match m.callers with
        | [] => .escaped (m.printed v line) (cfg.sinkMessage (m.delivered + 1))
        | c :: rest =>
          if cfg.strict then
            .escaped (m.printed v line).unwind (cfg.sinkMessage (m.delivered + 1))
          else
            raise cfg ((m.printed v line).backTo c rest)
              (.internal (cfg.sinkMessage (m.delivered + 1))) := rfl

/-- A fault of the running line. -/
theorem step_of_fault {c : Cause} (hl : m.At l)
    (he : m.effect cfg l = .signal m.current m.store (.fault c)) :
    m.step cfg =
      if cfg.halt then .done (m.deliver (.faulted (m.faultOf c))).unwind
        ⟨.undefined, false, some (m.faultOf c)⟩
      else .next (m.deliver (.faulted (m.faultOf c))).advance := by
  rw [step_at cfg hl, he]
  rfl

/-- A line that prints emits its record. -/
theorem step_eq_emit {v : Value} {line : Int} (hl : m.At l)
    (he : m.effect cfg l = .signal m.current m.store (.print v line)) :
    m.step cfg = m.emit cfg v line := by
  rw [step_at cfg hl, he]
  rfl

/-- A record that the receiver takes. -/
theorem step_of_print {v : Value} {line : Int} (hl : m.At l)
    (he : m.effect cfg l = .signal m.current m.store (.print v line))
    (hsink : cfg.sinkFails (m.delivered + 1) = false) :
    m.step cfg = .next (m.printed v line).advance := by
  rw [step_eq_emit hl he, emit_eq]
  simp [hsink]

/-- A record at which the receiver fails, inside of a call. -/
theorem step_of_print_fails {v : Value} {line : Int} {c : Activation} {rest : List Activation}
    (hl : m.At l) (he : m.effect cfg l = .signal m.current m.store (.print v line))
    (hsink : cfg.sinkFails (m.delivered + 1) = true) (hc : m.callers = c :: rest) :
    m.step cfg =
      if cfg.strict then .escaped (m.printed v line).unwind (cfg.sinkMessage (m.delivered + 1))
      else
        raise cfg ((m.printed v line).backTo c rest)
          (.internal (cfg.sinkMessage (m.delivered + 1))) := by
  rw [step_eq_emit hl he, emit_eq]
  simp [hsink, hc]

/-- A record at which the receiver fails, outside of all calls. -/
theorem step_of_print_escapes {v : Value} {line : Int} (hl : m.At l)
    (he : m.effect cfg l = .signal m.current m.store (.print v line))
    (hsink : cfg.sinkFails (m.delivered + 1) = true) (hc : m.callers = []) :
    m.step cfg = .escaped (m.printed v line) (cfg.sinkMessage (m.delivered + 1)) := by
  rw [step_eq_emit hl he, emit_eq]
  simp [hsink, hc]

/-- The outcomes a step can have, each with what has to hold for it. -/
inductive Takes (cfg : Config) (m : Machine) : Step → Prop where
  /-- the end of the body of a procedure -/
  | fallOff {c : Activation} {rest : List Activation}
      (hend : m.current.program[m.current.pc]? = none) (hc : m.callers = c :: rest) :
      Takes cfg m (.next { m with current := resume c m.current.result none, callers := rest })
  /-- the end of the program -/
  | finish (hend : m.current.program[m.current.pc]? = none) (hc : m.callers = []) :
      Takes cfg m (.done m ⟨.boolean true, false, none⟩)
  | record {l : Line} {r : Recording} (hl : m.current.program[m.current.pc]? = some l)
      (hr : m.current.recording = some r) :
      Takes cfg m (.next { m with current := (m.current.record r l).advance })
  /-- an instruction that changes its activation or the store and goes on with the next line -/
  | quiet {l : Line} {a : Activation} {s : Store} (hl : m.At l)
      (he : m.effect cfg l = .signal a s .next) :
      Takes cfg m (.next { m with current := a.advance, store := s })
  | jump {l : Line} {position : Nat} (hl : m.At l)
      (he : m.effect cfg l = .signal m.current m.store (.jump position)) :
      Takes cfg m (.next { m with current := { m.current with pc := position } })
  | enter {l : Line} {a callee : Activation} (hl : m.At l)
      (he : m.effect cfg l = .enter a callee) :
      Takes cfg m (.next { m with current := callee, callers := a :: m.callers })
  /-- a return from a call -/
  | ret {l : Line} {v : Value} {c : Activation} {rest : List Activation} (hl : m.At l)
      (he : m.effect cfg l = .signal m.current m.store (.ret v)) (hc : m.callers = c :: rest) :
      Takes cfg m
        (.next { m with current := resume c m.current.result (some v), callers := rest })
  /-- a return from the program -/
  | finishWith {l : Line} {v : Value} (hl : m.At l)
      (he : m.effect cfg l = .signal m.current m.store (.ret v)) (hc : m.callers = []) :
      Takes cfg m (.done m ⟨v, true, none⟩)
  | fault {l : Line} {c : Cause} (hl : m.At l)
      (he : m.effect cfg l = .signal m.current m.store (.fault c)) (hgo : cfg.halt = false) :
      Takes cfg m (.next (m.deliver (.faulted (m.faultOf c))).advance)
  /-- a fault that ends the run -/
  | halt {l : Line} {c : Cause} (hl : m.At l)
      (he : m.effect cfg l = .signal m.current m.store (.fault c)) (hhalt : cfg.halt = true) :
      Takes cfg m (.done (m.deliver (.faulted (m.faultOf c))).unwind
        ⟨.undefined, false, some (m.faultOf c)⟩)
  | print {l : Line} {v : Value} (hl : m.At l)
      (he : m.effect cfg l = .signal m.current m.store (.print v (m.current.pc + 1)))
      (hsink : cfg.sinkFails (m.delivered + 1) = false) :
      Takes cfg m (.next (m.printed v (m.current.pc + 1)).advance)
  /-- the receiver of output fails, which is a fault of the caller -/
  | sinkFault {l : Line} {v : Value} {c : Activation} {rest : List Activation} (hl : m.At l)
      (he : m.effect cfg l = .signal m.current m.store (.print v (m.current.pc + 1)))
      (hsink : cfg.sinkFails (m.delivered + 1) = true) (hc : m.callers = c :: rest)
      (hgo : cfg.halt = false) :
      Takes cfg m (.next
        (((m.printed v (m.current.pc + 1)).backTo c rest).deliver
          (.faulted ⟨.internal (cfg.sinkMessage (m.delivered + 1)), (c.pc : Int) + 1,
            c.name⟩)).advance)
  /-- the receiver of output fails, and the fault of the caller ends the run -/
  | sinkHalt {l : Line} {v : Value} {c : Activation} {rest : List Activation} (hl : m.At l)
      (he : m.effect cfg l = .signal m.current m.store (.print v (m.current.pc + 1)))
      (hsink : cfg.sinkFails (m.delivered + 1) = true) (hc : m.callers = c :: rest)
      (hhalt : cfg.halt = true) :
      Takes cfg m (.done
        (((m.printed v (m.current.pc + 1)).backTo c rest).deliver
          (.faulted ⟨.internal (cfg.sinkMessage (m.delivered + 1)), (c.pc : Int) + 1,
            c.name⟩)).unwind
        ⟨.undefined, false,
          some ⟨.internal (cfg.sinkMessage (m.delivered + 1)), (c.pc : Int) + 1, c.name⟩⟩)
  /-- the receiver of output fails, and nobody takes the failure -/
  | escape {l : Line} {v : Value} (hl : m.At l)
      (he : m.effect cfg l = .signal m.current m.store (.print v (m.current.pc + 1)))
      (hsink : cfg.sinkFails (m.delivered + 1) = true) :
      Takes cfg m (.escaped (m.printed v (m.current.pc + 1)).unwind
        (cfg.sinkMessage (m.delivered + 1)))
  | overflow {l : Line} (hl : m.At l) (he : m.effect cfg l = .overflow) :
      Takes cfg m (.aborted m)

/-- Unwinding changes nothing outside of all calls. -/
theorem unwind_of_callers (hc : m.callers = []) : m.unwind = m := by
  cases m
  cases hc
  rfl

/-- What comes of a value that is printed. -/
theorem takes_of_print {v : Value} (hl : m.At l)
    (he : m.effect cfg l = .signal m.current m.store (.print v (m.current.pc + 1))) :
    Takes cfg m (m.step cfg) := by
  cases hs : cfg.sinkFails (m.delivered + 1) with
  | false =>
    rw [step_of_print hl he hs]
    exact .print hl he hs
  | true =>
    cases hc : m.callers with
    | nil =>
      -- at the top level there is nothing to unwind
      have hun : (m.printed v (m.current.pc + 1)).unwind = m.printed v (m.current.pc + 1) :=
        unwind_of_callers hc
      rw [step_of_print_escapes hl he hs hc, ← hun]
      exact .escape hl he hs
    | cons c rest =>
      rw [step_of_print_fails hl he hs hc]
      split
      · exact .escape hl he hs
      · -- the fault is raised in the line that made the call
        rw [raise_eq]
        split
        · rename_i hh
          exact .sinkHalt hl he hs hc hh
        · rename_i hh
          exact .sinkFault hl he hs hc (by simpa using hh)

/-- Every step has one of the outcomes in the list. -/
theorem takes_step (cfg : Config) (m : Machine) : Takes cfg m (m.step cfg) := by
  cases hp : m.current.program[m.current.pc]? with
  | none =>
    simp only [step, hp, leave]
    split
    · rename_i hc
      exact .finish hp hc
    · rename_i c rest hc
      exact .fallOff hp hc
  | some l =>
    cases hr : m.current.recording with
    | some r =>
      simp only [step, hp, stepLine, hr]
      exact .record hp hr
    | none =>
      -- the line is carried out; every signal but the first leaves the activation as it is
      have hl : m.At l := ⟨hp, hr⟩
      rw [step_at cfg hl]
      cases he : m.effect cfg l with
      | overflow => exact .overflow hl he
      | enter a callee => exact .enter hl he
      | signal a s sig =>
        cases sig with
        | next => exact .quiet hl he
        | jump position =>
          obtain ⟨rfl, rfl⟩ := eq_of_signal he (by simp)
          exact .jump hl he
        | ret v =>
          obtain ⟨rfl, rfl⟩ := eq_of_signal he (by simp)
          simp only [handle, leave]
          split
          · rename_i hc
            exact .finishWith hl he hc
          · rename_i c rest hc
            exact .ret hl he hc
        | print v line =>
          obtain ⟨rfl, rfl⟩ := eq_of_signal he (by simp)
          obtain rfl := line_of_print he
          have htakes := takes_of_print hl he
          rw [step_at cfg hl, he] at htakes
          exact htakes
        | fault c =>
          obtain ⟨rfl, rfl⟩ := eq_of_signal he (by simp)
          cases hh : cfg.halt with
          | true =>
            simp only [handle, raise, hh]
            exact .halt hl he hh
          | false =>
            simp only [handle, raise, hh]
            exact .fault hl he hh

theorem takes_of_step {o : Step} (h : m.step cfg = o) : Takes cfg m o := by
  rw [← h]
  exact takes_step cfg m

end Machine

end AddressCode
