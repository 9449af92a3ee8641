import AddressCode.Assign
import AddressCode.Machine.Basic

/-!
# AddressCode.Machine.Step — running a program line by line

`Activation.execute` carries out one instruction; `Machine.step` takes one line of the running
activation and does what its signal asks for; `Machine.run` takes a number of steps.

A call is a step that puts an activation on the stack, and the end of an activation is a step that
takes it off.  A fault is delivered with the place where it was raised.  It ends the line, or the
whole run if the run is to halt.  A failing receiver of output ends the activation that printed and
is a fault of the call in its caller; at the top level it ends the run.  A copy of a value that
contains itself ends the run wherever it is made.  `AddressCode.Interpreter` runs the same programs
with the body of a procedure inside of the instruction that calls it.
-/

namespace AddressCode

/-- What an instruction does. -/
inductive Effect where
  /-- it changes the activation and the store, and ends in a signal -/
  | signal (a : Activation) (s : Store) (sig : Signal)
  /-- it leaves the activation waiting for a call -/
  | enter (a callee : Activation)
  /-- it copies a value that contains itself, which has no end -/
  | overflow

/-- The variable that takes what a procedure returns if a call names none. -/
def defaultResult : String := "out"

namespace Activation

/-- Raise a fault in the state that has been come to. -/
def fault (a : Activation) (s : Store) (c : Cause) : Effect := .signal a s (.fault c)

/-- Call a procedure. -/
def call (limit : Nat) (a : Activation) (s : Store) (proc : String) (count : Option Nat)
    (result : Option String) : Effect :=
  match Scope.resolve? proc a.scopes with
  | none => a.fault s (.undefinedProcedure proc)
  | some (p, home) =>
    match count.filter fun n => (n : Int) ≠ p.arity with
    | some n => a.fault s (.wrongCount p.name p.arity n)
    | none =>
      if limit ≤ a.frame.depth then a.fault s (.tooManyCalls limit p.name)
      else
        let (args, params) := a.params.take p.arity
        let a := { a with params := params }
        match args with
        | none => a.fault s (.tooFewParams p.name p.arity params.size)
        | some args =>
          .enter a (.ofCall (a.frame.depth + 1) p home args (result.getD defaultResult))

/-- Carry out an instruction.  `limit` is the depth at which no further call is allowed. -/
def execute (limit : Nat) (a : Activation) (s : Store) : Instr → Effect
  | .noop => .signal a s .next
  | .ifThen cond action =>
    match cond.eval a.heap s with
    | .error c => a.fault s c
    | .ok v => if v.truthy then a.execute limit s action else .signal a s .next
  | .print x | .expression x =>
    match x.eval a.heap s with
    | .error c => a.fault s c
    | .ok v => .signal a s (.print v (a.pc + 1))
  | .ret none => .signal a s (.ret .undefined)
  | .ret (some x) =>
    match x.eval a.heap s with
    | .error c => a.fault s c
    | .ok v => .signal a s (.ret v)
  | .goto label =>
    match a.labels.lookup? (Text.Utf8.encode label) with
    | none => a.fault s (.undefinedLabel label)
    | some position => .signal a s (.jump position)
  | .call proc count result => a.call limit s proc count result
  | .param x =>
    match x.eval a.heap s with
    | .error c => a.fault s c
    | .ok v =>
      match a.params.push? s v with
      | none => .overflow
      | some (s, params) => .signal { a with params := params } s .next
  | .beginFunc name arity =>
    .signal
      { a with scope := a.scope.define ⟨name, arity, #[]⟩, recording := some ⟨name, 1⟩ } s .next
  | .endFunc => a.fault s .strayEnd
  | .assign target x =>
    match x.eval a.heap s with
    | .error c => a.fault s c
    | .ok v =>
      let (h, s, failed) := target.write a.heap s v
      let a := a.withHeap h
      match failed with
      | some c => a.fault s c
      | none => .signal a s .next

end Activation

/-- The outcome of a step. -/
inductive Step where
  | next (m : Machine)
  /-- the run has ended -/
  | done (m : Machine) (r : Result)
  /-- the receiver of output has failed, and nobody is left to take the failure -/
  | escaped (m : Machine) (message : String)
  /-- there is no room left for a copy that has no end -/
  | aborted (m : Machine)

namespace Machine

/-- Raise a fault in the running line. -/
def raise (cfg : Config) (m : Machine) (c : Cause) : Step :=
  let f : Fault := ⟨c, (m.current.pc : Int) + 1, m.current.name⟩
  let m := m.deliver (.faulted f)
  if cfg.halt then .done m.unwind ⟨.undefined, false, some f⟩ else .next m.advance

/-- The caller, once it has got what its call returned. -/
def resume (caller : Activation) (result : String) (v : Option Value) : Activation :=
  match v.filter (·.isDefined) with
  | some v => (caller.withHeap (caller.heap.set result v)).advance
  | none => caller.advance

/-- End the running activation, with a value if it executed a return. -/
def leave (m : Machine) (v : Option Value) : Step :=
  match m.callers with
  | [] => .done m ⟨v.getD (.boolean true), v.isSome, none⟩
  | caller :: rest =>
    .next { m with current := resume caller m.current.result v, callers := rest }

/-- Print a value. -/
def emit (cfg : Config) (m : Machine) (v : Value) (line : Int) : Step :=
  let r : Record := ⟨v, line, m.current.name⟩
  let m := { m with log := m.log.push r, delivered := m.delivered + 1 }
  let m := m.deliver (.printed r (m.store.text? v))
  if !cfg.sinkFails m.delivered then .next m.advance
  else
    let message := cfg.sinkMessage m.delivered
    match m.callers with
    | [] => .escaped m message
    | caller :: rest =>
      if cfg.strict then .escaped m.unwind message
      else raise cfg { m with current := caller, callers := rest } (.internal message)

/-- Do what a signal asks for. -/
def handle (cfg : Config) (m : Machine) : Signal → Step
  | .next => .next m.advance
  | .jump position => .next { m with current := { m.current with pc := position } }
  | .ret v => m.leave (some v)
  | .print v line => m.emit cfg v line
  | .fault c => m.raise cfg c

/-- Take a line of the running activation. -/
def stepLine (cfg : Config) (m : Machine) (l : Line) : Step :=
  match m.current.recording with
  | some r => .next { m with current := (m.current.record r l).advance }
  | none =>
    match l.instr with
    | .error e => m.raise cfg (.unrecognized e)
    | .ok ins =>
      match m.current.execute cfg.maxDepth m.store ins with
      | .signal a s sig => handle cfg { m with current := a, store := s } sig
      | .enter a callee => .next { m with current := callee, callers := a :: m.callers }
      | .overflow => .aborted m

/-- One step of a run. -/
def step (cfg : Config) (m : Machine) : Step :=
  match m.current.program[m.current.pc]? with
  | none => m.leave none
  | some l => m.stepLine cfg l

/-- How far a number of steps leads. -/
inductive Outcome where
  | finished (r : Result)
  | escaped (message : String)
  | aborted
  /-- the run has not ended yet -/
  | running
deriving Repr, DecidableEq

/-- Take up to `n` steps. -/
def run (cfg : Config) : Nat → Machine → Machine × Outcome
  | 0, m => (m, .running)
  | n + 1, m =>
    match m.step cfg with
    | .next m => run cfg n m
    | .done m r => (m, .finished r)
    | .escaped m message => (m, .escaped message)
    | .aborted m => (m, .aborted)

end Machine

end AddressCode
