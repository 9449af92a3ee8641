import AddressCode.Machine.Step

/-!
# AddressCode.Interpreter — a call as a run inside of an instruction

`Machine.step` keeps the callers of the running activation in a list.  Here the same programs are
run by functions that call each other: an instruction that calls a procedure pushes a frame, runs
the body, takes what it returns and pops the frame.  A fault that halts the body is handed on by
every caller, and a failure of the receiver of output is taken by the instruction of the caller on
whose behalf the body was run.

The frames stand on a stack that all contexts share, and a context knows the place of its own.  A
run is given a number of steps, and each of the runs inside of it gets what is left.
-/

namespace AddressCode

namespace CallStack

/-- The variables of the frame that has `place` frames below it. -/
def heapIn (place : Nat) : List Frame → Heap
  | [] => .empty
  | f :: older => if older.length = place then f.heap else heapIn place older

/-- Replace the variables of the frame that has `place` frames below it. -/
def setHeapIn (place : Nat) (h : Heap) : List Frame → List Frame
  | [] => []
  | f :: older =>
    if older.length = place then { f with heap := h } :: older
    else f :: setHeapIn place h older

end CallStack

/-- A fault on its way to the outside, and whether it has been reported there. -/
structure Raised where
  fault : Fault
  reported : Bool
deriving Repr, DecidableEq

/-- A fault that has just been raised.  It gets its place when it is reported. -/
def Raised.new (c : Cause) : Raised := ⟨⟨c, 0, ""⟩, false⟩

/-- What an instruction asks the loop to do that runs it. -/
inductive Answer where
  | next
  | jump (position : Nat)
  | ret (value : Value)
  | print (value : Value) (line : Int)
  | fault (raised : Raised)
deriving Repr, DecidableEq

/-- What ends a function and those that have called it. -/
inductive Break where
  /-- a failure that can be recovered from -/
  | panic (message : String)
  /-- a copy that has no end -/
  | overflow
  /-- no steps are left -/
  | outOfSteps
deriving Repr, DecidableEq

/-- How the run of a context ends. -/
inductive Ending where
  | returned (value : Value)
  /-- there are no lines left -/
  | fellOff
  | halted (raised : Raised)
deriving Repr, DecidableEq

/-- The result of a run at the top level. -/
def Ending.result : Ending → Result
  | returned v => ⟨v, true, none⟩
  | fellOff => ⟨.boolean true, false, none⟩
  | halted r => ⟨.undefined, false, some r.fault⟩

/-- How far a run has led, as it is told of a machine. -/
def Ending.outcome : Except Break Ending → Machine.Outcome
  | .ok ending => .finished ending.result
  | .error (.panic message) => .escaped message
  | .error .overflow => .aborted
  | .error .outOfSteps => .running

/-! ## What is shared -/

/-- What all contexts have in common. -/
structure World where
  calls : CallStack
  store : Store
  log : Log
  delivered : Nat
  events : Array Event

namespace World

/-- The number of frames on the stack, which is the place of the next one. -/
def places (w : World) : Nat := w.calls.frames.length

/-- The variables in the frame at a place. -/
def heap (w : World) (place : Nat) : Heap := CallStack.heapIn place w.calls.frames

/-- Replace the variables in the frame at a place. -/
def setHeap (w : World) (place : Nat) (h : Heap) : World :=
  { w with calls := ⟨CallStack.setHeapIn place h w.calls.frames⟩ }

/-- Push a frame. -/
def push (w : World) (name : String) : World := { w with calls := w.calls.push name }

/-- Pop the youngest frame. -/
def pop (w : World) : Except EmptyStack World :=
  match w.calls.pop with
  | .ok (_, calls) => .ok { w with calls := calls }
  | .error e => .error e

/-- Hand a record to the receiver of output, which may fail on it. -/
def emit (cfg : Config) (w : World) (r : Record) : World × Except Break Unit :=
  let w := { w with log := w.log.push r, delivered := w.delivered + 1 }
  let w := { w with events := w.events.push (.printed r (w.store.text? r.value)) }
  if cfg.sinkFails w.delivered then (w, .error (.panic (cfg.sinkMessage w.delivered)))
  else (w, .ok ())

/-- Report a fault at a position, unless a run inside of this one has reported it, and tell whether
the run has to halt. -/
def fail (cfg : Config) (w : World) (r : Raised) (pc : Nat) (proc : String) :
    World × Raised × Bool :=
  if r.reported then (w, r, cfg.halt)
  else
    let f : Fault := ⟨r.fault.cause, (pc : Int) + 1, proc⟩
    ({ w with events := w.events.push (.faulted f) }, ⟨f, true⟩, cfg.halt)

end World

/-! ## Contexts -/

/-- The run of a program or of the body of a procedure. -/
structure Context where
  name : String
  program : Program
  labels : Labels Nat (List UInt8)
  /-- the place of its frame on the stack -/
  place : Nat
  /-- the procedures it defines -/
  scope : Scope
  /-- the scopes around its own -/
  home : List Scope
  /-- the parameters waiting for its next call -/
  params : Params
  /-- the procedure that its lines are being recorded for -/
  recording : Option Recording

/-- What a function leaves behind, and how it comes back. -/
abbrev Returns (α : Type) : Type := Context × World × Except Break α

namespace Context

/-- A context for a program, with a frame. -/
def new (name : String) (program : Program) (home : List Scope) (place : Nat) : Context where
  name := name
  program := program
  labels := .empty
  place := place
  scope := .new name
  home := home
  params := .empty
  recording := none

/-- The scopes in which its calls are looked up. -/
def scopes (c : Context) : List Scope := c.scope :: c.home

/-- The variables. -/
def heap (c : Context) (w : World) : Heap := w.heap c.place

/-- Find the labels of the program. -/
def scanLabels (c : Context) : Context := { c with labels := c.program.labels }

/-- Take a line into the body that is being recorded, if there is one. -/
def record (c : Context) (l : Line) : Option Context :=
  match c.recording with
  | none => none
  | some r =>
    let depth := Program.depthAfter r.depth l
    if l.closes && depth == 0 then some { c with recording := none }
    else
      some { c with
        recording := some { r with depth := depth }
        scope := c.scope.append r.proc l }

/-- Come back from an instruction. -/
def answer (c : Context) (w : World) (a : Answer) : Returns Answer := (c, w, .ok a)

/-- Raise a fault. -/
def fault (c : Context) (w : World) (cause : Cause) : Returns Answer :=
  c.answer w (.fault (.new cause))

/-- Come back from a call.  Its frame is popped, whether the body has ended or failed. -/
def leave (c : Context) (w : World) (a : Except Break Answer) : Returns Answer :=
  match w.pop with
  | .ok w => (c, w, a)
  | .error e => (c, w, .error (.panic e.message))

/-- Go on when the body of a procedure has come back.  A fault that has halted it halts the caller
as well, and what it has returned is stored in the caller's variables. -/
def finishCall (c : Context) (result : String) (w : World) : Except Break Ending → Returns Answer
  | .ok (.halted r) => c.leave w (.ok (.fault r))
  | .ok (.returned v) =>
    -- the frame of the body is still on top of the one that gets the value
    let w := if v.isDefined then w.setHeap c.place ((c.heap w).set result v) else w
    c.leave w (.ok .next)
  | .ok .fellOff => c.leave w (.ok .next)
  | .error (.panic message) => c.leave w (.error (.panic message))
  | .error b => (c, w, .error b)

/-- Call a procedure, whose body is run by `runBody`. -/
def call (limit : Nat) (runBody : Context → World → Returns Ending) (c : Context) (w : World)
    (proc : String) (count : Option Nat) (result : Option String) : Returns Answer :=
  match Scope.resolve? proc c.scopes with
  | none => c.fault w (.undefinedProcedure proc)
  | some (p, home) =>
    match count.filter fun n => (n : Int) ≠ p.arity with
    | some n => c.fault w (.wrongCount p.name p.arity n)
    | none =>
      if (limit : Int) ≤ w.calls.depth then c.fault w (.tooManyCalls limit p.name)
      else
        let (args, params) := c.params.take p.arity
        let c := { c with params := params }
        match args with
        | none => c.fault w (.tooFewParams p.name p.arity params.size)
        | some args =>
          let callee := new p.name p.body home w.places
          let w := w.push p.name
          let w := w.setHeap callee.place ((callee.heap w).bind args)
          let (_, w, ending) := runBody callee w
          c.finishCall (result.getD defaultResult) w ending

/-- Carry out an instruction at a position. -/
def execute (limit : Nat) (runBody : Context → World → Returns Ending) (c : Context) (w : World)
    (pc : Nat) : Instr → Returns Answer
  | .noop => c.answer w .next
  | .ifThen cond action =>
    match cond.eval (c.heap w) w.store with
    | .error f => c.fault w f
    | .ok v => if v.truthy then c.execute limit runBody w pc action else c.answer w .next
  | .print x | .expression x =>
    match x.eval (c.heap w) w.store with
    | .error f => c.fault w f
    | .ok v => c.answer w (.print v (pc + 1))
  | .ret none => c.answer w (.ret .undefined)
  | .ret (some x) =>
    match x.eval (c.heap w) w.store with
    | .error f => c.fault w f
    | .ok v => c.answer w (.ret v)
  | .goto label =>
    match c.labels.lookup? (Text.Utf8.encode label) with
    | none => c.fault w (.undefinedLabel label)
    | some position => c.answer w (.jump position)
  | .call proc count result => c.call limit runBody w proc count result
  | .param x =>
    match x.eval (c.heap w) w.store with
    | .error f => c.fault w f
    | .ok v =>
      match c.params.push? w.store v with
      | none => (c, w, .error .overflow)
      | some (s, params) => { c with params := params }.answer { w with store := s } .next
  | .beginFunc name arity =>
    { c with
      scope := c.scope.define ⟨name, arity, #[]⟩
      recording := some ⟨name, 1⟩ }.answer w .next
  | .endFunc => c.fault w .strayEnd
  | .assign target x =>
    match x.eval (c.heap w) w.store with
    | .error f => c.fault w f
    | .ok v =>
      let (h, s, failed) := target.write (c.heap w) w.store v
      let w := { w.setHeap c.place h with store := s }
      match failed with
      | some f => c.fault w f
      | none => c.answer w .next

/-- Recover from a failure: it is a fault of the instruction, unless failures are to get through. -/
def recover (cfg : Config) : Returns Answer → Returns Answer
  | (c, w, .error (.panic message)) =>
    if cfg.strict then (c, w, .error (.panic message)) else c.fault w (.internal message)
  | r => r

/-- Carry out a line at a position. -/
def step (cfg : Config) (runBody : Context → World → Returns Ending) (c : Context) (w : World)
    (pc : Nat) (l : Line) : Returns Answer :=
  recover cfg <|
    match l.instr with
    | .error e => c.fault w (.unrecognized e)
    | .ok ins => c.execute cfg.maxDepth runBody w pc ins

/-- Do what the answer of the line at a position asks for; `again` runs the lines from a position
on. -/
def obey (cfg : Config) (again : Context → World → Nat → Returns Ending) (pc : Nat) :
    Returns Answer → Returns Ending
  | (c, w, .error b) => (c, w, .error b)
  | (c, w, .ok .next) => again c w (pc + 1)
  | (c, w, .ok (.jump position)) => again c w position
  | (c, w, .ok (.ret v)) => (c, w, .ok (.returned v))
  | (c, w, .ok (.print v line)) =>
    -- the line is over, so a failure is not recovered from here but by the line that called
    match w.emit cfg ⟨v, line, c.name⟩ with
    | (w, .error b) => (c, w, .error b)
    | (w, .ok _) => again c w (pc + 1)
  | (c, w, .ok (.fault r)) =>
    match w.fail cfg r pc c.name with
    | (w, r, true) => (c, w, .ok (.halted r))
    | (w, _, false) => again c w (pc + 1)

/-- Run a program from a position on, for at most `n` steps.  The body of a procedure is run from
its first line on. -/
def loop (cfg : Config) : Nat → Context → World → Nat → Returns Ending
  | 0, c, w, _ => (c, w, .error .outOfSteps)
  | n + 1, c, w, pc =>
    match c.program[pc]? with
    | none => (c, w, .ok .fellOff)
    | some l =>
      match c.record l with
      | some c => loop cfg n c w (pc + 1)
      | none =>
        obey cfg (loop cfg n) pc
          (c.step cfg (fun callee w => loop cfg n callee.scanLabels w 0) w pc l)

/-- Run the program of a context. -/
def run (cfg : Config) (n : Nat) (c : Context) (w : World) : Returns Ending :=
  loop cfg n c.scanLabels w 0

end Context

end AddressCode
