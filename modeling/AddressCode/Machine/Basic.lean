import AddressCode.CallStack
import AddressCode.Output
import AddressCode.Params
import AddressCode.Procedure
import AddressCode.Program
import AddressCode.Signal

/-!
# AddressCode.Machine.Basic — the state of a run

A run has a stack of activations, one for each call that has not ended, and the top level at the
bottom.  Each activation has variables, labels, procedures and pending parameters of its own; what
they have in common is the store of arrays, the log of what was printed, and the events delivered
to the outside.
-/

namespace AddressCode

/-- What a run can be asked to do differently. -/
structure Config where
  /-- stop at the first fault -/
  halt : Bool := false
  /-- how many calls may be inside each other -/
  maxDepth : Nat := 1000
  /-- let a failure of the receiver of output end the run, wherever it is raised -/
  strict : Bool := false
  /-- does the receiver of output fail on taking its `n`-th record? -/
  sinkFails : Nat → Bool := fun _ => false
  /-- what the receiver of output says if it fails on taking its `n`-th record -/
  sinkMessage : Nat → String := fun _ => "sink panic"
  /-- what stands between the lines of a source text -/
  separator : String := "\n"

namespace Config

/-- Limit the depth of calls; only a positive limit counts. -/
def withMaxDepth (c : Config) (n : Int) : Config :=
  if 0 < n then { c with maxDepth := n.toNat } else c

/-- Set the separator of lines; only a separator that is not empty counts. -/
def withSeparator (c : Config) (s : String) : Config :=
  if s = "" then c else { c with separator := s }

end Config

/-- The recording of a procedure: its name, and how many procedures are open inside. -/
structure Recording where
  proc : String
  depth : Nat
deriving Repr, DecidableEq

/-- The run of a program or of the body of a procedure. -/
structure Activation where
  /-- its variables -/
  frame : Frame
  /-- the procedures it defines -/
  scope : Scope
  /-- the scopes around its own, where its procedure is at home -/
  home : List Scope
  program : Program
  labels : Labels Nat (List UInt8)
  /-- the position of the next line -/
  pc : Nat
  /-- the parameters waiting for its next call -/
  params : Params
  /-- the procedure that its lines are being recorded for -/
  recording : Option Recording
  /-- the variable of the caller that takes what it returns -/
  result : String

namespace Activation

/-- The name of the procedure. -/
def name (a : Activation) : String := a.frame.name

/-- The variables. -/
def heap (a : Activation) : Heap := a.frame.heap

/-- Replace the variables. -/
def withHeap (a : Activation) (h : Heap) : Activation :=
  { a with frame := { a.frame with heap := h } }

/-- The scopes in which its calls are looked up. -/
def scopes (a : Activation) : List Scope := a.scope :: a.home

/-- Go on with the next line. -/
def advance (a : Activation) : Activation := { a with pc := a.pc + 1 }

/-- Start a program from its first line. -/
def start (a : Activation) (p : Program) : Activation :=
  { a with program := p, labels := p.labels, pc := 0 }

/-- The top level before its first program. -/
def root : Activation where
  frame := ⟨rootName, 0, .empty⟩
  scope := .new rootName
  home := []
  program := #[]
  labels := .empty
  pc := 0
  params := .empty
  recording := none
  result := ""

/-- The activation of a procedure with the given home. -/
def ofCall (depth : Nat) (p : Procedure) (home : List Scope) (args : List Value)
    (result : String) : Activation where
  frame := ⟨p.name, depth, Heap.empty.bind args⟩
  scope := .new p.name
  home := home
  program := p.body
  labels := Program.labels p.body
  pc := 0
  params := .empty
  recording := none
  result := result

/-- Record a line.  The end of the procedure ends the recording and is not part of the body. -/
def record (a : Activation) (r : Recording) (l : Line) : Activation :=
  if l.closes && r.depth ≤ 1 then { a with recording := none }
  else
    { a with
      recording := some { r with depth := Program.depthAfter r.depth l }
      scope := a.scope.append r.proc l }

end Activation

/-- What a run delivers to the outside. -/
inductive Event where
  /-- a record, with the text its value had at that moment -/
  | printed (record : Record) (text : Option String)
  | faulted (fault : Fault)
deriving Repr, DecidableEq

/-- The state of a run. -/
structure Machine where
  current : Activation
  /-- the activations that wait for a call to end, the latest caller in front -/
  callers : List Activation
  store : Store
  log : Log
  /-- how many records were delivered, over all runs -/
  delivered : Nat
  /-- what was delivered since the run began -/
  events : Array Event

namespace Machine

/-- The state before the first run. -/
def initial : Machine where
  current := .root
  callers := []
  store := .empty
  log := #[]
  delivered := 0
  events := #[]

/-- All activations, the running one in front. -/
def activations (m : Machine) : List Activation := m.current :: m.callers

/-- The frames of all activations. -/
def callStack (m : Machine) : CallStack := ⟨m.activations.map (·.frame)⟩

/-- The activation at the bottom of the stack. -/
def bottom (m : Machine) : Activation := m.callers.getLast?.getD m.current

/-- Leave all calls at once. -/
def unwind (m : Machine) : Machine := { m with current := m.bottom, callers := [] }

/-- Go on with the next line. -/
def advance (m : Machine) : Machine := { m with current := m.current.advance }

/-- Deliver an event. -/
def deliver (m : Machine) (e : Event) : Machine := { m with events := m.events.push e }

end Machine

/-- How a run ends. -/
structure Result where
  /-- what was returned, true at the end of the program, undefined if the run was halted -/
  value : Value
  /-- was there a return? -/
  returned : Bool
  /-- the fault that halted the run -/
  fault : Option Fault
deriving Repr, DecidableEq, Inhabited

namespace Result

/-- Was the run halted? -/
def halted (r : Result) : Bool := r.fault.isSome

/-- The text of a result, unless its value contains itself. -/
def text? (s : Store) (r : Result) : Option String :=
  match r.fault with
  | some f => some ("halted: " ++ f.text)
  | none => s.text? r.value

end Result

end AddressCode
