import AddressCode.Machine.Step
import AddressCode.Text.Split

/-!
# AddressCode.Engine — running programs and lines

An engine keeps a program and the state of the top level.  Running the program starts from a clean
state; running a single line goes on with the variables, procedures, parameters and the recording
left by the lines before.  Every run is given a number of steps; one that does not end within them
is reported as still running.
-/

namespace AddressCode

/-- A program together with the state of the top level. -/
structure Engine where
  config : Config
  program : Program
  machine : Machine

namespace Engine

/-- An engine without a program. -/
def new (config : Config) : Engine := ⟨config, #[], .initial⟩

/-- Forget variables, procedures, parameters, recording and output. -/
def reset (e : Engine) : Engine :=
  { e with machine := { Machine.initial with delivered := e.machine.delivered } }

/-- Replace the program. -/
def load (e : Engine) (p : Program) : Engine := { e with program := p }

/-- Add a line to the program. -/
def add (e : Engine) (line : List Text.Piece) : Engine :=
  { e with program := e.program.push (.ofPieces line) }

/-- Bind the inputs to the variables p0, p1, … of the top level. -/
def bind (e : Engine) (inputs : List Number) : Engine :=
  let a := e.machine.current
  { e with machine := { e.machine with current := a.withHeap (a.heap.bind (inputs.map .scalar)) } }

/-- The state in which the top level starts a program. -/
def start (e : Engine) (p : Program) : Machine :=
  { e.machine with current := e.machine.current.start p, events := #[] }

/-- Run a program at the top level, for at most `n` steps. -/
def execute (e : Engine) (p : Program) (n : Nat) : Engine × Machine.Outcome :=
  let (m, o) := (e.start p).run e.config n
  ({ e with machine := m }, o)

/-- Run the loaded program from a clean state. -/
def exec (e : Engine) (inputs : List Number) (n : Nat) : Engine × Machine.Outcome :=
  (e.reset.bind inputs).execute e.program n

/-- Load a program and run it. -/
def run (e : Engine) (p : Program) (inputs : List Number) (n : Nat) : Engine × Machine.Outcome :=
  (e.load p).exec inputs n

/-- The program of a source text. -/
def programOf (e : Engine) (source : List Text.Piece) : Program :=
  .ofSource e.config.separator source

/-- Load the lines of a source text and run them. -/
def runSource (e : Engine) (source : List Text.Piece) (inputs : List Number) (n : Nat) :
    Engine × Machine.Outcome :=
  e.run (e.programOf source) inputs n

/-- Run a single line, from a clean state if `clear` is set. -/
def runLine (e : Engine) (line : List Text.Piece) (inputs : List Number) (clear : Bool) (n : Nat) :
    Engine × Machine.Outcome :=
  ((if clear then e.reset else e).bind inputs).execute #[.ofPieces line] n

/-- Why a text has no value. -/
inductive GetError where
  | unrecognized (e : SyntaxError)
  | noExpression (text : List Text.Piece)
  | fault (c : Cause)
deriving Repr, DecidableEq

/-- The text of the error. -/
def GetError.message : GetError → String
  | unrecognized e => e.message
  | noExpression text => "not an expression: " ++ Text.quotePieces text
  | fault c => c.message

/-- The value of an expression at the top level. -/
def get (e : Engine) (text : List Text.Piece) : Except GetError Value :=
  match classify text with
  | .error err => .error (.unrecognized err)
  | .ok ⟨_, .expression x, _⟩ =>
    match x.eval e.machine.current.heap e.machine.store with
    | .ok v => .ok v
    | .error c => .error (.fault c)
  | .ok _ => .error (.noExpression text)

/-- The records of the current run. -/
def output (e : Engine) : Log := e.machine.log

/-- The variables of the top level. -/
def heap (e : Engine) : Heap := e.machine.current.heap

/-- The procedures of the top level. -/
def procedures (e : Engine) : Scope := e.machine.current.scope

end Engine

end AddressCode
