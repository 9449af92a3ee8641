import AddressCode.Cli.Session

/-!
# AddressCode.Main — the program

Reads the program file or standard input, and shows what the session has to say.  A program with a
time limit is watched by the clock.
-/

namespace AddressCode.Main

/-- The content of the program file of a name.  A folder can be opened, but not read. -/
def readProgram (name : String) : IO (Except FileError (List UInt8)) := do
  try
    return .ok (← IO.FS.readBinFile name).data.toList
  catch
    | .inappropriateType (some _) .. => return .error .notFolder
    | .inappropriateType none .. => return .error .folder
    | .invalidArgument .. => return .error .nameTooLong
    | .permissionDenied .. => return .error .forbidden
    | _ => return .error .missing

/-- Show a report. -/
def display (r : Report) : IO UInt32 := do
  IO.print r.output
  return (r.exit.getD 0).toUInt32

/-- How many steps a program takes between two looks at the clock. -/
def chunk : Nat := 1000

/-- Go on with a running program.  The events in front of position `shown` have been shown, and at
`deadline` the program is given up. -/
partial def watch (s : Session) (limit : Duration) (deadline : Option Nat) (shown : Nat) :
    IO UInt32 := do
  let (m, o) := s.engine.machine.run s.engine.config chunk
  let s := { s with engine := { s.engine with machine := m } }
  let (text, broken) := Session.eventText s.engine shown
  IO.print text
  if broken then return Session.brokenCode.toUInt32
  match s.conclude o with
  | some r => display r
  | none =>
    let late ← match deadline with
      | some d => do pure (decide (d ≤ (← IO.monoNanosNow)))
      | none => pure false
    if late then display (Session.timedOut limit)
    else watch s limit deadline m.events.size

/-- Run a program. -/
def runProgram (s : Session) (limit : Duration) (source : List Text.Piece) : IO UInt32 := do
  let e := (s.engine.load (s.engine.programOf source)).reset.bind s.inputs
  let s := { s with engine := { e with machine := e.start e.program } }
  let deadline ←
    if 0 < limit.nanoseconds then do
      pure (some ((← IO.monoNanosNow) + limit.nanoseconds.toNat))
    else pure none
  watch s limit deadline 0

/-- Take some lines. -/
def feedAll (s : Session) : List String → IO Session.Reply
  | [] => return .go s
  | line :: rest => do
    let (shown, reply) := s.feed 1000000000000 line
    IO.print shown
    (← IO.getStdout).flush
    match reply with
    | .go s => feedAll s rest
    | .stop exit => return .stop exit

/-- Take lines from standard input until it ends or the session is closed. -/
partial def converse (stdin : IO.FS.Stream) (s : Session) : IO UInt32 := do
  let text ← stdin.getLine
  if text.isEmpty then return 0
  match ← feedAll s (Session.inputLines text) with
  | .go s => converse stdin s
  | .stop exit => return (exit.getD 0).toUInt32

end AddressCode.Main

open AddressCode in
/-- The program. -/
def main (args : List String) : IO UInt32 := do
  match Plan.ofArgs args with
  | .stop r => Main.display r
  | .program s name limit =>
    match ← Main.readProgram name with
    | .ok content => Main.runProgram s limit (Source.ofBytes content)
    | .error e => Main.display (Session.unreadable name e)
  | .lines s => do
    IO.print Session.welcome
    Main.converse (← IO.getStdin) s
