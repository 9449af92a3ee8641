import AddressCode.Cli.Folder
import AddressCode.Cli.Inputs
import AddressCode.Cli.Message
import AddressCode.Cli.Options
import AddressCode.Cli.Source
import AddressCode.Engine

/-!
# AddressCode.Cli.Session — the command line

The command line runs a program file or, without one, the lines it is given one by one.  A line
that begins with a colon is a command to the session itself.
-/

namespace AddressCode

/-- An engine in use from the command line. -/
structure Session where
  engine : Engine
  /-- the inputs, as long as they are not bound -/
  inputs : List Number
  digest : Bool

/-- What the command line shows, and the code it ends with unless it is still at work. -/
structure Report where
  output : String
  exit : Option Nat
deriving Repr, DecidableEq

namespace Session

/-- What has been shown, and whether an event without a text has broken that off. -/
def showEvent (shown : String × Bool) (e : Event) : String × Bool :=
  if shown.2 then shown
  else match Message.ofEvent? e with
    | none => (shown.1, true)
    | some t => (shown.1 ++ t, false)

/-- The texts of some events up to the first one that has none, and whether there is one. -/
def eventTexts (es : List Event) : String × Bool := es.foldl showEvent ("", false)

/-- What an engine has delivered, from the event at position `k` on. -/
def eventText (e : Engine) (k : Nat) : String × Bool := eventTexts (e.machine.events.toList.drop k)

/-- The code of a session that is broken off by a value that contains itself. -/
def brokenCode : Nat := 2

/-! ## Program files -/

/-- The code of a program that has run. -/
def exitCode (r : Result) : Nat := if r.halted then 1 else 0

/-- The end of a program that has run: the fingerprint, if it is asked for, and the code.  There is
no fingerprint if a record has come to contain itself. -/
def ending (s : Session) (r : Result) : Report :=
  if s.digest then
    match s.engine.output.fingerprint? s.engine.machine.store with
    | some f => ⟨Message.info f, some (exitCode r)⟩
    | none => ⟨"", some brokenCode⟩
  else ⟨"", some (exitCode r)⟩

/-- The end of a program that takes too long. -/
def timedOut (d : Duration) : Report :=
  ⟨Message.error ("program timed out after " ++ d.text), some 4⟩

/-- The end of a run that has led to an outcome; a run that still goes on has none. -/
def conclude (s : Session) (o : Machine.Outcome) : Option Report :=
  match o with
  | .finished r => some (s.ending r)
  | .escaped message => some ⟨Message.error message, some 2⟩
  | .aborted => some ⟨"", some brokenCode⟩
  | .running => none

/-- Run a source text.  `patience` is the number of steps after which a program with a time limit
is given up, and `steps` the number of steps any other program gets. -/
def runSource (s : Session) (limit : Duration) (patience steps : Nat)
    (source : List Text.Piece) : Report :=
  let limited := decide (0 < limit.nanoseconds)
  let (e, o) := s.engine.runSource source s.inputs (if limited then patience else steps)
  let (shown, broken) := eventText e 0
  if broken then ⟨shown, some brokenCode⟩
  else match conclude { s with engine := e } o with
    | some r => ⟨shown ++ r.output, r.exit⟩
    | none => if limited then ⟨shown ++ (timedOut limit).output, some 4⟩ else ⟨shown, none⟩

/-- The end of a program whose file cannot be read. -/
def unreadable (name : String) (e : FileError) : Report :=
  ⟨Message.error (e.message name), some 2⟩

/-- Run a program file. -/
def runFile (s : Session) (limit : Duration) (patience steps : Nat) (name : String)
    (file : Except FileError (List UInt8)) : Report :=
  match file with
  | .ok content => s.runSource limit patience steps (Source.ofBytes content)
  | .error e => unreadable name e

/-! ## Line by line -/

/-- What a line leads to: the session goes on, or it ends with a code unless the line still
runs. -/
inductive Reply where
  | go (s : Session)
  | stop (exit : Option Nat)

/-- Greets the user. -/
def welcome : String := Message.info "Welcome to tac"

/-- Show a text, or break off if there is none. -/
def showing (s : Session) (text : Option String) : String × Reply :=
  match text with
  | some t => (t, .go s)
  | none => ("", .stop (some brokenCode))

/-- Carry out a command. -/
def command (s : Session) (cmd : String) : String × Reply :=
  match cmd with
  | ":quit" | ":q" => ("", .stop (some 0))
  | ":heap" => s.showing (Message.heap? s.engine.machine.store s.engine.heap)
  | ":procs" =>
    (String.join (s.engine.procedures.procs.values.map fun p => Message.info p.text), .go s)
  | ":reset" =>
    (Message.info "heap cleared", .go { s with engine := (s.engine.runLine "" [] true 2).1 })
  | _ => (Message.error ("unknown command " ++ cmd), .go s)

/-- What follows the output of a line that has led to an outcome. -/
def answer (s : Session) (o : Machine.Outcome) : String × Reply :=
  match o with
  | .finished r =>
    s.showing (if r.returned then (s.engine.machine.store.text? r.value).map Message.info
      else some "")
  | .escaped message => (Message.error message, .stop (some 2))
  | .aborted => ("", .stop (some brokenCode))
  | .running => ("", .stop none)

/-- Run a line, which gets the given number of steps.  The inputs are bound by the first line that
is run. -/
def runLine (s : Session) (steps : Nat) (line : String) : String × Reply :=
  let (e, o) := s.engine.runLine line s.inputs false steps
  let (shown, broken) := eventText e 0
  if broken then (shown, .stop (some brokenCode))
  else
    let (more, reply) := answer { s with engine := e, inputs := [] } o
    (shown ++ more, reply)

/-- The sound of a key without a meaning. -/
def bell : Char := '\x07'

/-- Take a line, which gets the given number of steps.  A tab is no part of a line and rings the
bell. -/
def feed (s : Session) (steps : Nat) (line : String) : String × Reply :=
  let bells := (line.toList.filter (· == '\t')).map fun _ => bell
  let line := String.ofList (line.toList.filter (· != '\t'))
  let trimmed := Text.trim line
  let (shown, reply) :=
    if trimmed.toList.head? = some ':' then s.command trimmed else s.runLine steps line
  (String.ofList bells ++ shown, reply)

/-- Take some lines, one after the other. -/
def converse (s : Session) (steps : Nat) : List String → Report
  | [] => ⟨"", some 0⟩
  | line :: rest =>
    match s.feed steps line with
    | (shown, .stop exit) => ⟨shown, exit⟩
    | (shown, .go s) =>
      let r := converse s steps rest
      ⟨shown ++ r.output, r.exit⟩

/-- The lines of a text.  A line ends with a line feed or a carriage return; what follows the last
end is a line only if there is something. -/
def inputLines (s : String) : List String :=
  match (Text.splitOn "\n" (s.map fun c => if c = '\r' then '\n' else c)).reverse with
  | "" :: rest => rest.reverse
  | lines => lines.reverse

end Session

/-! ## The command line -/

/-- What a command line asks for. -/
inductive Plan where
  /-- end at once -/
  | stop (r : Report)
  /-- run a program file -/
  | program (s : Session) (name : String) (limit : Duration)
  /-- take lines -/
  | lines (s : Session)

/-- The plan of a command line. -/
def Plan.ofArgs (args : List String) : Plan :=
  match Options.parse args with
  | .error .help => .stop ⟨"", some 0⟩
  | .error .invalid => .stop ⟨"", some 2⟩
  | .ok o =>
    match parseInputs o.input with
    | .error e => .stop ⟨Message.error e.message, some 2⟩
    | .ok inputs =>
      let config := ({ halt := o.halt } : Config).withSeparator o.separator
      let s : Session := ⟨.new config, inputs, o.digest⟩
      match o.args with
      | name :: _ => .program s name o.timeout
      | [] => .lines s

/-- Carry out a command line.  `files` reads program files, `stdin` is the text of standard
input; see `Session.runSource` for the numbers of steps. -/
def Plan.run (files : String → Except FileError (List UInt8)) (stdin : String)
    (patience steps : Nat) (p : Plan) : Report :=
  match p with
  | .stop r => r
  | .program s name limit => s.runFile limit patience steps name (files name)
  | .lines s =>
    let r := s.converse steps (Session.inputLines stdin)
    ⟨Session.welcome ++ r.output, r.exit⟩

end AddressCode
