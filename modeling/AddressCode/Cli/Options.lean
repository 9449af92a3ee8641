import AddressCode.Cli.Duration

/-!
# AddressCode.Cli.Options — the options of the command line

Options come before the other arguments and begin with one or two dashes.  The value of an option
follows an equals sign or is the next argument; a switch takes a value behind an equals sign only.
Two dashes alone end the options.
-/

namespace AddressCode

/-- What the command line asks for. -/
structure Options where
  trace : String := "Error"
  halt : Bool := false
  input : String := ""
  timeout : Duration := ⟨0⟩
  digest : Bool := false
  separator : String := "\n"
  /-- the arguments behind the options -/
  args : List String := []
deriving Repr, DecidableEq

/-- Why no options can be read. -/
inductive Options.Refusal where
  /-- help is asked for -/
  | help
  /-- an option is unknown, or its value is missing or malformed -/
  | invalid
deriving Repr, DecidableEq

namespace Options

/-- The truth value of a word. -/
def switch? : String → Option Bool
  | "1" | "t" | "T" | "TRUE" | "true" | "True" => some true
  | "0" | "f" | "F" | "FALSE" | "false" | "False" => some false
  | _ => none

/-- Is an option a switch? -/
def isSwitch (name : String) : Bool := name == "halt" || name == "digest"

/-- Is an option known? -/
def isKnown (name : String) : Bool :=
  isSwitch name || name == "trace" || name == "input" || name == "timeout" || name == "sep"

/-- Set an option to the value of a text. -/
def set? (o : Options) (name value : String) : Option Options :=
  match name with
  | "trace" => some { o with trace := value }
  | "halt" => (switch? value).map fun b => { o with halt := b }
  | "input" => some { o with input := value }
  | "timeout" => (Duration.parse? value).map fun d => { o with timeout := d }
  | "digest" => (switch? value).map fun b => { o with digest := b }
  | "sep" => some { o with separator := value }
  | _ => none

/-- The name of an option and its value, if it has one.  The name is not empty and begins neither
with a dash nor with an equals sign. -/
def nameAndValue? (cs : List Char) : Option (String × Option String) :=
  match cs with
  | [] => none
  | '-' :: _ => none
  | '=' :: _ => none
  | c :: rest =>
    let name := String.ofList (c :: rest.takeWhile (· != '='))
    match rest.dropWhile (· != '=') with
    | [] => some (name, none)
    | _ :: value => some (name, some (String.ofList value))

/-- Read an option that is known, and hand back the arguments behind it. -/
def option? (o : Options) (name : String) (value : Option String) (rest : List String) :
    Option (Options × List String) :=
  match value with
  | some v => (o.set? name v).map (·, rest)
  | none =>
    if isSwitch name then (o.set? name "true").map (·, rest)
    else match rest with
      | v :: rest => (o.set? name v).map (·, rest)
      | [] => none

/-- Read the options in front of the arguments.  Each option is an argument, so there are at most
`k` of them. -/
def parseFrom : Nat → Options → List String → Except Refusal Options
  | 0, o, args => .ok { o with args := args }
  | k + 1, o, args =>
    match args with
    | [] => .ok { o with args := [] }
    | s :: rest =>
      match s.toList with
      | ['-', '-'] => .ok { o with args := rest }
      | '-' :: c :: cs =>
        match nameAndValue? (if c == '-' then cs else c :: cs) with
        | none => .error .invalid
        | some (name, value) =>
          if isKnown name then
            match o.option? name value rest with
            | some (o, rest) => parseFrom k o rest
            | none => .error .invalid
          else if name == "help" || name == "h" then .error .help
          else .error .invalid
      | _ => .ok { o with args := args }

/-- The options of a command line. -/
def parse (args : List String) : Except Refusal Options := parseFrom (args.length + 1) {} args

end Options

end AddressCode
