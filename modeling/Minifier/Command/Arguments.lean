import Minifier.Pass

/-!
# Command line arguments

The form of a command line is

    [options] pass [options] [input]

Options that concern files, the form of the output and logging may stand on both sides of the pass;
if one does, what stands after the pass counts. On one side an option is given at most once, except
for `--reserved`. The options of the mangler stand after a pass that mangles.

Arguments are read from left to right. An option and its value are *pending* until the next argument
that is no value is met, and are checked only then. This decides which of two things comes first, a
wrong value or a request for help.
-/

namespace Minifier.Command

/-- How much is logged. -/
inductive LogLevel where
  | trace | debug | info | warn | error
deriving DecidableEq, Repr

/-- How log lines are written. -/
inductive LogFormat where
  | text | json
deriving DecidableEq, Repr

/-- The level with a name. -/
def LogLevel.ofText? : String → Option LogLevel
  | "trace" => some .trace
  | "debug" => some .debug
  | "info" => some .info
  | "warn" => some .warn
  | "error" => some .error
  | _ => none

/-- The format with a name. -/
def LogFormat.ofText? : String → Option LogFormat
  | "text" => some .text
  | "json" => some .json
  | _ => none

/-- The options. -/
inductive Key where
  | config | output | compact | logLevel | logFormat | reserved | seed
deriving DecidableEq, Repr

/-- Why there is nothing to run. -/
inductive Stop where
  /-- the arguments make no sense -/
  | usage
  /-- help was asked for -/
  | help
  /-- the version was asked for -/
  | version
deriving DecidableEq, Repr

namespace Key

/-- The name of an option. -/
def name : Key → String
  | .config => "config"
  | .output => "output"
  | .compact => "compact"
  | .logLevel => "log-level"
  | .logFormat => "log-format"
  | .reserved => "reserved"
  | .seed => "seed"

/-- The options that may stand on both sides of a pass. -/
def shared : List Key := [.config, .output, .compact, .logLevel, .logFormat]

/-- The options that may stand after a pass. -/
def after : Pass → List Key
  | .optimize => shared
  | .mangle | .minify => shared ++ [.reserved, .seed]

/-- The option has a value. -/
def takesValue : Key → Bool
  | .compact => false
  | _ => true

/-- The option may be given more than once. -/
def isRepeatable : Key → Bool
  | .reserved => true
  | _ => false

end Key

/-- A number of 64 bits: digits, with a plus before them or not. -/
def word64? (s : String) : Option UInt64 :=
  let digits := match s.toList with
    | '+' :: rest => rest
    | cs => cs
  if digits.isEmpty || !digits.all Char.isDigit then none
  else
    let n := Numeral.natOfDigits digits
    if n < 0x10000000000000000 then some (UInt64.ofNat n) else none

/-- The value is one that the option can have. -/
def Key.accepts (key : Key) (value : String) : Bool :=
  match key with
  | .config | .output => !value.isEmpty
  | .logLevel => (LogLevel.ofText? value).isSome
  | .logFormat => (LogFormat.ofText? value).isSome
  | .seed => (word64? value).isSome
  | .reserved | .compact => true

/-- What an argument that is being read belongs to. -/
inductive Target where
  | option (key : Key)
  | input
deriving DecidableEq, Repr

/-- What was read on one side of the pass. -/
structure Side where
  /-- options with their values, in order -/
  options : List (Key × String) := []
  input : Option String := none
  /-- what is not checked yet, with its value if that was read -/
  pending : Option (Target × Option String) := none

namespace Side

/-- Add an option. -/
def add (side : Side) (key : Key) (value : String) : Except Stop Side :=
  if key.accepts value && (key.isRepeatable || !(side.options.any (·.1 == key))) then
    .ok { side with options := side.options ++ [(key, value)] }
  else .error .usage

/-- Check what is pending. -/
def settle (side : Side) : Except Stop Side :=
  match side.pending with
  | none => .ok side
  | some (_, none) => .error .usage
  | some (.option key, some value) => { side with pending := none }.add key value
  | some (.input, some path) =>
    if path.isEmpty then .error .usage
    else .ok { side with pending := none, input := some path }

/-- The argument after this one has to be a value. -/
def awaitsValue (side : Side) : Bool :=
  match side.pending with
  | some (_, none) => true
  | _ => false

/-- An input was read. -/
def hasInput (side : Side) : Bool :=
  side.input.isSome ||
    match side.pending with
    | some (.input, _) => true
    | _ => false

/-- Read an option, with its value if that is attached to it. -/
def readOption (side : Side) (key : Key) (attached : Option String) : Except Stop Side := do
  match key.takesValue, attached with
  | false, some _ => .error .usage
  | false, none => (← side.settle).add key ""
  | true, some value => (← side.settle).add key value
  | true, none => .ok { ← side.settle with pending := some (.option key, none) }

/-- End with a request, if what came before it is right. -/
def request (side : Side) (stop : Stop) : Except Stop Side := side.settle.bind fun _ => .error stop

/-- Read an argument that starts with two dashes; `top` tells that no pass was read yet. -/
def readLong (side : Side) (top : Bool) (allowed : List Key) (body : List Char) :
    Except Stop Side :=
  let (name, rest) := body.span (· != '=')
  let attached := match rest with
    | _ :: value => some (String.ofList value)
    | [] => none
  let name := String.ofList name
  match allowed.find? (·.name == name) with
  | some key => side.readOption key attached
  | none =>
    if attached.isSome then .error .usage
    else if name == "help" then side.request .help
    else if top && name == "version" then side.request .version
    else .error .usage

/-- Read an argument that starts with one dash. -/
def readShort (side : Side) (top : Bool) : List Char → Except Stop Side
  | 'o' :: rest =>
    side.readOption .output <|
      match rest with
      | [] => none
      | '=' :: value => some (String.ofList value)
      | value => some (String.ofList value)
  | 'h' :: _ => side.request .help
  | 'V' :: _ => if top then side.request .version else .error .usage
  | _ => .error .usage

/-- Read an input. -/
def readInput (side : Side) (path : String) : Except Stop Side := do
  if side.hasInput then .error .usage
  else .ok { ← side.settle with pending := some (.input, some path) }

/-- Read the value that is awaited. -/
def readValue (side : Side) (value : String) : Side :=
  { side with pending := side.pending.map fun (target, _) => (target, some value) }

end Side

/-- The argument starts with a dash and is more than that. -/
def isDashed : List Char → Bool
  | '-' :: _ :: _ => true
  | _ => false

/-- Read an option of any form. -/
def readDashed (side : Side) (top : Bool) (allowed : List Key) : List Char → Except Stop Side
  | '-' :: '-' :: body => side.readLong top allowed body
  | '-' :: body => side.readShort top body
  | _ => .error .usage

/-- What the arguments of `help` ask for: help, of any pass or of `help` itself. -/
def readHelp : List String → Stop
  | [] => .help
  | [topic] => if topic == "help" || (Pass.ofText? topic).isSome then .help else .usage
  | _ => .usage

/-- Read the arguments before the pass: what they say, the pass, and the arguments after it. -/
def readBefore (side : Side) : List String → Except Stop (Side × Pass × List String)
  | [] => .error .usage
  | arg :: rest =>
    if side.awaitsValue then
      if isDashed arg.toList then .error .usage else readBefore (side.readValue arg) rest
    else
      match Pass.ofText? arg with
      | some pass => .ok (side, pass, rest)
      | none =>
        if arg == "help" then .error (readHelp rest)
        else if arg == "--" || !isDashed arg.toList then .error .usage
        else (readDashed side true Key.shared arg.toList).bind fun side => readBefore side rest

/-- Read the arguments after the pass; `ended` tells that no more options follow. -/
def readAfter (allowed : List Key) (side : Side) (ended : Bool) : List String → Except Stop Side
  | [] => side.settle
  | arg :: rest =>
    if ended || !isDashed arg.toList then
      if side.awaitsValue then
        if ended then .error .usage else readAfter allowed (side.readValue arg) ended rest
      else (side.readInput arg).bind fun side => readAfter allowed side ended rest
    else if side.awaitsValue then .error .usage
    else if arg == "--" then readAfter allowed side true rest
    else
      (readDashed side false allowed arg.toList).bind fun side => readAfter allowed side ended rest

/-- A command line that can be run. -/
structure Invocation where
  pass : Pass
  /-- the file to read; standard input if there is none -/
  input : Option String
  config : Option String
  /-- the file to write; standard output if there is none -/
  output : Option String
  compact : Bool
  logLevel : LogLevel
  logFormat : LogFormat
  reserved : List String
  seed : Option UInt64
deriving Repr

/-- Put together what was read on both sides of the pass. -/
def Invocation.of (before after : Side) (pass : Pass) : Invocation :=
  let value? (key : Key) : Option String :=
    (Entries.get? after.options key).or (Entries.get? before.options key)
  { pass
    input := after.input
    config := value? .config
    output := value? .output
    compact := (value? .compact).isSome
    logLevel := ((value? .logLevel).bind LogLevel.ofText?).getD .warn
    logFormat := ((value? .logFormat).bind LogFormat.ofText?).getD .text
    reserved := (after.options.filter (·.1 == .reserved)).map (·.2)
    seed := (value? .seed).bind word64? }

/-- Read a command line. -/
def Invocation.ofArguments (args : List String) : Except Stop Invocation := do
  let (before, pass, rest) ← readBefore {} args
  let after ← readAfter (Key.after pass) {} false rest
  let before ← before.settle
  pure (.of before after pass)

end Minifier.Command
