import Rota.Config
/-! Configurations from command lines.
An option is `--name value` or `--name=value`. What the command line leaves out is looked up in
the environment. The first problem met counts; a value behind an option is looked at when the next
option or the end is reached. -/
namespace Rota
open Rota.Text

inductive UsageError where
  /-- Help was asked for. -/
  | help
  | unknownArgument
  /-- A value is missing, empty or none of the allowed words. -/
  | invalidValue
  | invalidNumber
  | givenTwice
  | unexpectedValue
deriving DecidableEq

namespace Config

/-- Digits, with a plus sign or without, below 2^64. -/
def readNumber (value : String) : Except UsageError UInt64 :=
  let digits := match value.toList with
    | '+' :: rest => rest
    | cs => cs
  if !digits.isEmpty && digits.all isDigit && ofDigits digits < UInt64.size then
    .ok (UInt64.ofNat (ofDigits digits))
  else .error .invalidNumber

def readWord (name : α → String) (known : List α) (value : String) : Except UsageError α :=
  match known.find? fun v => name v = value with
  | some v => .ok v
  | none => .error .invalidValue

def readPath (value : String) : Except UsageError String :=
  if value = "" then .error .invalidValue else .ok value

def set (c : Config) (value : String) : Setting → Except UsageError Config
  | .workers => do .ok { c with workers := some (← readNumber value) }
  | .queueCapacity => do .ok { c with queueCapacity := some (← readNumber value) }
  | .jobQueueCapacity => do .ok { c with jobQueueCapacity := ← readNumber value }
  | .timeoutUnit => do .ok { c with timeoutUnit := ← readWord TimeUnit.name TimeUnit.all value }
  | .storagePollingInterval => do .ok { c with storagePollingInterval := ← readNumber value }
  | .jobQueuePollingInterval => do .ok { c with jobQueuePollingInterval := ← readNumber value }
  | .logFormat => do .ok { c with logFormat := ← readWord LogFormat.name LogFormat.all value }
  | .manifest => do .ok { c with manifest := some (← readPath value) }

structure Reading where
  config : Config
  given : List Setting
  /-- The option that was read last, and the value behind it, if there was one yet. -/
  pending : Option (Setting × Option String)

namespace Reading

def start : Reading := ⟨.default, [], none⟩

def assign (r : Reading) (s : Setting) (value : String) : Except UsageError Reading :=
  if r.given.contains s then .error .givenTwice
  else do .ok { r with config := ← r.config.set value s, given := s :: r.given }

def resolve (r : Reading) : Except UsageError Reading :=
  match r.pending with
  | none => .ok r
  | some (_, none) => .error .invalidValue
  | some (s, some value) => { r with pending := none }.assign s value

def askHelp (r : Reading) : Except UsageError Reading := do
  let _ ← r.resolve
  .error .help

def readOption (r : Reading) (name : String) (value : Option String) : Except UsageError Reading :=
  match Setting.all.find? fun s => s.option = name, value with
  | some s, some value => do (← r.resolve).assign s value
  | some s, none => do .ok { (← r.resolve) with pending := some (s, none) }
  | none, value =>
    if name = "help" then if value.isSome then .error .unexpectedValue else r.askHelp
    else .error .unknownArgument

def readValue (r : Reading) (value : String) : Except UsageError Reading :=
  match r.pending with
  | some (s, none) => .ok { r with pending := some (s, some value) }
  | _ => .error .unknownArgument

def splitOption (cs : List Char) : String × Option String :=
  match cs.dropWhile (· ≠ '=') with
  | [] => (String.ofList cs, none)
  | _ :: value => (String.ofList (cs.takeWhile (· ≠ '=')), some (String.ofList value))

/-- Reads arguments; behind two hyphens alone nothing may follow. -/
def readAll (r : Reading) : List String → Except UsageError Reading
  | [] => r.resolve
  | arg :: rest =>
    match arg.toList with
    | ['-', '-'] => if rest.isEmpty then r.resolve else .error .unknownArgument
    | '-' :: '-' :: cs => do
      let (name, value) := splitOption cs
      (← r.readOption name value).readAll rest
    | '-' :: 'h' :: _ => r.askHelp
    | '-' :: _ :: _ => .error .unknownArgument
    | _ => do (← r.readValue arg).readAll rest

def readEnvironment (r : Reading) (environment : Setting → Option String) :
    List Setting → Except UsageError Reading
  | [] => .ok r
  | s :: rest =>
    match r.given.contains s, environment s with
    | false, some value => do (← r.assign s value).readEnvironment environment rest
    | _, _ => r.readEnvironment environment rest

end Reading

def ofArguments (arguments : List String) (environment : Setting → Option String) :
    Except UsageError Config := do
  let r ← Reading.start.readAll arguments
  .ok (← r.readEnvironment environment Setting.all).config

end Config

end Rota
