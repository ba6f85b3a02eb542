import Rota.Config.CommandLine
import Rota.Engine.Timeline
import Rota.Json.Printer
import Rota.Manifest
import Std.Time.DateTime.Timestamp
/-! The command line: an engine that keeps up with the clock of the machine.
It admits a manifest, polls the store and the job queue, and prints what is published. -/
namespace Rota.Main

def environmentPrefix : String := "ROTA_"

def processors : UInt64 := 4

def usage : String :=
  "Usage: rota [OPTIONS]\n\nOptions:\n" ++
    String.join (Setting.all.map fun s => "  --" ++ s.option ++ " <VALUE>  [env: " ++
      environmentPrefix ++ s.environmentName ++ "]\n") ++ "  -h, --help\n"

def describe : UsageError → String
  | .help => usage
  | .unknownArgument => "unexpected argument"
  | .invalidValue => "a value is missing or not allowed"
  | .invalidNumber => "a value is not a number"
  | .givenTwice => "an option is given twice"
  | .unexpectedValue => "an option takes no value"

def readEnvironment : IO (Setting → Option String) := do
  let values ← Setting.all.mapM fun s => do
    return (s, ← IO.getEnv (environmentPrefix ++ s.environmentName))
  return fun s => (values.lookup s).join

def currentInstant : IO Instant := do
  let now ← Std.Time.Timestamp.now
  let nanos := now.toNanosecondsSinceUnixEpoch.toInt
  return (Instant.epoch.addNanos? nanos).getD Instant.epoch

def readFile? (path : String) : IO (Option ByteArray) := do
  try return some (← IO.FS.readBinFile path)
  catch _ => return none

def loadManifest (e : Engine) (path : String) : IO (Except String Engine) := do
  match Manifest.load (← readFile? path) with
  | .error .unreadable => return .error ("Failed to read manifest " ++ path)
  | .error (.fault f) => return .error ("Failed to parse manifest " ++ path ++ ": " ++ f.message)
  | .ok m =>
    match m.apply e with
    | (_, .error r) => return .error r.fullMessage
    | (e, .ok _) => return .ok e

def eventText (format : LogFormat) (e : Event) : String :=
  match format with
  | .json => (Json.object [("payload", e.payload), ("topic", .string e.topic)]).render
  | .text => e.topic ++ " " ++ e.payload.render

def report (format : LogFormat) (e : Engine) : IO Engine := do
  let (_, events, feed) := e.feed.take
  for event in events do
    IO.println (eventText format event)
  unless events.isEmpty do (← IO.getStdout).flush
  return { e with feed := feed }

/-- Goes on for ever; the engine has kept up with the clock until `last`. -/
partial def keepUp (format : LogFormat) (e : Engine) (loops : List Engine.Polling) (last : Nat) :
    IO Unit := do
  IO.sleep 10
  let time ← IO.monoMsNow
  let (e, loops) := e.continueLoops loops (time - last)
  let e ← report format e
  if loops.any Engine.Polling.hasOverflowed then throw (IO.userError "a polling loop has crashed")
  keepUp format e loops time

def run (c : Config) : IO UInt32 := do
  let fail (message : String) : IO UInt32 := do
    IO.eprintln ("Error: " ++ message)
    return 1
  match c.validate processors with
  | .error e => fail ("Invalid configuration: " ++ e.message)
  | .ok () =>
    match Engine.new? (← currentInstant) .builtin c.jobQueueCapacity.toNat c.timeoutUnit
        (c.workerCount processors).toNat (c.poolCapacity processors).toNat with
    | none => fail "a capacity is too large"
    | some e =>
      let admitted ← match c.manifest with
        | some path => loadManifest e path
        | none => pure (.ok e)
      match admitted with
      | .error message => fail message
      | .ok e =>
        let e := { e.start with feed := e.feed.subscribe }
        keepUp c.logFormat e
          [Engine.Polling.start Engine.scheduleTick c.storagePollingMillis e.time,
            Engine.Polling.start Engine.dispatchTick c.jobQueuePollingMillis e.time]
          (← IO.monoMsNow)
        return 0

end Rota.Main

def main (arguments : List String) : IO UInt32 := do
  match Rota.Config.ofArguments arguments (← Rota.Main.readEnvironment) with
  | .ok c => Rota.Main.run c
  | .error .help =>
    IO.print Rota.Main.usage
    return 0
  | .error e =>
    IO.eprintln ("error: " ++ Rota.Main.describe e)
    return 2
