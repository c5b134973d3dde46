import Muezzin.Daemon.Run
import Muezzin.Preview
import Std.Time.DateTime.Timestamp

/-!
# The program

Without arguments this is the daemon. Signals are lines on the standard input, `hup`, `term` and
`int`, and its end terminates the daemon too. The log goes to the standard output. Players are not
started from here: the command line of one is written out after `PLAY`, for the shell around the
daemon to run. With the argument `preview` the program prints the preview and ends.
-/

namespace Muezzin.Program

/-- What the operating system says of a failed access. Only a directory can be opened and not be
read, and only a failure to open names the file. -/
def pathFault : IO.Error → PathFault
  | .permissionDenied .. => .permissionDenied
  | .inappropriateType none .. => .isDirectory
  | .inappropriateType .. => .notDirectory
  | .invalidArgument .. => .nameTooLong
  | _ => .notFound

def readFile (path : String) : IO (Except PathFault ByteArray) := do
  try
    return .ok (← IO.FS.readBinFile path)
  catch e => return .error (pathFault e)

def pathKind? (path : String) : IO (Option PathKind) := do
  try
    let real ← IO.FS.realPath path
    return some (if ← real.isDir then .directory else .file)
  catch _ => return none

def dataFiles (c : DaemonConfig) : List String :=
  c.timesFile.toList ++ c.settingsFile.toList

def probedPaths (c : DaemonConfig) : List String :=
  let audio := c.scheduler.audio
  let files := [audio.azanFile, audio.fajrAzanFile] ++ audio.announcementFiles.toList.map (·.2)
  (dataFiles c).filterMap Path.parent? ++ c.audioDir.toList ++
    files.map (NotifierConfig.resolve c.audioDir)

/-- The host as it is now, as far as the daemon asks about it. -/
def observe (c : DaemonConfig) : IO Host := do
  let contents ← (dataFiles c).mapM fun path => return (path, ← readFile path)
  let kinds ← (probedPaths c).mapM fun path => return (path, ← pathKind? path)
  return {
    read := fun path => (contents.lookup path).getD (.error .notFound)
    kind? := fun path => (kinds.lookup path).getD none
    launch := fun _ _ => .ok () }

def variableNames : List String :=
  ["IQAMAH_TIMES_FILE", "IQAMAH_SETTINGS_FILE", "IQAMAH_UTC_OFFSET_MINUTES",
   "IQAMAH_ROLLOVER_TIME", "IQAMAH_CLOCK_OFFSET_SECS", "IQAMAH_PLAYER_COMMAND",
   "IQAMAH_PLAYER_ARGS", "IQAMAH_AUDIO_DIR", "IQAMAH_AZAN_FILE", "IQAMAH_FAJR_AZAN_FILE",
   "IQAMAH_LOG_LEVEL"]

def readEnvironment : IO Environment := do
  let values ← variableNames.mapM fun name => return (name, ← IO.getEnv name)
  return ⟨fun name => (values.lookup name).getD none⟩

def readClock : IO Instant := do
  let now ← Std.Time.Timestamp.now
  return ⟨now.toMillisecondsSinceUnixEpoch.val, .utc⟩

def writeLog (c : DaemonConfig) (lines : List LogLine) : IO Unit := do
  for line in LogLine.visible c.level lines do
    IO.println line.render
  (← IO.getStdout).flush

def writeCommands (c : DaemonConfig) (host : Host) (actions : List Action) : IO Unit := do
  for (_, file) in actions.filterMap Action.delivery? do
    match c.scheduler.notifier, c.scheduler.notifier.deliver host file with
    | .command program args audioDir, .ok _ =>
      let words := program :: args ++ [NotifierConfig.resolve audioDir file]
      IO.println ("PLAY " ++ " ".intercalate words)
    | _, _ => pure ()
  (← IO.getStdout).flush

/-- The signal of a line; the end of the input terminates. -/
def signal? (line : String) : Option Signal :=
  match String.ofList (Text.trim line.toList) with
  | "hup" => some .hangup
  | "int" => some .interrupt
  | "term" => some .terminate
  | _ => if line.isEmpty then some .terminate else none

def pause : UInt32 := 250

partial def serve (d : Daemon) (input : Task (Except IO.Error String)) : IO ExitCode := do
  let host ← observe d.config
  let (d, actions) := d.advance host (← readClock)
  writeLog d.config (Daemon.report d.config host actions)
  writeCommands d.config host actions
  if ← IO.hasFinished input then
    let line := match input.get with
      | .ok line => line
      | .error _ => ""
    match signal? line with
    | none => serve d (← IO.asTask (do (← IO.getStdin).getLine))
    | some s =>
      let (next, actions) := d.receive host s
      writeLog d.config (d.signalLines host s actions)
      if s.isStop then return next.exit
      writeCommands d.config host actions
      serve next (← IO.asTask (do (← IO.getStdin).getLine))
  else
    IO.sleep pause
    serve d input

def runDaemon : IO ExitCode := do
  match DaemonConfig.ofEnvironment (← readEnvironment) with
  | .error e =>
    IO.eprintln e.complaint
    return .badConfiguration
  | .ok c =>
    let host ← observe c
    for message in c.errorMessages host do
      IO.eprintln message
    if !(c.validate host).isOk then return .badConfiguration
    let now ← readClock
    match Daemon.start c host now with
    | .error fault =>
      let (lines, exit) := Daemon.endAtStart fault
      writeLog c lines
      return exit
    | .ok (d, actions) =>
      writeLog c (d.startLines host actions)
      serve d (← IO.asTask (do (← IO.getStdin).getLine))

def runPreview : IO ExitCode := do
  match Preview.lines with
  | .ok lines =>
    for line in lines do
      IO.println line
    return .clean
  | .error e =>
    IO.eprintln e.message
    return .badConfiguration

end Muezzin.Program

def main (args : List String) : IO UInt32 := do
  let code ← if args = ["preview"] then Muezzin.Program.runPreview else Muezzin.Program.runDaemon
  return code.toNat.toUInt32
