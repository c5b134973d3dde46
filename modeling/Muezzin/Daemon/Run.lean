import Muezzin.Daemon.Environment
import Muezzin.Engine.Loop
import Muezzin.Host.Clock
import Muezzin.Notifier

/-!
# The daemon from start to end

The daemon runs the loop on files and on the host's clock, which may be shifted for rehearsals. It
rebuilds the schedule when it is hung up and ends when it is told to terminate or interrupted. Bad
configuration ends it with a code of its own before anything is scheduled; what the files hold never
does. A loop whose clock cannot be read is broken off; the daemon finds out when it wants to end.
-/

namespace Muezzin

inductive ExitCode where
  | clean
  | badConfiguration
  | failure
  /-- The program was broken off and did not choose the code. -/
  | brokenOff
  deriving DecidableEq, Repr

def ExitCode.toNat : ExitCode → Nat
  | clean => 0
  | badConfiguration => 1
  | failure => 2
  | brokenOff => 101

inductive Signal where
  | hangup
  | terminate
  | interrupt
  deriving DecidableEq, Repr

namespace Signal

def name : Signal → String
  | hangup => "SIGHUP"
  | terminate => "SIGTERM"
  | interrupt => "SIGINT"

/-- Every signal but the hangup ends the daemon. -/
def isStop (s : Signal) : Bool :=
  s != hangup

end Signal

/-- What a running daemon meets: its clock goes on, or a signal comes. -/
inductive Occurrence where
  | tick (now : Instant)
  | signal (s : Signal)
  deriving DecidableEq, Repr

def Occurrence.isStop : Occurrence → Bool
  | tick _ => false
  | signal s => s.isStop

/-- What is left of a loop whose timers are broken off. -/
def Loop.withoutTimers (l : Loop) : Loop :=
  let registry := l.engine.registry
  let timers := { registry.timers with pending := [] }
  { l with engine := { l.engine with registry := registry.withTimers timers } }

structure Daemon where
  config : DaemonConfig
  clock : HostClock
  now : Instant
  /-- The loop, unless it is broken off. -/
  loop : Option Loop
  deriving DecidableEq

namespace Daemon

def inputs (c : DaemonConfig) (host : Host) : Inputs :=
  c.scheduler.inputs host

def sourceName (c : DaemonConfig) : String :=
  c.scheduler.prayerSource.name

def notifierName (c : DaemonConfig) : String :=
  c.scheduler.notifier.name

/-- A listener of the daemon notes when a day has nothing but its rollover. -/
def listenerLines : Action → List LogLine
  | .rebuilt _ scheduled _ _ => if scheduled ≤ 1 then [.info "Nothing to announce today"] else []
  | _ => []

def logLines (c : DaemonConfig) (actions : List Action) : List LogLine :=
  actions.flatMap fun a =>
    a.logLines (sourceName c) (notifierName c) ++ listenerLines a

def deliveryLines (c : DaemonConfig) (host : Host) (r : Registration) (file : String) :
    List LogLine :=
  match c.scheduler.notifier.deliver host file with
  | .error e => [.error s!"Failed to deliver {file} for {r.key}: {e}"]
  | .ok _ =>
    match c.scheduler.notifier with
    | .log => [.info s!"Playing {file}"]
    | .command _ _ _ => []

/-- The lines of the actions, and then of the deliveries that they start. -/
def report (c : DaemonConfig) (host : Host) (actions : List Action) : List LogLine :=
  logLines c actions ++
    (actions.filterMap Action.delivery?).flatMap fun d => deliveryLines c host d.1 d.2

def renderReading (i : Instant) : String :=
  let seconds := Text.padLeft 2 (i.millisOfDay / 1000 % 60).toNat
  i.date.render ++ " " ++ i.renderClock ++ ":" ++ seconds

def tellsReading (c : DaemonConfig) : Bool :=
  c.clockOffsetSecs != 0 && c.level.rank ≤ LogLevel.warn.rank

def shiftLines (c : DaemonConfig) (reading : Instant) : List LogLine :=
  if c.clockOffsetSecs = 0 then []
  else
    let shift := c.clockOffsetSecs.toInt
    [.warn s!"Clock shifted by {shift}s for testing, local time reads {renderReading reading}"]

def startingLine : LogLine :=
  .info "Starting iqamahd daemon"

def openingLines (c : DaemonConfig) (clock : HostClock) (reading : Option Instant) :
    List LogLine :=
  let zone := clock.zone.render
  startingLine :: (reading.toList.flatMap (shiftLines c) ++
    [.info ("Prayer source: " ++ sourceName c), .info ("Notifier: " ++ notifierName c),
     .info s!"Timezone: UTC{zone}, rollover at {c.rolloverTime}"])

/-- Starts when the host's clock stands at `now`. If the clock cannot be read, whoever reads it
first is broken off: the start if it tells the reading, and else the loop. -/
def start (c : DaemonConfig) (host : Host) (now : Instant) :
    Except ClockFault (Daemon × List Action) := do
  let clock ← HostClock.ofConfig c.scheduler.engine
  match clock.read? now with
  | some reading =>
    let engine ← (Engine.new c.scheduler reading).mapError .refused
    let (loop, actions) := Loop.start engine (inputs c host)
    .ok (⟨c, clock, now, some loop⟩, actions)
  | none =>
    if tellsReading c then .error .outOfCalendar else .ok (⟨c, clock, now, none⟩, [.started])

/-- The host's clock moves to `now`, and the timers that fire on the way are handled. A clock that
cannot be read breaks off the timers that wait on it. -/
def advance (d : Daemon) (host : Host) (now : Instant) : Daemon × List Action :=
  match d.loop, d.clock.read? now with
  | none, _ => ({ d with now }, [])
  | some loop, none => ({ d with now, loop := some loop.withoutTimers }, [])
  | some loop, some reading =>
    let moved := (loop.engine.advanceTo reading).2
    let (loop, actions) := { loop with engine := moved }.settle (inputs d.config host)
    ({ d with now, loop := some loop }, actions)

/-- Acts on a signal: a hangup asks for a rebuild, which reads the clock, and any other ends the
loop. -/
def receive (d : Daemon) (host : Host) (s : Signal) : Daemon × List Action :=
  match d.loop with
  | none => (d, [])
  | some loop =>
    if s.isStop then
      let (loop, actions) := loop.stop (inputs d.config host)
      ({ d with loop := some loop }, actions)
    else if (d.clock.read? d.now).isSome then
      let asked := loop.engine.request (.reschedule s.name)
      let (loop, actions) := { loop with engine := asked }.settle (inputs d.config host)
      ({ d with loop := some loop }, actions)
    else ({ d with loop := none }, [.rescheduling s.name])

def startLines (d : Daemon) (host : Host) (actions : List Action) : List LogLine :=
  openingLines d.config d.clock (d.clock.read? d.now) ++ report d.config host actions

/-- The lines of a signal and of what it made the daemon do. Files that are handed off when the
daemon ends are not delivered any more. -/
def signalLines (d : Daemon) (host : Host) (s : Signal) (actions : List Action) : List LogLine :=
  if s.isStop then
    let ending :=
      if d.loop.isSome then [.info "Shutting down daemon"]
      else [.error "Daemon error: Engine task panicked"]
    .info s!"Received shutdown signal: {s.name}" :: (logLines d.config actions ++ ending)
  else
    let answer :=
      if d.loop.isSome then report d.config host actions
      else [.warn "Engine is not running, reschedule ignored"]
    .info s!"Received {s.name}, rescheduling" :: answer

def meet (d : Daemon) (host : Host) : Occurrence → Daemon × List LogLine
  | .tick now =>
    let (next, actions) := d.advance host now
    (next, report d.config host actions)
  | .signal s =>
    let (next, actions) := d.receive host s
    (next, d.signalLines host s actions)

/-- A daemon ends well if its loop has got to its end. -/
def exit (d : Daemon) : ExitCode :=
  if d.loop.isSome then .clean else .failure

end Daemon

structure DaemonRun where
  errorLines : List String
  log : List (List LogLine)
  exit : ExitCode
  deriving DecidableEq, Repr

namespace Daemon

/-- Acts on what occurs until a signal ends the run; the host is as it is when it occurs. Without
such a signal the run is terminated in the end. -/
def serve (d : Daemon) (host : Host) :
    List (Occurrence × Host) → List (List LogLine) × ExitCode
  | [] =>
    let (last, lines) := d.meet host (.signal .terminate)
    ([lines], last.exit)
  | (o, host) :: rest =>
    let (next, lines) := d.meet host o
    if o.isStop then ([lines], next.exit)
    else
      let (log, exit) := next.serve host rest
      (lines :: log, exit)

def linesOf (messages : List String) : List String :=
  messages.flatMap fun message => (Text.lines message.toList).map String.ofList

def endAtStart : ClockFault → List LogLine × ExitCode
  | .refused e => ([startingLine, .error s!"Daemon error: {e}"], .failure)
  | .shiftTooLong _ | .outOfCalendar => ([startingLine], .brokenOff)

def runOn (c : DaemonConfig) (host : Host) (now : Instant)
    (occurrences : List (Occurrence × Host)) : List (List LogLine) × ExitCode :=
  match start c host now with
  | .error fault =>
    let (lines, exit) := endAtStart fault
    ([lines], exit)
  | .ok (d, actions) =>
    let (log, exit) := d.serve host occurrences
    (d.startLines host actions :: log, exit)

/-- A whole run that begins when the host's clock stands at `now`. -/
def run (env : Environment) (host : Host) (now : Instant)
    (occurrences : List (Occurrence × Host)) : DaemonRun :=
  match DaemonConfig.ofEnvironment env with
  | .error e => ⟨linesOf [e.complaint], [], .badConfiguration⟩
  | .ok c =>
    let errorLines := linesOf (c.errorMessages host)
    match c.validate host with
    | .error _ => ⟨errorLines, [], .badConfiguration⟩
    | .ok _ =>
      let (log, exit) := runOn c host now occurrences
      ⟨errorLines, log.map (LogLine.visible c.level), exit⟩

end Daemon

end Muezzin
