/-!
The log of a run. Each line of it tells the run, the phase and the unit at work when it was written.
Phases and units are scopes: leaving one restores what was there before it was entered.
-/

namespace Demacro

/-- What is at work. A dash stands for nothing. -/
structure LogContext where
  run : String := "-"
  phase : String := "-"
  unit : String := "-"
deriving DecidableEq

/-- A scope that was entered, with the value that leaving it restores. -/
inductive LogScope where
  | phase (before : String)
  | unit (before : String)
deriving DecidableEq

/-- A log: what is at work, the open scopes, innermost first, and how messages are written. Messages
below the threshold are dropped. Until the log is configured, lines hold the bare message. -/
structure Log where
  context : LogContext := {}
  scopes : List LogScope := []
  /-- The number of places that each message is written to. -/
  sinks : Nat := 0
  isConfigured : Bool := false
  threshold : Int := 30

namespace Log

/-- The log of another run. Open scopes stay open. -/
def setRun (log : Log) (run : String) : Log :=
  { log with context.run := run }

/-- The log inside a phase. -/
def enterPhase (log : Log) (phase : String) : Log :=
  { log with context.phase := phase, scopes := .phase log.context.phase :: log.scopes }

/-- The log inside a unit. -/
def enterUnit (log : Log) (unit : String) : Log :=
  { log with context.unit := unit, scopes := .unit log.context.unit :: log.scopes }

/-- The log outside the innermost open scope. -/
def leave (log : Log) : Log :=
  match log.scopes with
  | [] => log
  | .phase before :: scopes => { log with context.phase := before, scopes }
  | .unit before :: scopes => { log with context.unit := before, scopes }

/-- The log with a threshold, and with lines that show what is at work. There is at least one place
to write to. -/
def configure (log : Log) (threshold : Int) : Log :=
  { log with isConfigured := true, threshold, sinks := max log.sinks 1 }

/-- The threshold unless another is asked for: informative messages are written. -/
def usualThreshold : Int := 20

/-- The names of levels. -/
def levelNames : List (Int × String) :=
  [(10, "DEBUG"), (20, "INFO"), (30, "WARNING"), (40, "ERROR"), (50, "CRITICAL")]

/-- The name of a level; one without a name of its own is numbered. -/
def levelName (level : Int) : String :=
  (levelNames.lookup level).getD ("Level " ++ toString level)

/-- The name of a source of messages. The nameless one is the root of all. -/
def sourceName (source : String) : String :=
  if source.isEmpty then "root" else source

/-- Whether a message of a level is written. Only positive levels are. -/
def isWritten (log : Log) (level : Int) : Bool :=
  0 < level && log.threshold ≤ level

/-- The line for a message, without its end. -/
def line (log : Log) (time source : String) (level : Int) (message : String) : String :=
  if log.isConfigured then
    " | ".intercalate [time, levelName level, "run_id=" ++ log.context.run,
      "phase=" ++ log.context.phase, "unit=" ++ log.context.unit, sourceName source, message]
  else message

/-- What is written for a message: its line, once for each place. Without any place the line is
written once, to a place of last resort. -/
def write (log : Log) (time source : String) (level : Int) (message : String) : String :=
  if log.isWritten level then
    String.join (List.replicate (max log.sinks 1) (log.line time source level message ++ "\n"))
  else ""

end Log

/-- Leaving a phase undoes entering it. -/
theorem Log.leave_enterPhase (log : Log) (phase : String) : (log.enterPhase phase).leave = log :=
    rfl

/-- Leaving a unit undoes entering it. -/
theorem Log.leave_enterUnit (log : Log) (unit : String) : (log.enterUnit unit).leave = log := rfl

end Demacro
