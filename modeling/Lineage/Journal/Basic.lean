/-
Lineage.Journal.Basic — the lines of a log file.

A line shows its level, the run and the step it belongs to, its message,
and everything known about it.  What is known comes from four places,
laid one over the other: the standing entries, the context that was
entered, what is bound to the logger, and the call itself.  A message
has its fields filled in only when the call brings values.
-/
import Lineage.Clock
import Lineage.Journal.Template

namespace Lineage

/-- The levels of log lines. -/
inductive Level where
  | trace
  | debug
  | info
  | success
  | warning
  | error
  | critical
  deriving DecidableEq, Repr

namespace Level

/-- All levels, the least first. -/
def all : List Level :=
  [.trace, .debug, .info, .success, .warning, .error, .critical]

/-- The rank of a level. -/
def rank : Level → Nat
  | .trace => 5
  | .debug => 10
  | .info => 20
  | .success => 25
  | .warning => 30
  | .error => 40
  | .critical => 50

/-- The name of a level. -/
def name : Level → String
  | .trace => "TRACE"
  | .debug => "DEBUG"
  | .info => "INFO"
  | .success => "SUCCESS"
  | .warning => "WARNING"
  | .error => "ERROR"
  | .critical => "CRITICAL"

/-- The level of a name. -/
def ofName? (name : Text) : Option Level :=
  all.find? fun l => Text.ofString l.name == name

theorem ofName?_name (l : Level) : ofName? l.name = some l := by
  cases l <;> decide

/-- The name of a level as it stands in a line. -/
def column (l : Level) : Text :=
  let t := Text.ofString l.name
  t ++ List.replicate (8 - t.length) (.char ' ')

end Level

/-- Why a value is no least level. -/
inductive ThresholdFault where
  | unknown (name : Text)
  | negative (rank : Int)
  | kind (kindWord : String)
  deriving DecidableEq, Repr

/-- The wording of a value that is no least level. -/
def ThresholdFault.message : ThresholdFault → Text
  | .unknown name => "Level '" ++ name ++ "' does not exist"
  | .negative rank =>
    "Invalid level value, it should be a positive integer, not: " ++ Text.decimal rank
  | .kind word =>
    "Invalid level, it should be an integer or a string, not: '" ++ Text.ofString word ++ "'"

/-- The least rank that a value names: the name of a level, or a
rank. -/
def readThreshold : Value → Except ThresholdFault Nat
  | .text name =>
    match Level.ofName? name with
    | some level => .ok level.rank
    | none => .error (.unknown name)
  | .int rank => if rank < 0 then .error (.negative rank) else .ok rank.toNat
  | .bool b => .ok (if b then 1 else 0)
  | v => .error (.kind v.kindWord)

/-- What is known about a line, by name. -/
abbrev Known := Keyed Text Value

/-- A call of a logger. -/
structure LogCall where
  level : Level
  message : Text
  /-- What is bound to the logger. -/
  bound : Known := []
  /-- The values that the call brings. -/
  values : Known := []

/-- Why a call fails. -/
inductive JournalFault where
  | template (fault : Template.Fault)
  /-- A timed step is named twice. -/
  | stepTwice
  deriving DecidableEq, Repr

/-- The wording of a call that fails. -/
def JournalFault.message : JournalFault → Text
  | .template fault => fault.message
  | .stepTwice => "log_timing() got multiple values for argument 'step'"

/-- A log file: the least rank of what is written, whether anything is
written at all, the context that was entered, and the lines. -/
structure Journal where
  threshold : Nat
  kept : Bool
  context : Known := []
  lines : List Text := []

namespace Journal

/-- What is known about every line. -/
def standing : Known :=
  [("run_id", .text "-"), ("step", .text "-")]

/-- Everything known about a call: a key keeps its first place and its
last value. -/
def knownAbout (j : Journal) (call : LogCall) : Known :=
  ((standing.putAll j.context).putAll call.bound).putAll call.values

/-- The plain text of something that is known. -/
def shown (known : Known) (key : Text) : Text :=
  match known.get? key with
  | some v => v.plainText
  | none => []

/-- What is known as an object. -/
def toValue (known : Known) : Value :=
  .object (known.map fun (name, v) => (.text name, v))

/-- The line of a call with its message filled in. -/
def line (known : Known) (level : Level) (message : Text) : Text :=
  Text.join " | "
    [level.column, shown known "run_id", shown known "step", message, (toValue known).literal]

/-- Writes a line.  A line with a surrogate has no bytes and is lost. -/
def write (j : Journal) (t : Text) : Journal :=
  if j.kept && !t.isBroken then { j with lines := j.lines ++ [t] } else j

/-- A call is written, unless its level is too low. -/
def log (j : Journal) (call : LogCall) : Except JournalFault Journal :=
  if call.level.rank < j.threshold then .ok j
  else
    match Template.fill call.values call.message with
    | .error fault => .error (.template fault)
    | .ok message => .ok (j.write (line (j.knownAbout call) call.level message))

/-- Enters a context over the one that was entered before. -/
def enter (j : Journal) (context : Known) : Journal :=
  { j with context := j.context.putAll context }

/-- Leaves all contexts. -/
def leave (j : Journal) : Journal :=
  { j with context := [] }

/-- The seconds between two readings of a clock, to four places. -/
def secondsBetween (start stop : Clock) : Double :=
  (stop.seconds.sub start.seconds).roundPlaces 4

/-- The call that tells how long a step took. -/
def timing (step : Text) (bound : Known) (start stop : Clock) : LogCall :=
  { level := .debug
    message := "Step finished"
    bound := bound
    values := [("step", .text step), ("seconds", .float (secondsBetween start stop))] }

/-- What happens to a journal. -/
inductive Event where
  | call (c : LogCall)
  | enter (context : Known)
  | leave
  /-- A step that takes a number of microseconds. -/
  | timed (step : Text) (micros : Int) (bound : Known)

/-- One event: the journal after it, at a time that has passed. -/
def step (j : Journal) (start stop : Clock) : Event → Except JournalFault Journal
  | .call c => j.log c
  | .enter context => .ok (j.enter context)
  | .leave => .ok j.leave
  | .timed step _ bound =>
    if bound.has "step" then .error .stepTwice else j.log (timing step bound start stop)

/-- The time after an event. -/
def after (clock : Clock) : Event → Clock
  | .timed _ micros _ => clock.advance micros
  | _ => clock

/-- Follows events: the journal as far as it got, and the fault that
ended it. -/
def follow (j : Journal) (clock : Clock) : List Event → Journal × Option JournalFault
  | [] => (j, none)
  | event :: rest =>
    match j.step clock (after clock event) event with
    | .error fault => (j, some fault)
    | .ok j => follow j (after clock event) rest

/-- An empty journal with a least level. -/
def ofThreshold (level : Value) (kept : Bool) : Except ThresholdFault Journal :=
  (readThreshold level).map fun rank => ⟨rank, kept, [], []⟩

end Journal

end Lineage
