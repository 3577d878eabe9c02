/-
Lineage.Clock — readings of the clock.

The clock counts microseconds.  Time stamps are whole milliseconds,
spans are seconds as doubles; both are taken from the reading in seconds,
which is itself rounded to a double.
-/
import Lineage.Number.Double

namespace Lineage

/-- A reading of the clock, in microseconds. -/
structure Clock where
  micros : Int
  deriving DecidableEq, Repr

namespace Clock

/-- The reading in seconds. -/
def seconds (c : Clock) : Double :=
  .ofRatio (c.micros < 0) c.micros.natAbs 1000000

/-- The time stamp of the reading: whole milliseconds, toward zero. -/
def stamp (c : Clock) : Int :=
  ((c.seconds.mul (.ofInt 1000)).truncate?).getD 0

/-- The clock some microseconds later. -/
def advance (c : Clock) (micros : Int) : Clock :=
  ⟨c.micros + micros⟩

end Clock

end Lineage
