import Crono.OrderedPoints
import Crono.SchedulePlanner
import Crono.TextPatterns
import Mathlib.Order.Interval.Finset.Nat

/-! Five-field cron recurrence in an IANA timezone: the answer of `cron-parser`, which iterates
local time, against a bounded scan of the UTC minutes after the cursor. -/
namespace CronRecurrence

open OrderedPoints
open FallibleLists
open SchedulePlanner (RecurrenceError)
open TextPatterns (whitespace)

-- Every instant is a number of nanoseconds since the Unix epoch.

def second : ℤ := 1000000000
def minute : ℤ := 60 * second
/-- A timezone: its first offset and its transitions, each with the instant of the change and
the offset from then on. Offsets are whole minutes east of UTC. -/
structure Zone where
  initial : ℤ
  transitions : List (ℤ × ℤ)
  deriving DecidableEq, Repr

def Zone.offset (zone : Zone) (u : ℤ) : ℤ :=
  zone.transitions.foldl (fun offset change => if change.1 ≤ u then change.2 else offset)
    zone.initial

/-- The wall clock at an instant, in minutes since the epoch. -/
def Zone.wallMinute (zone : Zone) (u : ℤ) : ℤ := u / minute + zone.offset u

variable (lib : Libraries)

/-- The whole UTC minutes at which the wall clock shows `wall`: none in a gap, several in an
overlap. -/
def Zone.Shows (zone : Zone) (wall : ℤ) : Set ℤ := {u | minute ∣ u ∧ zone.wallMinute u = wall}

variable {lib} {fields : CronFields} {zone : Zone}

end CronRecurrence
