import BurstEnergy.Burst.Segmentation
import BurstEnergy.CutPoint
import BurstEnergy.Profile
import BurstEnergy.Traffic

/-!
# Causes of bursts

The cycles that bursts repeat in, and the category of every burst.
-/

/-! ## Periodic transfers

A burst is periodic when it continues a chain of earlier bursts spaced one cycle apart. The cycle
is the distance to some earlier burst, the anchor, and must lie between the least cycle and that
plus the tolerance. Each further link is the burst nearest to one cycle before the last, and it
may be off by the tolerance at most. The nearest anchor whose chain is long enough decides.
-/
namespace BurstEnergy.Periodicity
variable {α : Type} [Scalar α]

/-- What counts as a repetition. -/
structure Detector (α : Type) where
  minCycle : α
  tolerance : α
  /-- The number of earlier bursts in a chain. -/
  minSamples : Nat
  deriving DecidableEq

/-- A detector; at least one earlier burst is always asked for. -/
def Detector.make (minCycle tolerance : α) (minSamples : Nat) : Detector α :=
  ⟨minCycle, tolerance, max minSamples 1⟩

def Detector.ofThresholds (t : Profile.Thresholds α) : Detector α :=
  .make t.periodMinCycle t.periodCycleTolerance t.periodMinSamples

/-- The better of the neighbours of a cut: the one below it when that is at least as near. -/
def nearerNeighbour (times : List α) (target : α) (split : Nat) : Option Nat :=
  let below? := if split = 0 then none else times[split - 1]?
  match below?, times[split]? with
  | some below, some above =>
    if target - below ≤ above - target then some (split - 1) else some split
  | some _, none => some (split - 1)
  | none, some _ => some split
  | none, none => none

/-- The position of the time nearest to a target, if it is within the tolerance. The times are
expected in ascending order. -/
def nearestWithin (times : List α) (target tolerance : α) : Option Nat := do
  let best ← nearerNeighbour times target (cutLength (fun t => decide (t < target)) times)
  let time ← times[best]?
  if Scalar.magnitude (time - target) ≤ tolerance then some best else none

/-- Walk `links` further links back from a chain member. -/
def walkBack (times : List α) (cycle tolerance : α) : Nat → Nat → Option Nat
  | 0, current => some current
  | links + 1, current => do
    let time ← times[current]?
    let earlier ← nearestWithin (times.take current) (time - cycle) tolerance
    walkBack times cycle tolerance links earlier

/-- The earliest member of the chain that starts at an anchor, if the chain is long enough. -/
def chainStart (d : Detector α) (times : List α) (anchor : Nat) (cycle : α) : Option Nat :=
  walkBack times cycle d.tolerance (d.minSamples - 1) anchor

/-- Try the anchors before position `anchors`, the nearest first. A distance below the least cycle
is passed over, one above the greatest ends the search. The cycle found is the mean over the
chain. -/
def searchAnchors (d : Detector α) (times : List α) (t : α) : Nat → Option α
  | 0 => none
  | anchor + 1 => do
    let cycle := t - (← times[anchor]?)
    if cycle < d.minCycle then searchAnchors d times t anchor
    else if d.minCycle + d.tolerance < cycle then none
    else
      match chainStart d times anchor cycle with
      | some first => do return (t - (← times[first]?)) / (d.minSamples : α)
      | none => searchAnchors d times t anchor

/-- The cycle that the burst at a position continues. -/
def cycleAt (d : Detector α) (times : List α) (index : Nat) : Option α := do
  searchAnchors d times (← times[index]?) index

/-- The result of a detection: a cycle for each burst that repeats something, and the shortest of
them, zero when there is none. -/
structure Result (α : Type) where
  cycles : List (Option α)
  minimumRepeatTime : α
  deriving DecidableEq

namespace Result

def nothing : Result α := ⟨[], 0⟩

/-- The cycle of the burst at a position, none beyond the last. -/
def cycle (r : Result α) (index : Nat) : Option α := r.cycles[index]?.join

/-- Some burst repeats. -/
def found (r : Result α) : Bool := decide (0 < r.minimumRepeatTime)

end Result

def shortest? : List α → Option α
  | [] => none
  | c :: rest => some (rest.foldl Scalar.smaller c)

/-- Detect the cycles of bursts from their begin times. -/
def detect (d : Detector α) (times : List α) : Result α :=
  let cycles := (List.range times.length).map (cycleAt d times)
  ⟨cycles, (shortest? (cycles.filterMap id)).getD 0⟩

@[simp] theorem length_cycles_detect (d : Detector α) (times : List α) :
    (detect d times).cycles.length = times.length := by simp [detect]

end BurstEnergy.Periodicity

/-! ## Classification

Every burst gets exactly one category. The rules are tried in this order, and the first that
applies decides: it is the first burst of the trace that starts within the rotation window after
a screen rotation; all its packets are connection control; a user input falls between its begin
less the input window and its end; it continues a repeat cycle; it is long or large; anything
else. What one burst hands on to the next is the `History`.
-/
namespace BurstEnergy.Classification
open Traffic (Packet Timeline Markers)
variable {α : Type} [Scalar α]

/-- What is remembered of the bursts classified so far. -/
structure History (α : Type) where
  /-- When the burst due to a screen rotation began. -/
  rotationBurstTime : Option α
  /-- The length of the run of user-input bursts that is going on. -/
  userInputRun : Nat
  /-- The length of the longest such run. -/
  maxUserInputRun : Nat
  deriving DecidableEq

namespace History

def start : History α := ⟨none, 0, 0⟩

def advance (history : History α) (category : Category) (beginTime : α) : History α :=
  let run := if category = .userInput then history.userInputRun + 1 else 0
  { rotationBurstTime :=
      if category = .screenRotation then some (history.rotationBurstTime.getD beginTime)
      else history.rotationBurstTime
    userInputRun := run
    maxUserInputRun := max history.maxUserInputRun run }

end History

/-- The last event at or before `t` lies at most `window` seconds back. -/
def followsEvent (events : List α) (t window : α) : Bool :=
  match cutLength (fun e => decide (e ≤ t)) events with
  | 0 => false
  | last + 1 => events[last]?.any fun e => decide (t - e ≤ window)

/-- The first event from `start` on lies no later than `stop`. -/
def anyEventIn (events : List α) (start stop : α) : Bool :=
  events[cutLength (fun e => decide (e < start)) events]?.any fun e => decide (e ≤ stop)

/-- The category of a burst with these packets, given the cycle it continues and the history. -/
def categorize (t : Profile.Thresholds α) (markers : Markers α) (burst : Burst α)
    (members : List (Packet α)) (cycle : Option α) (history : History α) : Category :=
  if history.rotationBurstTime.isNone
      && followsEvent markers.screenRotations burst.beginTime t.screenRotationWindow then
    .screenRotation
  else if !members.isEmpty && members.all (·.controlOnly) then .tcpProtocolOnly
  else if anyEventIn markers.userInputs (burst.beginTime - t.userInputWindow) burst.endTime then
    .userInput
  else if cycle.isSome then .periodic
  else if t.longBurstDuration ≤ burst.duration ∨ t.largeBurstSize ≤ burst.bytes then .longBurst
  else .other

/-- The outcome of classifying the bursts of a trace. -/
structure Result (α : Type) where
  bursts : List (Burst α)
  periodicity : Periodicity.Result α
  history : History α
  deriving DecidableEq

/-- Classify bursts in order, each with the cycle detected for it. -/
def classifyFrom (t : Profile.Thresholds α) (timeline : Timeline α) (markers : Markers α)
    (history : History α) : List (Burst α × Option α) → List (Burst α) × History α
  | [] => ([], history)
  | (burst, cycle) :: rest =>
    let category := categorize t markers burst (burst.members timeline) cycle history
    let (classified, final) :=
      classifyFrom t timeline markers (history.advance category burst.beginTime) rest
    ({ burst with category := category } :: classified, final)

def classify (t : Profile.Thresholds α) (bursts : List (Burst α)) (timeline : Timeline α)
    (markers : Markers α) : Result α :=
  let periodicity := Periodicity.detect (.ofThresholds t) (bursts.map (·.beginTime))
  let (classified, history) :=
    classifyFrom t timeline markers .start (bursts.zip periodicity.cycles)
  ⟨classified, periodicity, history⟩

end BurstEnergy.Classification
