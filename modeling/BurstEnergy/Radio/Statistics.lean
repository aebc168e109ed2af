import BurstEnergy.Burst.Segmentation
import BurstEnergy.Profile
import BurstEnergy.Radio.Simulation
import BurstEnergy.Radio.State
import BurstEnergy.Traffic

/-!
# Accounts of radio time

The time and energy of a simulation by states, and its energy by bursts.
-/
namespace BurstEnergy.Radio

/-! ## Statistics of the radio

The state intervals of a trace reduced to one row for each state of the family: its time, its
share of the trace, its energy, its tail time and its visits. Ratios over the rows tell how much
of the time after traffic, and how much waking up, the traffic cost.
-/
section Rows
open Traffic (Timeline)
variable {α : Type} [Scalar α]

structure StateTotals (α : Type) where
  state : State
  seconds : α
  /-- `seconds` over the duration of the trace. -/
  ratio : α
  energy : α
  /-- The part of `seconds` spent waiting for an inactivity timer. -/
  tailSeconds : α
  /-- The number of separate visits. -/
  intervals : Nat
  deriving DecidableEq

/-- A state that was never visited. -/
def StateTotals.empty (state : State) : StateTotals α := ⟨state, 0, 0, 0, 0, 0⟩

/-- Ratios that make sense for one family only. -/
inductive FamilyRatios (α : Type) where
  | umts (dchTailRatio fachTailRatio : α)
  | lte (crTailRatio shortDrxRatio longDrxRatio : α)
  | wifi (activeRatio tailRatio idleRatio : α)
  deriving DecidableEq

structure Statistics (α : Type) where
  family : Family
  duration : α
  /-- One row for each state of the family. -/
  states : List (StateTotals α)
  totalEnergy : α
  /-- Tail after traffic over that tail and the transfers. -/
  tailRatio : α
  /-- Promotion time over the time in the active state. -/
  promotionRatio : α
  familyRatios : FamilyRatios α
  deriving DecidableEq

/-- The energy of an interval, with the packets seen in it. -/
def StateInterval.cost (model : EnergyModel α) (timeline : Timeline α) (i : StateInterval α) : α :=
  model i.start i.stop i.state (timeline.between i.start i.stop)

namespace StateTotals

def ofIntervals (model : EnergyModel α) (timeline : Timeline α) (duration : α)
    (intervals : List (StateInterval α)) (state : State) : StateTotals α :=
  let visits := intervals.filter (·.state = state)
  let seconds := Scalar.tally (visits.map (·.duration))
  { state := state
    seconds := seconds
    ratio := Scalar.share seconds duration
    energy := Scalar.tally (visits.map (·.cost model timeline))
    tailSeconds := Scalar.tally ((visits.filter (·.tail)).map (·.duration))
    intervals := visits.length }

/-- The row of a state in a list of rows, an empty one if it has none. -/
def lookup (rows : List (StateTotals α)) (state : State) : StateTotals α :=
  (rows.find? (·.state = state)).getD (.empty state)

def promotionSeconds (rows : List (StateTotals α)) : α :=
  Scalar.sum ((rows.filter (·.state.isPromotion)).map (·.seconds))

end StateTotals

/-- The ratios of a family over its rows. -/
def FamilyRatios.ofRows (family : Family) (rows : List (StateTotals α)) : FamilyRatios α :=
  let row := StateTotals.lookup rows
  match family with
  | .cellular3G =>
    let dch := row .dch
    let fach := row .fach
    .umts (Scalar.share dch.tailSeconds dch.seconds) (Scalar.share fach.tailSeconds fach.seconds)
  | .cellularLte =>
    let transfer := row .continuousReception
    let tail := row .continuousReceptionTail
    let short := row .shortDrx
    let long := row .longDrx
    let drx := short.seconds + long.seconds
    .lte (Scalar.share tail.seconds (transfer.seconds + tail.seconds))
      (Scalar.share short.seconds drx) (Scalar.share long.seconds drx)
  | .wifi => .wifi (row .wifiActive).ratio (row .wifiTail).ratio (row .wifiIdle).ratio

namespace Statistics

/-- Reduce the intervals of a simulation. Intervals in states of another family are left out. -/
def reduce (ladder : Ladder α) (model : EnergyModel α) (intervals : List (StateInterval α))
    (timeline : Timeline α) (duration : α) : Statistics α :=
  let known := intervals.filter fun i => ladder.family.states.contains i.state
  let rows := ladder.family.states.map (.ofIntervals model timeline duration intervals)
  let active := StateTotals.lookup rows ladder.active
  let transfer := active.seconds - active.tailSeconds
  let tail :=
    match ladder.firstTail with
    | some state => (StateTotals.lookup rows state).tailSeconds
    | none => 0
  { family := ladder.family
    duration := duration
    states := rows
    totalEnergy := Scalar.tally (known.map (·.cost model timeline))
    tailRatio := Scalar.share tail (tail + transfer)
    promotionRatio := Scalar.share (StateTotals.promotionSeconds rows) active.seconds
    familyRatios := .ofRows ladder.family rows }

def row? (s : Statistics α) (state : State) : Option (StateTotals α) :=
  s.states.find? (·.state = state)

/-- The seconds in a state, zero for a state of another family. -/
def seconds (s : Statistics α) (state : State) : α := ((s.row? state).map (·.seconds)).getD 0

def ratio (s : Statistics α) (state : State) : α := ((s.row? state).map (·.ratio)).getD 0

def energy (s : Statistics α) (state : State) : α := ((s.row? state).map (·.energy)).getD 0

def promotionSeconds (s : Statistics α) : α := StateTotals.promotionSeconds s.states

end Statistics

end Rows

/-! ## Energy charged to bursts

Each burst is charged for the radio time it causes: from the start of the promotion that woke the
radio for it, or from its begin when it paid none, until the charge of the next burst starts. The
last burst keeps all up to the end of the trace.
-/
section Charges
open Traffic (Timeline)
variable {α : Type}

namespace Attribution

/-- The spans charged to bursts that start at these times: each up to the next, the last up to
the end of the trace. -/
def spans (duration : α) : List α → List (α × α)
  | [] => []
  | start :: rest => (start, rest.head?.getD duration) :: spans duration rest

@[simp] theorem length_spans (duration : α) (starts : List α) :
    (spans duration starts).length = starts.length := by
  induction starts with
  | nil => rfl
  | cons start rest ih => simp [spans, ih]

variable [Scalar α]

/-- The start of the promotion that ends at `begin`, or `begin` itself. -/
def chargeStart (intervals : List (StateInterval α)) (beginTime : α) : α :=
  match cutLength (fun i => decide (i.stop ≤ beginTime)) intervals with
  | 0 => beginTime
  | last + 1 =>
    match intervals[last]? with
    | some i =>
      if Scalar.Agree i.stop beginTime ∧ i.state.isPromotion = true then i.start else beginTime
    | none => beginTime

/-- The intervals that overlap the span from `start` to `stop`, clipped to it. -/
def clipped (intervals : List (StateInterval α)) (start stop : α) : List (StateInterval α) :=
  let first := cutLength (fun i => decide (i.stop ≤ start)) intervals
  ((intervals.drop first).takeWhile fun i => decide (i.start < stop)).map fun i =>
    { i with start := Scalar.larger i.start start, stop := Scalar.smaller i.stop stop }

def spanEnergy (model : EnergyModel α) (intervals : List (StateInterval α)) (timeline : Timeline α)
    (start stop : α) : α :=
  Scalar.sum ((clipped intervals start stop).map (·.cost model timeline))

def charge (model : EnergyModel α) (intervals : List (StateInterval α)) (timeline : Timeline α)
    (duration : α) (bursts : List (Burst α)) : List (Burst α) :=
  let starts := bursts.map fun b => chargeStart intervals b.beginTime
  (bursts.zip (spans duration starts)).map fun (burst, start, stop) =>
    { burst with energy := spanEnergy model intervals timeline start stop }

end Attribution

end Charges

end BurstEnergy.Radio
