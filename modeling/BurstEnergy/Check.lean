import BurstEnergy.Report

/-!
# Checks of a finished report

Each check lists what it found wrong, and nothing when the report is in order: the intervals tile
the trace, the bursts partition its packets in order, every share of time is a fraction and the
shares add up to one, and no energy is negative or charged twice.
-/
namespace BurstEnergy
open Radio (StateInterval)
open Traffic (Trace Packet)

/-- Something wrong with a report. -/
inductive Violation (α : Type) where
  | noIntervals
  | firstStart (time : α)
  | lastStop (time duration : α)
  | gap (index : Nat) (stop start : α)
  | emptyInterval (index : Nat)
  | coverage (covered duration : α)
  | burstStart (index first expected : Nat)
  | burstWithoutPackets (index : Nat)
  | burstBounds (index : Nat)
  | controlWithPayload (index : Nat)
  | packetCoverage (covered total : Nat)
  | overlap (index : Nat)
  | ratioRange (name : String) (ratio : α)
  | ratioSum (sum : α)
  | negativePromotion (ratio : α)
  | excessEnergy (bursts radio : α)
  | negativeEnergy (index : Nat) (energy : α)
  deriving DecidableEq

def Violation.message : Violation Float → String
  | noIntervals => "no state intervals"
  | firstStart t => s!"first interval starts at {Decimal.messageText t}"
  | lastStop t d =>
    s!"last interval ends at {Decimal.messageText t} not {Decimal.messageText d}"
  | gap i stop start =>
    s!"gap between interval {i} ending {Decimal.messageText stop} "
      ++ s!"and next starting {Decimal.messageText start}"
  | emptyInterval i => s!"interval {i} is empty"
  | coverage covered d =>
    s!"intervals cover {Decimal.messageText covered} of {Decimal.messageText d}"
  | burstStart i first expected => s!"burst {i} starts at packet {first} not {expected}"
  | burstWithoutPackets i => s!"burst {i} has no packets"
  | burstBounds i => s!"burst {i} bounds disagree with its packets"
  | controlWithPayload i => s!"burst {i} is TcpProtocolOnly but carries payload"
  | packetCoverage covered total => s!"bursts cover {covered} of {total} packets"
  | overlap i => s!"bursts {i} and {i + 1} overlap"
  | ratioRange name ratio => s!"{name} ratio {Decimal.messageText ratio} out of range"
  | ratioSum total => s!"state ratios sum to {Decimal.messageText total}"
  | negativePromotion ratio => s!"negative promotion ratio {Decimal.messageText ratio}"
  | excessEnergy bursts radio =>
    s!"burst energy {Decimal.messageText bursts} "
      ++ s!"exceeds radio energy {Decimal.messageText radio}"
  | negativeEnergy i energy =>
    s!"burst {i} has negative energy {Decimal.messageText energy}"

namespace Check
variable {α : Type} [Scalar α]

/-- How far sums may be off. -/
def tolerance : α := 0.000001

def require (ok : Prop) [Decidable ok] (v : Violation α) : List (Violation α) :=
  if ok then [] else [v]

def forbid (bad : Prop) [Decidable bad] (v : Violation α) : List (Violation α) :=
  if bad then [v] else []

/-- Neighbours that do not share an endpoint; the first interval has number `index`. -/
def gaps (index : Nat) : List (StateInterval α) → List (Violation α)
  | i :: next :: rest =>
    require (Scalar.Agree i.stop next.start) (.gap index i.stop next.start)
      ++ gaps (index + 1) (next :: rest)
  | _ => []

/-- Intervals without length; the first one has number `index`. -/
def empties (index : Nat) : List (StateInterval α) → List (Violation α)
  | [] => []
  | i :: rest => forbid (i.duration ≤ 0) (.emptyInterval index) ++ empties (index + 1) rest

def covered (intervals : List (StateInterval α)) : α := Scalar.sum (intervals.map (·.duration))

/-- Intervals are contiguous, have length unless there is only one, and cover the trace. -/
def tiling (intervals : List (StateInterval α)) (duration : α) : List (Violation α) :=
  match intervals.head?, intervals.getLast? with
  | some first, some last =>
    require (Scalar.Agree first.start 0) (.firstStart first.start)
      ++ require (Scalar.Agree last.stop duration) (.lastStop last.stop duration)
      ++ gaps 0 intervals
      ++ (if 1 < intervals.length then empties 0 intervals else [])
      ++ forbid (tolerance < Scalar.magnitude (covered intervals - duration))
          (.coverage (covered intervals) duration)
  | _, _ => [.noIntervals]

/-- A time, if there is one, agrees with another. -/
def MatchesTime (p : Option (Packet α)) (t : α) : Prop :=
  match p with
  | some p => Scalar.Agree p.timestamp t
  | none => False

instance (p : Option (Packet α)) (t : α) : Decidable (MatchesTime p t) := by
  unfold MatchesTime
  cases p <;> infer_instance

/-- What is wrong with a burst that has packets: its bounds, or a payload it should not have. -/
def burstContent (trace : Trace α) (index : Nat) (burst : Burst α) : List (Violation α) :=
  let members := burst.members trace.timeline
  require (MatchesTime members.head? burst.beginTime ∧ MatchesTime members.getLast? burst.endTime)
      (.burstBounds index)
    ++ forbid (burst.category = .tcpProtocolOnly ∧ members.any (!·.controlOnly) = true)
      (.controlWithPayload index)

/-- Bursts that do not continue each other at position `expected`; the first one has number
`index`. A burst without packets is passed over. -/
def partition (trace : Trace α) (index expected : Nat) : List (Burst α) → List (Violation α)
  | [] =>
    require (expected = trace.timeline.packets.length)
      (.packetCoverage expected trace.timeline.packets.length)
  | burst :: rest =>
    require (burst.packets.first = expected) (.burstStart index burst.packets.first expected)
      ++ if burst.packets.first < burst.packets.stop then
          burstContent trace index burst ++ partition trace (index + 1) burst.packets.stop rest
        else .burstWithoutPackets index :: partition trace (index + 1) expected rest

/-- Bursts that begin no later than the one before ends; the first one has number `index`. -/
def overlaps (index : Nat) : List (Burst α) → List (Violation α)
  | burst :: next :: rest =>
    forbid (next.beginTime ≤ burst.endTime) (.overlap index)
      ++ overlaps (index + 1) (next :: rest)
  | _ => []

/-- Bursts partition the packets of a trace in order and do not overlap. -/
def bursts (list : List (Burst α)) (trace : Trace α) : List (Violation α) :=
  partition trace 0 0 list ++ overlaps 0 list

def fractions (report : Report α) : List (String × α) :=
  report.statistics.states.map (fun row => (row.state.name, row.ratio))
    ++ [("tail", report.statistics.tailRatio)]

/-- Shares of time are fractions and those of the states add up to one. The promotion ratio is
taken over the active time and may exceed one. -/
def ratios (report : Report α) : List (Violation α) :=
  let s := report.statistics
  let total := Scalar.sum (s.states.map (·.ratio))
  ((fractions report).flatMap fun (name, ratio) =>
      require (0 ≤ ratio ∧ ratio ≤ 1.0 + tolerance) (.ratioRange name ratio))
    ++ forbid (0 < s.duration ∧ (tolerance : α) < Scalar.magnitude (total - 1.0)) (.ratioSum total)
    ++ forbid (s.promotionRatio < 0) (.negativePromotion s.promotionRatio)

/-- Bursts of negative energy; the first one has number `index`. -/
def negativeEnergies (index : Nat) : List (Burst α) → List (Violation α)
  | [] => []
  | burst :: rest =>
    forbid (burst.energy < 0) (.negativeEnergy index burst.energy)
      ++ negativeEnergies (index + 1) rest

/-- The bursts have no more energy than the radio, and none has a negative one. -/
def energy (report : Report α) : List (Violation α) :=
  forbid (report.statistics.totalEnergy + tolerance < report.bursts.totalEnergy)
      (.excessEnergy report.bursts.totalEnergy report.statistics.totalEnergy)
    ++ negativeEnergies 0 report.bursts.bursts

def report (trace : Trace α) (r : Report α) : List (Violation α) :=
  tiling r.states trace.duration ++ bursts r.bursts.bursts trace ++ ratios r ++ energy r

end Check
end BurstEnergy
