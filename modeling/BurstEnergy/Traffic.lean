import BurstEnergy.CutPoint
import BurstEnergy.Error
import BurstEnergy.Scalar
import BurstEnergy.StableSort

/-!
# Traffic

What is captured: packets, timelines of them, and traces with the events recorded beside them.
-/
namespace BurstEnergy.Traffic

/-! ## Packets

One captured packet: when it was seen, which way it went, how long it was, and whether it is pure
connection control without payload.
-/

/-- Which way a packet travels, seen from the device. -/
inductive Direction where
  | uplink
  | downlink
  deriving DecidableEq, Repr

def Direction.code : Direction → String
  | uplink => "Uplink"
  | downlink => "Downlink"

/-- A captured packet. -/
structure Packet (α : Type) where
  /-- Seconds since the start of the trace. -/
  timestamp : α
  direction : Direction
  /-- Bytes on the wire. -/
  length : Nat
  /-- Carries no payload. -/
  controlOnly : Bool
  deriving DecidableEq

namespace Packet
variable {α : Type}

/-- A packet that carries payload. -/
def data (timestamp : α) (direction : Direction) (length : Nat) : Packet α :=
  ⟨timestamp, direction, length, false⟩

/-- A packet of connection control: forty bytes of headers and nothing else. -/
def control (timestamp : α) (direction : Direction) : Packet α := ⟨timestamp, direction, 40, true⟩

def bytes : List (Packet α) → Nat
  | [] => 0
  | p :: rest => p.length + bytes rest

def bytesTowards (direction : Direction) (packets : List (Packet α)) : Nat :=
  bytes (packets.filter (·.direction = direction))

@[simp] theorem bytes_nil : bytes ([] : List (Packet α)) = 0 := rfl

@[simp] theorem bytes_cons (p : Packet α) (packets : List (Packet α)) :
    bytes (p :: packets) = p.length + bytes packets := rfl

@[simp] theorem bytes_append (front back : List (Packet α)) :
    bytes (front ++ back) = bytes front + bytes back := by
  induction front with
  | nil => simp
  | cons p rest ih => simp [ih, Nat.add_assoc]

end Packet

/-! ## Timelines

A timeline is the packets of a capture in order of time, ties in the order of capture.
`Timeline.ofPackets` accepts a list exactly when its timestamps are finite, not negative and
never step back; `Timeline.normalized` sorts first. `Timeline.between` cuts out the packets of a
half-open span of time.
-/
section Timelines
variable {α : Type} [Scalar α]

/-- Packets in ascending order of time. -/
structure Timeline (α : Type) where
  packets : List (Packet α)
  deriving DecidableEq

namespace Timeline

/-- A timestamp that a packet may carry. -/
def ValidTimestamp (t : α) : Prop := Scalar.isFinite t = true ∧ ¬ t < 0

instance (t : α) : Decidable (ValidTimestamp t) := inferInstanceAs (Decidable (_ ∧ _))

/-- The first packet, counted from `index`, whose timestamp is not valid. -/
def checkTimestamps (index : Nat) : List (Packet α) → Except (Error α) Unit
  | [] => .ok ()
  | p :: rest =>
    if ValidTimestamp p.timestamp then checkTimestamps (index + 1) rest
    else .error (.invalidTimestamp index p.timestamp)

/-- The first packet, counted from `index`, that is earlier than the one before it. -/
def checkOrder (index : Nat) : List (Packet α) → Except (Error α) Unit
  | previous :: current :: rest =>
    if current.timestamp < previous.timestamp then
      .error (.unsortedTimeline (index + 1) previous.timestamp current.timestamp)
    else checkOrder (index + 1) (current :: rest)
  | _ => .ok ()

/-- The conditions on the packets of a timeline. All timestamps are looked at before any order. -/
def check (packets : List (Packet α)) : Except (Error α) Unit := do
  checkTimestamps 0 packets
  checkOrder 0 packets

/-- The timeline of packets that are in order already. -/
def ofPackets (packets : List (Packet α)) : Except (Error α) (Timeline α) := do
  check packets
  return ⟨packets⟩

/-- No packet is earlier than the one before it. -/
def ascending : List (Packet α) → Bool
  | first :: second :: rest =>
    decide (first.timestamp ≤ second.timestamp) && ascending (second :: rest)
  | _ => true

/-- Packets sorted by time; those with the same timestamp keep their order. -/
def sortPackets (packets : List (Packet α)) : List (Packet α) :=
  stableSort (fun a b => Scalar.totalLe a.timestamp b.timestamp) packets

/-- The timeline of packets in any order, and whether they had to be reordered. -/
def normalized (packets : List (Packet α)) : Except (Error α) (Timeline α × Bool) := do
  checkTimestamps 0 packets
  if ascending packets then return (⟨packets⟩, false)
  else return (⟨sortPackets packets⟩, true)

/-- The timeline of a capture, whose packets may come in any order. -/
def ofCapture (packets : List (Packet α)) : Except (Error α) (Timeline α) :=
  return (← normalized packets).1

/-- The conditions on a timeline, checked again. -/
def validate (timeline : Timeline α) : Except (Error α) Unit := check timeline.packets

/-- The timestamp of the last packet, zero when there is none. -/
def lastTimestamp (timeline : Timeline α) : α :=
  match timeline.packets.getLast? with
  | some p => p.timestamp
  | none => 0

/-- The packets with `start ≤ timestamp < stop`. -/
def between (timeline : Timeline α) (start stop : α) : List (Packet α) :=
  let low := cutLength (fun p => decide (p.timestamp < start)) timeline.packets
  let high := cutLength (fun p => decide (p.timestamp < stop)) timeline.packets
  (timeline.packets.drop low).take (high - low)

end Timeline

end Timelines

/-! ## Traces

A trace is what one analysis run reads: a timeline, the duration it covers, the radio family it
was captured on, and the user-interface events recorded beside it. The duration has to be finite
and reach the last packet. Event times of any value are kept, sorted by the total order.
-/
section Traces
variable {α : Type} [Scalar α]

/-- Times of user-interface events, ascending. -/
structure Markers (α : Type) where
  screenRotations : List α
  userInputs : List α
  deriving DecidableEq

namespace Markers

def empty : Markers α := ⟨[], []⟩

/-- Sort event times by the total order. -/
def sortTimes (times : List α) : List α := stableSort Scalar.totalLe times

/-- Markers from event times in any order. -/
def ofTimes (screenRotations userInputs : List α) : Markers α :=
  ⟨sortTimes screenRotations, sortTimes userInputs⟩

def isEmpty (markers : Markers α) : Bool :=
  markers.screenRotations.isEmpty && markers.userInputs.isEmpty

end Markers

/-- The input of one analysis run. -/
structure Trace (α : Type) where
  timeline : Timeline α
  duration : α
  family : Radio.Family
  markers : Markers α
  deriving DecidableEq

namespace Trace

/-- The conditions on a duration: it is valid in itself and covers the last packet. -/
def checkDuration (timeline : Timeline α) (duration : α) : Except (Error α) Unit :=
  if Scalar.isFinite duration = false ∨ duration < 0 then .error (.invalidDuration duration)
  else if duration < timeline.lastTimestamp then
    .error (.traceTooShort timeline.lastTimestamp duration)
  else .ok ()

/-- A trace without events. -/
def ofTimeline (timeline : Timeline α) (duration : α) (family : Radio.Family) :
    Except (Error α) (Trace α) := do
  checkDuration timeline duration
  return ⟨timeline, duration, family, .empty⟩

def withMarkers (trace : Trace α) (markers : Markers α) : Trace α := { trace with markers }

/-- A trace from packets in order of time; the packets are checked before the duration. -/
def ofPackets (packets : List (Packet α)) (duration : α) (family : Radio.Family)
    (markers : Markers α) : Except (Error α) (Trace α) := do
  let timeline ← Timeline.ofPackets packets
  return (← ofTimeline timeline duration family).withMarkers markers

/-- The conditions on a trace, checked again. -/
def validate (trace : Trace α) : Except (Error α) Unit := do
  trace.timeline.validate
  checkDuration trace.timeline trace.duration

end Trace

end Traces

end BurstEnergy.Traffic
