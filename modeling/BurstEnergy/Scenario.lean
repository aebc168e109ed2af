import BurstEnergy.Traffic

/-!
# Scenarios

A scenario is a trace in the making. Packets and events may be added in any order; building it
sorts them. Three fixed scenarios show a cluster of connection control, a keep-alive and a
download after a tap.
-/
namespace BurstEnergy
open Traffic (Packet Direction Timeline Trace Markers)

/-- A trace in the making. -/
structure Scenario (α : Type) where
  family : Radio.Family
  packets : List (Packet α)
  rotations : List α
  inputs : List α
  /-- The duration, if one is stated; else the trace ends with its last packet. -/
  stated : Option α
  deriving DecidableEq

namespace Scenario
variable {α : Type}

def start (family : Radio.Family) : Scenario α := ⟨family, [], [], [], none⟩

def add (s : Scenario α) (packets : List (Packet α)) : Scenario α :=
  { s with packets := s.packets ++ packets }

def packet (s : Scenario α) (p : Packet α) : Scenario α := s.add [p]

def userInput (s : Scenario α) (time : α) : Scenario α := { s with inputs := s.inputs ++ [time] }

def rotation (s : Scenario α) (time : α) : Scenario α :=
  { s with rotations := s.rotations ++ [time] }

def lasting (s : Scenario α) (duration : α) : Scenario α := { s with stated := some duration }

variable [Scalar α]

/-- The times `start`, `start + spacing`, and so on, numbered. -/
def spaced (start : α) (count : Nat) (spacing : α) : List (Nat × α) :=
  (List.range count).map fun i => (i, start + (i : α) * spacing)

/-- Add downlink packets of the same size, evenly spaced. -/
def burst (s : Scenario α) (start : α) (count : Nat) (spacing : α) (bytes : Nat) : Scenario α :=
  s.add ((spaced start count spacing).map fun (_, t) => .data t .downlink bytes)

/-- Add packets of connection control, evenly spaced, in turn uplink and downlink. -/
def controlBurst (s : Scenario α) (start : α) (count : Nat) (spacing : α) : Scenario α :=
  s.add ((spaced start count spacing).map fun (i, t) =>
    .control t (if i % 2 = 0 then .uplink else .downlink))

/-- Add a small uplink packet once in every cycle. -/
def periodic (s : Scenario α) (start cycle : α) (repeats : Nat) : Scenario α :=
  s.add ((spaced start repeats cycle).map fun (_, t) => .data t .uplink 200)

def build (s : Scenario α) : Except (Error α) (Trace α) := do
  let (timeline, _) ← Timeline.normalized s.packets
  let trace ← Trace.ofTimeline timeline (s.stated.getD timeline.lastTimestamp) s.family
  return trace.withMarkers (.ofTimes s.rotations s.inputs)

/-- Four short exchanges of connection control within one minute. -/
def tcpCluster (family : Radio.Family) : Scenario α :=
  ((((start family).controlBurst 0 3 0.05).controlBurst 15.0 3 0.05).controlBurst 30.0 3 0.05
    |>.controlBurst 45.0 3 0.05).lasting 90.0

/-- A keep-alive every ten seconds. -/
def keepalive (family : Radio.Family) (repeats : Nat) : Scenario α :=
  ((start family).periodic 0 10.0 repeats).lasting ((repeats : α) * 10.0 + 20.0)

/-- A large download some time after a small one that a tap caused. -/
def tapThenDownload (family : Radio.Family) : Scenario α :=
  ((((start family).userInput 4.6).burst 5.0 4 0.1 1400).burst 30.0 80 0.1 1400).lasting 60.0

end Scenario
end BurstEnergy
