import BurstEnergy.Json.Text
import BurstEnergy.Traffic

/-!
# Trace documents

The JSON form of packets, timelines, markers and traces. Reading a document puts the decoded
packets and times through the same checks and the same sorting as values built in any other way,
so a document whose form is right fails with the precise condition that its values break.
-/
namespace BurstEnergy
open Json

namespace Traffic

def Packet.toJson (p : Packet Float) : Value :=
  .ofMembers [("timestamp", .ofFloat p.timestamp), ("direction", .ofString p.direction.code),
    ("length", .ofNat p.length), ("control_only", .bool p.controlOnly)]

def Direction.ofJson? : Decoder Direction := Decode.choice code [uplink, downlink]

/-- Read a packet; every field has to be present. -/
def Packet.ofJson? : Decoder (Packet Float) := fun v => do
  match ← Decode.entries? ["timestamp", "direction", "length", "control_only"] v with
  | [timestamp, direction, length, controlOnly] =>
    return ⟨← Decode.required Decode.real timestamp,
      ← Decode.required Direction.ofJson? direction,
      ← Decode.required (Decode.count 32) length,
      ← Decode.required Decode.bool controlOnly⟩
  | _ => none

def Timeline.toJson (timeline : Timeline Float) : Value :=
  .ofMembers [("packets", .ofList Packet.toJson timeline.packets)]

/-- Read the packets of a timeline, in whatever order they are. -/
def Timeline.packetsOfJson? : Decoder (List (Packet Float)) := fun v => do
  match ← Decode.entries? ["packets"] v with
  | [packets] => Decode.required (Decode.list Packet.ofJson?) packets
  | _ => none

def Markers.toJson (markers : Markers Float) : Value :=
  .ofMembers [("screen_rotations", .ofList .ofFloat markers.screenRotations),
    ("user_inputs", .ofList .ofFloat markers.userInputs)]

/-- Read markers; a missing list is empty. -/
def Markers.ofJson? : Decoder (Markers Float) := fun v => do
  match ← Decode.entries? ["screen_rotations", "user_inputs"] v with
  | [rotations, inputs] =>
    let times := Decode.defaulted [] (Decode.list Decode.real)
    return .ofTimes (← times rotations) (← times inputs)
  | _ => none

end Traffic

namespace Radio.Family

def ofJson? : Decoder Radio.Family := Decode.choice code all

end Radio.Family

namespace Traffic

/-- The decoded fields of a trace document, before any of their conditions is checked. -/
structure TraceFields where
  packets : List (Packet Float)
  duration : Float
  family : Radio.Family
  markers : Markers Float

/-- Read the fields of a trace; only the markers may be missing. -/
def TraceFields.ofJson? : Decoder TraceFields := fun v => do
  match ← Decode.entries? ["timeline", "duration", "family", "markers"] v with
  | [timeline, duration, family, markers] =>
    return ⟨← Decode.required Timeline.packetsOfJson? timeline,
      ← Decode.required Decode.real duration,
      ← Decode.required Radio.Family.ofJson? family,
      ← Decode.defaulted (.ofTimes [] []) Markers.ofJson? markers⟩
  | _ => none

def Trace.toJson (trace : Trace Float) : Value :=
  .ofMembers [("timeline", trace.timeline.toJson), ("duration", .ofFloat trace.duration),
    ("family", .ofString trace.family.code), ("markers", trace.markers.toJson)]

def Trace.toDocument (trace : Trace Float) : String := trace.toJson.compact

/-- The trace of decoded fields, if they meet the conditions on traces. -/
def TraceFields.trace (fields : TraceFields) : Except (Error Float) (Trace Float) :=
  Trace.ofPackets fields.packets fields.duration fields.family fields.markers

/-- Read a trace; a value that breaks a condition on traces is not one. -/
def Trace.ofJson? : Decoder (Trace Float) := fun v => do
  (← TraceFields.ofJson? v).trace.toOption

/-- Read a timeline; packets that break a condition on timelines are not one. -/
def Timeline.ofJson? : Decoder (Timeline Float) := fun v => do
  (Timeline.ofPackets (← packetsOfJson? v)).toOption

/-- Read a trace document. A text of the right form fails with the condition its values break. -/
def Trace.ofDocument (document : String) : Except (Error Float) (Trace Float) :=
  match Decoder.ofText? TraceFields.ofJson? document with
  | some fields => fields.trace
  | none => .error (.traceFormat Decoder.malformed)

end Traffic
end BurstEnergy
