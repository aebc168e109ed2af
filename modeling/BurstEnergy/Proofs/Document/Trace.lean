import BurstEnergy.Proofs.Burst.Causes
import BurstEnergy.Proofs.Document.Admission
import BurstEnergy.Proofs.Json.Values

/-!
# Trace documents are read back

The document of a trace spells the fields of the trace. Its packets pass the checks again, and its
event times are sorted already, so reading the document makes the same trace.
-/
namespace BurstEnergy.Traffic
open Json
variable {timeline : Timeline Float} {duration : Float} {family : Radio.Family}
  {made trace : Trace Float} {rotations inputs : List Float}

/-! ## What is written -/

@[simp] theorem Packet.writable_toJson (p : Packet Float) : p.toJson.Writable :=
  Value.writable_ofMembers (by simp)

@[simp] theorem Timeline.writable_toJson (timeline : Timeline Float) :
    timeline.toJson.Writable := by
  have hpackets : (Value.ofList Packet.toJson timeline.packets).Writable :=
    Value.writable_ofList fun p _ => p.writable_toJson
  exact Value.writable_ofMembers (by simp [hpackets])

@[simp] theorem Markers.writable_toJson (markers : Markers Float) : markers.toJson.Writable := by
  have htimes (times : List Float) : (Value.ofList .ofFloat times).Writable :=
    Value.writable_ofList fun t _ => Value.writable_ofFloat t
  exact Value.writable_ofMembers (by simp [htimes])

theorem Trace.writable_toJson (trace : Trace Float) : trace.toJson.Writable :=
  Value.writable_ofMembers (by simp)

/-! ## What it spells -/

theorem Packet.spelled_toJson {p : Packet Float} (ht : ReadsBack p.timestamp)
    (hl : p.length < 2 ^ 32) : Packet.Spelled p.toJson p :=
  ⟨_, _, _, _,
    spells_ofMembers [("timestamp", _), ("direction", _), ("length", _), ("control_only", _)]
      (by simp),
    readsBack_iff.mp ht, .inl rfl, counts_ofNat hl, rfl⟩

theorem Timeline.spelled_toJson (ht : ∀ p ∈ timeline.packets, ReadsBack p.timestamp)
    (hl : ∀ p ∈ timeline.packets, p.length < 2 ^ 32) :
    Timeline.Spelled timeline.toJson timeline.packets := by
  refine ⟨_, spells_ofMembers [("packets", _)] (by simp), ?_⟩
  rw [List.forall₂_map_left_iff, List.forall₂_same]
  exact fun p hp => Packet.spelled_toJson (ht p hp) (hl p hp)

theorem Markers.timesSpelled_ofList {times : List Float} (h : ∀ t ∈ times, ReadsBack t) :
    TimesSpelled (some (.ofList .ofFloat times)) times := by
  refine .inr ⟨_, rfl, ?_⟩
  rw [List.forall₂_map_left_iff, List.forall₂_same]
  exact fun t ht => readsBack_iff.mp (h t ht)

theorem Markers.spelled_toJson {markers : Markers Float}
    (hr : ∀ t ∈ markers.screenRotations, ReadsBack t) (hi : ∀ t ∈ markers.userInputs, ReadsBack t) :
    Markers.Spelled markers.toJson markers.screenRotations markers.userInputs :=
  ⟨_, _, spells_ofMembers [("screen_rotations", _), ("user_inputs", _)] (by simp),
    timesSpelled_ofList hr, timesSpelled_ofList hi⟩

theorem Markers.ofTimes_sortTimes (rotations inputs : List Float) :
    (Markers.ofTimes (sortTimes rotations) (sortTimes inputs) : Markers Float) =
      .ofTimes rotations inputs := by
  have hsorted (times : List Float) : sortTimes (sortTimes times) = sortTimes times :=
    stableSort_eq_self (sorted_sortTimes times)
  simp [ofTimes, hsorted]

namespace Trace

/-- The measured values of a trace. -/
def measured (trace : Trace Float) : List Float :=
  trace.timeline.packets.map (·.timestamp) ++ trace.duration ::
    (trace.markers.screenRotations ++ trace.markers.userInputs)

def fields (trace : Trace Float) : TraceFields :=
  ⟨trace.timeline.packets, trace.duration, trace.family, trace.markers⟩

theorem spelled_toJson (hj : ∀ x ∈ trace.measured, ReadsBack x)
    (hl : ∀ p ∈ trace.timeline.packets, p.length < 2 ^ 32)
    (hm : trace.markers = .ofTimes trace.markers.screenRotations trace.markers.userInputs) :
    TraceFields.Spelled trace.toJson trace.fields := by
  simp only [measured, List.forall_mem_append, List.forall_mem_map, List.forall_mem_cons] at hj
  obtain ⟨ht, hd, hr, hi⟩ := hj
  exact ⟨_, _, _, _, _, _,
    spells_ofMembers [("timeline", _), ("duration", _), ("family", _), ("markers", _)] (by simp),
    Timeline.spelled_toJson ht hl, readsBack_iff.mp hd, .inl rfl,
    .inr ⟨_, rfl, Markers.spelled_toJson hr hi⟩, hm⟩

theorem trace_fields (h : trace.validate = .ok ()) : trace.fields.trace = .ok trace := by
  obtain ⟨hpackets, hduration⟩ := check_bind_eq_ok_iff.mp h
  unfold TraceFields.trace
  rw [ofPackets_eq]
  exact check_bind_eq_ok_iff.mpr ⟨hpackets, check_bind_eq_ok_iff.mpr ⟨hduration, rfl⟩⟩

/-- A trace whose measured values pass the checks has only finite ones, its events aside. -/
theorem isFinite_of_validate (h : trace.validate = .ok ())
    (hm : ∀ t ∈ trace.markers.screenRotations ++ trace.markers.userInputs, t.isFinite = true) :
    ∀ x ∈ trace.measured, x.isFinite = true := by
  obtain ⟨hpackets, hduration⟩ := check_bind_eq_ok_iff.mp h
  have hstamps := (Timeline.check_eq_ok_iff.mp hpackets).1
  have hvalid := (checkDuration_eq_ok_iff.mp hduration).1
  rw [measured, List.forall_mem_append, List.forall_mem_map, List.forall_mem_cons]
  exact ⟨fun p hp => (hstamps p hp).1, hvalid.1, hm⟩

/-- The document of a trace with finite event times is read as that trace, with its errors kept and
as a plain value, if the text of every finite value in it is read as that value. -/
theorem read_toDocument (hbuilt : timeline.Built)
    (hmade : Trace.ofTimeline timeline duration family = .ok made)
    (htrace : trace = made.withMarkers (.ofTimes rotations inputs))
    (hm : ∀ t ∈ rotations ++ inputs, t.isFinite = true)
    (hl : ∀ p ∈ timeline.packets, p.length < 2 ^ 32)
    (hj : ∀ x ∈ trace.measured, x.isFinite = true → ReadsBack x) :
    Trace.ofDocument trace.toDocument = .ok trace ∧
      Decoder.ofText? Trace.ofJson? trace.toDocument = some trace := by
  have hvalid : trace.validate = .ok () := by
    rw [htrace]
    exact (Trace.Built.withMarkers (.ofTimeline hbuilt hmade) _).validate_eq_ok
  obtain ⟨-, hbare⟩ := check_bind_eq_ok_iff.mp hmade
  have hfields : timeline = trace.timeline ∧ trace.markers = .ofTimes rotations inputs := by
    rw [htrace, ← Except.ok.inj hbare]
    exact ⟨rfl, rfl⟩
  obtain ⟨rfl, hmarkers⟩ := hfields
  have hfinite : ∀ x ∈ trace.measured, x.isFinite = true :=
    isFinite_of_validate hvalid (by simpa [hmarkers, Markers.ofTimes] using hm)
  have hsorted : trace.markers =
      .ofTimes trace.markers.screenRotations trace.markers.userInputs := by
    rw [hmarkers]
    exact (Markers.ofTimes_sortTimes rotations inputs).symm
  have hparse : Value.parse? trace.toDocument = some trace.toJson :=
    Value.parse?_compact trace.writable_toJson
  have hspelled := spelled_toJson (fun x hx => hj x hx (hfinite x hx)) hl hsorted
  have hread := trace_fields hvalid
  refine ⟨(ofDocument_eq hparse hspelled).trans hread, ?_⟩
  rw [Decoder.ofText?, hparse, Option.bind_some, ofJson?,
    TraceFields.ofJson?_eq_some_iff.mpr hspelled]
  exact toOption_eq_some_iff.mpr hread

/-- Two packets, a rotation at negative zero after a later one, and the same tap twice. -/
def tapped : Trace Float :=
  ⟨⟨[.data 0 .uplink 1400, .control 0.5 .downlink]⟩, 12, .cellularLte,
    .ofTimes [3.25, -0.0] [2.5, 2.5]⟩

theorem read_toDocument_tapped : Trace.ofDocument tapped.toDocument = .ok tapped ∧
    Decoder.ofText? Trace.ofJson? tapped.toDocument = some tapped := by
  have hpackets : Timeline.ofPackets tapped.timeline.packets = .ok tapped.timeline := by
    decide +kernel
  have hmade : ofTimeline tapped.timeline 12 .cellularLte =
      .ok ⟨tapped.timeline, 12, .cellularLte, .empty⟩ := by decide +kernel
  exact read_toDocument (.ofPackets hpackets) hmade rfl (by decide +kernel) (by decide)
    (by decide +kernel)

end Trace
end BurstEnergy.Traffic
