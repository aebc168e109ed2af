import BurstEnergy.Document.Trace
import BurstEnergy.Proofs.Conservation
import BurstEnergy.Proofs.Json.Records
import BurstEnergy.Proofs.Scalar.Binary64
import BurstEnergy.Proofs.Scalar.Binary64Monotone
import BurstEnergy.Proofs.Traffic.Acceptance
import BurstEnergy.Scenario

/-!
# Admission of traces

Which documents and values make a trace, and which traces an analyser takes.
-/
namespace BurstEnergy

/-! ## The schema of trace documents

What a value has to look like to spell packets, event times and the fields of a trace, said without
the readers. The readers accept just the values of the schema, and a document of the schema is
accepted or refused by the values it spells, never for its form.
-/
section Schema
open Json

theorem Radio.Family.code_injective : Function.Injective Radio.Family.code := by
  intro a b
  cases a <;> cases b <;> decide

namespace Traffic
variable {v : Value}

theorem Direction.code_injective : Function.Injective code := by
  intro a b
  cases a <;> cases b <;> decide

theorem Direction.mem_alternatives (d : Direction) : d ∈ [uplink, downlink] := by
  cases d <;> decide

/-- A value that spells a packet; every field has to be given. -/
def Packet.Spelled (v : Value) (p : Packet Float) : Prop :=
  ∃ timestamp direction length controlOnly,
    Spells ["timestamp", "direction", "length", "control_only"] v
      [some timestamp, some direction, some length, some controlOnly] ∧
    Measures timestamp p.timestamp ∧ Words Direction.code direction p.direction ∧
    Counts 32 length p.length ∧ controlOnly = .bool p.controlOnly

def Timeline.Spelled (v : Value) (packets : List (Packet Float)) : Prop :=
  ∃ elements, Spells ["packets"] v [some (.array elements)] ∧
    List.Forall₂ Packet.Spelled elements packets

/-- The entry of a list of times, which may be missing. -/
def Markers.TimesSpelled (entry : Option Value) (times : List Float) : Prop :=
  entry = none ∧ times = [] ∨
    ∃ elements, entry = some (.array elements) ∧ List.Forall₂ Measures elements times

/-- A value that spells event times; a list of them may be missing. -/
def Markers.Spelled (v : Value) (rotations inputs : List Float) : Prop :=
  ∃ first second, Spells ["screen_rotations", "user_inputs"] v [first, second] ∧
    TimesSpelled first rotations ∧ TimesSpelled second inputs

/-- A value that spells the fields of a trace; the markers may be missing. -/
def TraceFields.Spelled (v : Value) (fields : TraceFields) : Prop :=
  ∃ timeline duration family markers rotations inputs,
    Spells ["timeline", "duration", "family", "markers"] v
      [some timeline, some duration, some family, markers] ∧
    Timeline.Spelled timeline fields.packets ∧ Measures duration fields.duration ∧
    Words Radio.Family.code family fields.family ∧
    (markers = none ∧ rotations = [] ∧ inputs = [] ∨
      ∃ w, markers = some w ∧ Markers.Spelled w rotations inputs) ∧
    fields.markers = .ofTimes rotations inputs

theorem Direction.ofJson?_eq_some_iff {d : Direction} :
    Direction.ofJson? v = some d ↔ Words Direction.code v d :=
  Decode.choice_eq_some_iff code_injective mem_alternatives

theorem Packet.ofJson?_eq_some_iff {p : Packet Float} :
    Packet.ofJson? v = some p ↔ Packet.Spelled v p := by
  simp only [Spelled, ← Decode.entries?_eq_some_iff, ← Decode.real_eq_some_iff,
    ← Decode.count_eq_some_iff, ← Decode.bool_eq_some_iff, ← Direction.ofJson?_eq_some_iff]
  constructor
  · intro h
    obtain ⟨entries, hentries, h⟩ := Option.bind_eq_some_iff.mp h
    split at h
    · simp only [Option.bind_eq_bind, Option.bind_eq_some_iff, Decode.required_eq_some_iff,
        Option.pure_def, Option.some.injEq] at h
      obtain ⟨_, ⟨t, rfl, ht⟩, _, ⟨d, rfl, hd⟩, _, ⟨l, rfl, hl⟩, _, ⟨c, rfl, hc⟩, rfl⟩ := h
      exact ⟨t, d, l, c, hentries, ht, hd, hl, hc⟩
    · cases h
  · rintro ⟨t, d, l, c, hentries, ht, hd, hl, hc⟩
    simp [ofJson?, hentries, Decode.required, ht, hd, hl, hc]

theorem Timeline.packetsOfJson?_eq_some_iff {packets : List (Packet Float)} :
    packetsOfJson? v = some packets ↔ Timeline.Spelled v packets := by
  have hlist {w : Value} : Decode.list Packet.ofJson? w = some packets ↔
      ∃ elements, w = .array elements ∧ List.Forall₂ Packet.Spelled elements packets :=
    Decode.list_eq_some_iff Packet.ofJson?_eq_some_iff
  simp only [Spelled, ← Decode.entries?_eq_some_iff]
  constructor
  · intro h
    obtain ⟨entries, hentries, h⟩ := Option.bind_eq_some_iff.mp h
    split at h
    · obtain ⟨w, rfl, hw⟩ := Decode.required_eq_some_iff.mp h
      obtain ⟨elements, rfl, helements⟩ := hlist.mp hw
      exact ⟨elements, hentries, helements⟩
    · cases h
  · rintro ⟨elements, hentries, h⟩
    refine Option.bind_eq_some_iff.mpr ⟨_, hentries, ?_⟩
    exact Decode.required_eq_some_iff.mpr ⟨_, rfl, hlist.mpr ⟨_, rfl, h⟩⟩

theorem Markers.times_eq_some_iff {entry : Option Value} {times : List Float} :
    Decode.defaulted [] (Decode.list Decode.real) entry = some times ↔
      TimesSpelled entry times := by
  simp only [Decode.defaulted_eq_some_iff, Decode.list_eq_some_iff Decode.real_eq_some_iff,
    TimesSpelled]
  refine or_congr_right ⟨?_, ?_⟩
  · rintro ⟨_, rfl, elements, rfl, h⟩
    exact ⟨elements, rfl, h⟩
  · rintro ⟨elements, rfl, h⟩
    exact ⟨_, rfl, elements, rfl, h⟩

theorem Markers.ofJson?_eq_some_iff {markers : Markers Float} : Markers.ofJson? v = some markers ↔
    ∃ rotations inputs, Markers.Spelled v rotations inputs ∧
      markers = .ofTimes rotations inputs := by
  simp only [Spelled, ← Decode.entries?_eq_some_iff, ← times_eq_some_iff]
  constructor
  · intro h
    obtain ⟨entries, hentries, h⟩ := Option.bind_eq_some_iff.mp h
    split at h
    · simp only [Option.bind_eq_bind, Option.bind_eq_some_iff, Option.pure_def,
        Option.some.injEq] at h
      obtain ⟨rotations, hr, inputs, hi, rfl⟩ := h
      exact ⟨rotations, inputs, ⟨_, _, hentries, hr, hi⟩, rfl⟩
    · cases h
  · rintro ⟨rotations, inputs, ⟨first, second, hentries, hr, hi⟩, rfl⟩
    simp [ofJson?, hentries, hr, hi]

theorem family_ofJson?_eq_some_iff {family : Radio.Family} :
    Radio.Family.ofJson? v = some family ↔ Words Radio.Family.code v family :=
  Decode.choice_eq_some_iff Radio.Family.code_injective Radio.Family.mem_all

/-- The reader of trace fields accepts just the values of the schema. -/
theorem TraceFields.ofJson?_eq_some_iff {fields : TraceFields} :
    TraceFields.ofJson? v = some fields ↔ TraceFields.Spelled v fields := by
  simp only [Spelled, ← Decode.entries?_eq_some_iff, ← Timeline.packetsOfJson?_eq_some_iff,
    ← Decode.real_eq_some_iff, ← family_ofJson?_eq_some_iff]
  constructor
  · intro h
    obtain ⟨entries, hentries, h⟩ := Option.bind_eq_some_iff.mp h
    split at h
    · simp only [Option.bind_eq_bind, Option.bind_eq_some_iff, Decode.required_eq_some_iff,
        Decode.defaulted_eq_some_iff, Markers.ofJson?_eq_some_iff, Option.pure_def,
        Option.some.injEq] at h
      obtain ⟨_, ⟨t, rfl, ht⟩, _, ⟨d, rfl, hd⟩, _, ⟨f, rfl, hf⟩, m, hm, rfl⟩ := h
      rcases hm with ⟨rfl, rfl⟩ | ⟨w, rfl, rotations, inputs, hw, rfl⟩
      · exact ⟨t, d, f, _, [], [], hentries, ht, hd, hf, .inl ⟨rfl, rfl, rfl⟩, rfl⟩
      · exact ⟨t, d, f, _, rotations, inputs, hentries, ht, hd, hf, .inr ⟨w, rfl, hw⟩, rfl⟩
    · cases h
  · rintro ⟨t, d, f, entry, rotations, inputs, hentries, ht, hd, hf, hentry, hm⟩
    have hmarkers : Decode.defaulted (.ofTimes [] []) Markers.ofJson? entry =
        some fields.markers := by
      refine Decode.defaulted_eq_some_iff.mpr ?_
      rcases hentry with ⟨rfl, rfl, rfl⟩ | ⟨w, rfl, hw⟩
      · exact .inl ⟨rfl, hm⟩
      · exact .inr ⟨w, rfl, Markers.ofJson?_eq_some_iff.mpr ⟨_, _, hw, hm⟩⟩
    simp [ofJson?, hentries, Decode.required, ht, hd, hf, hmarkers]

end Traffic

end Schema

/-! ## Traces that reach an analyser

However a trace was made, its packets and duration passed the checks. So the checks an analyser
makes again never fail, and the only reason to refuse a trace is that it is of another family.
-/
section Admission
open Json

namespace Traffic

/-- Timelines as the constructors make them. -/
inductive Timeline.Built : Timeline Float → Prop
  | ofPackets {packets : List (Packet Float)} {timeline : Timeline Float}
      (h : Timeline.ofPackets packets = .ok timeline) : Built timeline
  | normalized {packets : List (Packet Float)} {timeline : Timeline Float} {reordered : Bool}
      (h : Timeline.normalized packets = .ok (timeline, reordered)) : Built timeline
  | ofCapture {packets : List (Packet Float)} {timeline : Timeline Float}
      (h : Timeline.ofCapture packets = .ok timeline) : Built timeline
  | ofJson? {v : Value} {timeline : Timeline Float} (h : Timeline.ofJson? v = some timeline) :
      Built timeline

/-- Traces as the constructors make them. -/
inductive Trace.Built : Trace Float → Prop
  | ofTimeline {timeline : Timeline Float} {duration : Float} {family : Radio.Family}
      {trace : Trace Float} (built : timeline.Built)
      (h : Trace.ofTimeline timeline duration family = .ok trace) : Built trace
  | withMarkers {trace : Trace Float} (built : Built trace) (markers : Markers Float) :
      Built (trace.withMarkers markers)
  | ofDocument {document : String} {trace : Trace Float}
      (h : Trace.ofDocument document = .ok trace) : Built trace
  | ofJson? {v : Value} {trace : Trace Float} (h : Trace.ofJson? v = some trace) : Built trace
  | ofScenario {scenario : Scenario Float} {trace : Trace Float}
      (h : scenario.build = .ok trace) : Built trace

theorem Timeline.validate_of_ofPackets {packets : List (Packet Float)} {timeline : Timeline Float}
    (h : ofPackets packets = .ok timeline) : timeline.validate = .ok () := by
  obtain ⟨hcheck, htimeline⟩ := check_bind_eq_ok_iff.mp h
  rwa [← Except.ok.inj htimeline]

/-- Every timeline passes its checks. -/
theorem Timeline.Built.validate_eq_ok {timeline : Timeline Float} (h : timeline.Built) :
    timeline.validate = .ok () := by
  cases h with
  | ofPackets h => exact validate_of_ofPackets h
  | normalized h => exact validate_of_normalized h
  | ofCapture h =>
    obtain ⟨sorted, hsorted, htimeline⟩ := bind_eq_ok_iff.mp h
    rw [← Except.ok.inj htimeline]
    exact validate_of_normalized hsorted
  | ofJson? h =>
    obtain ⟨packets, -, h⟩ := Option.bind_eq_some_iff.mp h
    exact validate_of_ofPackets (toOption_eq_some_iff.mp h)

namespace Trace
variable {packets : List (Packet Float)} {timeline : Timeline Float} {duration : Float}
  {family : Radio.Family} {markers : Markers Float} {trace : Trace Float} {document : String}
  {v : Value}

theorem validate_of_ofTimeline (hv : timeline.validate = .ok ())
    (h : ofTimeline timeline duration family = .ok trace) : trace.validate = .ok () := by
  obtain ⟨hduration, htrace⟩ := check_bind_eq_ok_iff.mp h
  rw [← Except.ok.inj htrace]
  exact check_bind_eq_ok_iff.mpr ⟨hv, hduration⟩

theorem validate_of_ofPackets (h : ofPackets packets duration family markers = .ok trace) :
    trace.validate = .ok () := by
  rw [ofPackets_eq] at h
  obtain ⟨hpackets, h⟩ := check_bind_eq_ok_iff.mp h
  obtain ⟨hduration, htrace⟩ := check_bind_eq_ok_iff.mp h
  rw [← Except.ok.inj htrace]
  exact check_bind_eq_ok_iff.mpr ⟨hpackets, hduration⟩

theorem validate_of_build {scenario : Scenario Float} (h : scenario.build = .ok trace) :
    trace.validate = .ok () := by
  obtain ⟨⟨timeline, reordered⟩, hsorted, h⟩ := bind_eq_ok_iff.mp h
  obtain ⟨made, hmade, htrace⟩ := bind_eq_ok_iff.mp h
  have hvalid := validate_of_ofTimeline (Timeline.validate_of_normalized hsorted) hmade
  rwa [← Except.ok.inj htrace]

/-- Markers are attached to a trace that is made already. -/
theorem ofPackets_eq_map (packets : List (Packet Float)) (duration : Float) (family : Radio.Family)
    (markers : Markers Float) : ofPackets packets duration family markers =
      (Timeline.ofPackets packets >>= fun timeline => ofTimeline timeline duration family).map
        (·.withMarkers markers) := by
  unfold ofPackets
  cases Timeline.ofPackets packets with
  | error e => rfl
  | ok timeline => exact bind_pure_comp _ (ofTimeline timeline duration family)

theorem ofPackets_empty (packets : List (Packet Float)) (duration : Float)
    (family : Radio.Family) : ofPackets packets duration family .empty =
      Timeline.ofPackets packets >>= fun timeline => ofTimeline timeline duration family := by
  unfold ofPackets
  refine bind_congr fun timeline => ?_
  unfold ofTimeline
  cases checkDuration timeline duration <;> rfl

/-- A document of the schema is judged by the values it spells. -/
theorem ofDocument_eq {fields : TraceFields} (htext : Value.parse? document = some v)
    (hspelled : TraceFields.Spelled v fields) : ofDocument document =
      ofPackets fields.packets fields.duration fields.family fields.markers := by
  have hfields : Decoder.ofText? TraceFields.ofJson? document = some fields :=
    Option.bind_eq_some_iff.mpr ⟨v, htext, TraceFields.ofJson?_eq_some_iff.mpr hspelled⟩
  rw [ofDocument, hfields]
  rfl

/-- Every trace passes its checks, however its timeline, its document or its scenario came about:
each constructor makes the same checks, and markers change nothing that is checked. -/
theorem Built.validate_eq_ok (h : trace.Built) : trace.validate = .ok () := by
  induction h with
  | ofTimeline hbuilt h => exact validate_of_ofTimeline hbuilt.validate_eq_ok h
  | withMarkers _ _ ih => exact ih
  | ofDocument h =>
    unfold Trace.ofDocument at h
    split at h
    · exact validate_of_ofPackets h
    · cases h
  | ofJson? h =>
    obtain ⟨fields, -, h⟩ := Option.bind_eq_some_iff.mp h
    exact validate_of_ofPackets (toOption_eq_some_iff.mp h)
  | ofScenario h => exact validate_of_build h

end Trace
end Traffic

open Traffic

/-- An analyser refuses a trace that passes its checks just for its family. -/
theorem Analyser.run_eq_error_iff {analyser : Analyser Float} {trace : Trace Float}
    (hv : trace.validate = .ok ()) {e : Error Float} : analyser.run trace = .error e ↔
      trace.family ≠ analyser.profile.family ∧
        e = .familyMismatch analyser.profile.family trace.family := by
  by_cases hf : trace.family = analyser.profile.family
  · simp [run_eq_report hf hv, hf]
  · unfold run
    rw [if_pos hf]
    exact ⟨fun h => ⟨hf, (Except.error.inj h).symm⟩, fun h => h.2 ▸ rfl⟩

/-- Packets and a duration make a trace just when they are admissible, and else fail with their
first fault; a document of the schema does as the values it spells do; and a trace, however it was
made, is refused by an analyser just when it is of another family. -/
theorem Traffic.Trace.accepted_exactly :
    (∀ (packets : List (Packet Float)) (duration : Float) (family : Radio.Family),
      let made : Except (Error Float) (Trace Float) :=
        Timeline.ofPackets packets >>= fun timeline => Trace.ofTimeline timeline duration family
      (∀ trace, made = .ok trace ↔
        Admissible packets duration ∧ trace = ⟨⟨packets⟩, duration, family, .empty⟩) ∧
      ∀ e, made = .error e ↔ Fault packets duration e) ∧
    (∀ (document : String) (v : Value) (fields : TraceFields),
      Value.parse? document = some v → TraceFields.Spelled v fields →
      Trace.ofDocument document =
          (Timeline.ofPackets fields.packets >>= fun timeline =>
            Trace.ofTimeline timeline fields.duration fields.family).map
              (·.withMarkers fields.markers) ∧
        ∀ text, Trace.ofDocument document ≠ .error (.traceFormat text)) ∧
    ∀ (trace : Trace Float) (analyser : Analyser Float), trace.Built →
      ((∃ e, analyser.run trace = .error e) ↔ trace.family ≠ analyser.profile.family) ∧
      ∀ e, analyser.run trace = .error e →
        e = .familyMismatch analyser.profile.family trace.family := by
  refine ⟨fun packets duration family => ?_, fun document v fields htext hspelled => ?_,
    fun trace analyser hbuilt => ?_⟩
  · rw [← Trace.ofPackets_empty]
    exact ⟨fun trace => Trace.ofPackets_eq_ok_iff, fun e => Trace.ofPackets_eq_error_iff⟩
  · have hdocument := Trace.ofDocument_eq htext hspelled
    refine ⟨hdocument.trans (Trace.ofPackets_eq_map ..), fun text h => ?_⟩
    -- None of the faults of packets and durations is one of the form of a document.
    rw [hdocument, Trace.ofPackets_eq_error_iff] at h
    cases h
  · have hrun {e : Error Float} : analyser.run trace = .error e ↔
        trace.family ≠ analyser.profile.family ∧
          e = .familyMismatch analyser.profile.family trace.family :=
      Analyser.run_eq_error_iff hbuilt.validate_eq_ok
    exact ⟨⟨fun ⟨e, he⟩ => (hrun.mp he).1, fun hf => ⟨_, hrun.mpr ⟨hf, rfl⟩⟩⟩,
      fun e he => (hrun.mp he).2⟩

namespace Traffic.Trace

/-- The packets and the duration of a document that ends two seconds too early. -/
def lateFields : TraceFields := ⟨[.control 12 .uplink], 10, .wifi, .ofTimes [] []⟩

def lateDocument : String :=
  "\x7b\"timeline\":\x7b\"packets\":[\x7b\"timestamp\":12,\"direction\":\"Uplink\","
    ++ "\"length\":40,\"control_only\":true\x7d]\x7d,\"duration\":10,\"family\":\"Wifi\"\x7d"

def lateValue : Value :=
  let number (digits : List Char) : Value := .number ⟨false, digits, [], none⟩
  let packet : Value := .ofMembers [("timestamp", number ['1', '2']),
    ("direction", .ofString "Uplink"), ("length", number ['4', '0']), ("control_only", .bool true)]
  .ofMembers [("timeline", .ofMembers [("packets", .array [packet])]),
    ("duration", number ['1', '0']), ("family", .ofString "Wifi")]

set_option maxRecDepth 2000 in
theorem accepted_exactly_lateDocument :
    Value.parse? lateDocument = some lateValue ∧ TraceFields.Spelled lateValue lateFields ∧
    ofDocument lateDocument = .error (.traceTooShort 12 10) ∧
    ∃ trace : Trace Float, trace.Built ∧
      ∃ e, (⟨.standard⟩ : Analyser Float).run trace = .error e := by
  obtain ⟨hmade, hdocument, hrun⟩ := accepted_exactly
  have hparse : Value.parse? lateDocument = some lateValue := by rfl
  have hspelled : TraceFields.Spelled lateValue lateFields :=
    TraceFields.ofJson?_eq_some_iff.mp (by rfl)
  have hfault : Fault lateFields.packets lateFields.duration (.traceTooShort 12 10) :=
    .last (by decide +kernel) (.singleton _) (by decide +kernel) rfl (by decide +kernel)
  refine ⟨hparse, hspelled, ?_, ?_⟩
  · rw [(hdocument _ _ _ hparse hspelled).1, ((hmade _ _ _).2 _).mpr hfault]
    rfl
  · have hpackets : Timeline.ofPackets ([] : List (Packet Float)) = .ok ⟨[]⟩ := rfl
    have htrace : ofTimeline (⟨[]⟩ : Timeline Float) 0 .wifi = .ok ⟨⟨[]⟩, 0, .wifi, .empty⟩ := by
      decide +kernel
    have hbuilt := Built.ofTimeline (.ofPackets hpackets) htrace
    exact ⟨_, hbuilt, (hrun _ _ hbuilt).1.mpr (by decide)⟩

end Traffic.Trace

end Admission

end BurstEnergy
