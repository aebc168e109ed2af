import Mathlib.Data.List.Chain
import BurstEnergy.Proofs.Radio.Selection
import BurstEnergy.Proofs.Scalar.Binary64
import BurstEnergy.Proofs.Traffic.Timeline

/-!
# Intervals that fill a trace

The simulation fills a trace with its intervals, and they share out its packets.
-/

/-! ## The simulation tiles the trace

The intervals of a simulation fill the trace from zero to its end without gap or overlap, none is
empty, no two neighbours could be one, and all are states of the profile's family. The laws of
`Scalar.Lawful` are all that is used of the arithmetic, so this holds on exact numbers and on
binary64 alike, with equality of times taken numerically.
-/
namespace BurstEnergy.Radio
open Scalar (Agree Lawful)
variable {α : Type}

namespace Ladder
variable {ladder : Ladder α} {family : Family}

theorem family_of_mem_modes (hl : ladder.Homogeneous family) {m : Mode}
    (hm : m ∈ ladder.modes) : m.1.family = family := by
  have hpromotion : ∀ p ∈ ladder.promotions, p.state.family = family := by
    intro p hp
    rcases List.mem_append.mp hp with hp | hp
    · obtain ⟨rung, hrung, hp⟩ := List.mem_filterMap.mp hp
      exact hl.promotion rung hrung p hp
    · exact hl.idlePromotion p (Option.mem_toList.mp hp)
  rcases List.mem_cons.mp hm with rfl | hm
  · exact hl.active
  rcases List.mem_cons.mp hm with rfl | hm
  · exact hl.idle
  rcases List.mem_append.mp hm with hm | hm
  · obtain ⟨rung, hrung, rfl⟩ := List.mem_map.mp hm
    exact hl.rung rung hrung
  · obtain ⟨p, hp, rfl⟩ := List.mem_map.mp hm
    exact hpromotion p hp

theorem family_of_mem_schedule [Scalar α] (hl : ladder.Homogeneous family) {bursts : List (Burst α)}
    {duration : α} {i : StateInterval α} (hi : i ∈ ladder.schedule duration bursts) :
    i.state.family = family :=
  family_of_mem_modes hl (mode_mem_of_mem_schedule hi)

end Ladder

/-- The intervals fill a trace: from zero to its end, without gap, overlap or empty interval, in
the fewest pieces, and in states of one family. -/
structure Tiles [Scalar α] (family : Family) (duration : α) (intervals : List (StateInterval α)) :
    Prop where
  nonempty : intervals ≠ []
  first : ∀ i, intervals.head? = some i → Agree i.start 0
  last : ∀ i, intervals.getLast? = some i → Agree i.stop duration
  contiguous : intervals.IsChain fun i next => Agree i.stop next.start
  positive : 0 < duration → ∀ i ∈ intervals, i.start < i.stop
  /-- A trace without length is a single idle interval. -/
  instant : ¬ 0 < duration → intervals = [⟨0, duration, family.idleState, false⟩]
  distinct : intervals.IsChain fun i next => i.mode ≠ next.mode
  family : ∀ i ∈ intervals, i.state.family = family

namespace Ladder
variable [Scalar α] [Lawful α] {ladder : Ladder α} {family : Family} {duration : α}

theorem tiles_of_no_length (h0 : 0 ≤ duration) (hd : ¬ 0 < duration) :
    Tiles family duration [⟨0, duration, family.idleState, false⟩] where
  nonempty := List.cons_ne_nil _ _
  first i hi := by
    obtain rfl := Option.some.inj hi
    exact ⟨Lawful.zero_le_zero, Lawful.zero_le_zero⟩
  last i hi := by
    obtain rfl := Option.some.inj hi
    exact ⟨Scalar.le_self_right h0, Scalar.le_self_right h0⟩
  contiguous := .singleton _
  positive h := absurd h hd
  instant _ := rfl
  distinct := .singleton _
  family i hi := by
    obtain rfl := List.mem_singleton.mp hi
    cases family <;> rfl

theorem tiles_joined {planned : List (StateInterval α)}
    (hpath : StateInterval.Path 0 duration planned) (hd : 0 < duration)
    (hf : ∀ i ∈ planned, i.state.family = family) :
    Tiles family duration (StateInterval.joined planned) where
  nonempty hnil := by
    have hj := hpath.joined
    rw [hnil] at hj
    exact Scalar.not_le_of_lt hd hj.2
  first i hi := by
    have hj := hpath.joined
    obtain ⟨rest, hrest⟩ := List.head?_eq_some_iff.mp hi
    rw [hrest] at hj
    exact hj.1.symm
  last i hi := hpath.joined.agree_last hi
  contiguous := hpath.joined.isChain
  positive _ i hi := hpath.start_lt_stop hi
  instant h := absurd hd h
  distinct := by
    refine List.isChain_iff_forall_rel_of_append_cons_cons.mpr fun {i next front back} heq hm => ?_
    have hcont := List.isChain_iff_forall_rel_of_append_cons_cons.mp hpath.joined.isChain heq
    have hnot := List.isChain_iff_forall_rel_of_append_cons_cons.mp
      (StateInterval.joins_joined planned).isChain heq
    exact hnot (StateInterval.continues_iff.mpr ⟨hm, hcont⟩)
  family i hi := by
    obtain ⟨p, hp, -, hm⟩ := StateInterval.exists_covers_of_mem_joined hi
      ⟨Scalar.le_self_left (Scalar.le_of_lt (hpath.start_lt_stop hi)), hpath.start_lt_stop hi⟩
    have hstate : p.state = i.state := congrArg Prod.fst hm
    rw [← hstate]
    exact hf p hp

theorem family_of_mem_simulate (hl : ladder.Usable) (hf : ladder.Homogeneous family)
    {bursts : List (Burst α)} (h : Burst.InSequence duration bursts) {i : StateInterval α}
    (hi : i ∈ ladder.simulate bursts duration) : i.state.family = family :=
  family_of_mem_modes hf (mode_mem_of_mem_simulate hl h hi)

theorem family_simulate_ofProfile {profile : Profile α} (hp : profile.validate = .ok ())
    {bursts : List (Burst α)} (h : Burst.InSequence duration bursts) :
    ∀ i ∈ (ofProfile profile).simulate bursts duration,
      i.state.family = (ofProfile profile).family := by
  intro i hi
  have hfamily : (ofProfile profile).family = profile.family := family_ofRadio profile.radio
  rw [hfamily]
  exact family_of_mem_simulate (usable_ofProfile hp) (homogeneous_ofProfile profile) h hi

end Ladder

/-- For a validated profile and bursts in order, the simulated intervals tile the trace. -/
theorem simulate_tiles [Scalar α] [Lawful α] {profile : Profile α}
    (hp : profile.validate = .ok ()) {duration : α} {bursts : List (Burst α)}
    (hb : Burst.InSequence duration bursts) :
    Tiles profile.family duration ((Ladder.ofProfile profile).simulate bursts duration) := by
  have hl := Ladder.usable_ofProfile hp
  have hpath := Ladder.path_schedule hl hb
  by_cases hd : 0 < duration
  · rw [Ladder.simulate_eq_joined hl hb hd]
    have hf := Ladder.homogeneous_ofProfile profile
    exact Ladder.tiles_joined hpath hd fun i hi => Ladder.family_of_mem_schedule hf hi
  · have h0 : duration ≤ 0 :=
      Scalar.le_of_not_lt Lawful.zero_le_zero (Scalar.le_self_right hpath.le) hd
    rw [Ladder.simulate_of_no_length hl hb h0]
    have hidle : (Ladder.ofProfile profile).idle = profile.family.idleState :=
      Ladder.idle_ofRadio profile.radio
    rw [hidle]
    exact Ladder.tiles_of_no_length hpath.le hd

/-- The standard profile tiles a trace with a single-packet burst, exactly and in binary64. -/
theorem simulate_tiles_standard :
    Tiles .cellular3G (30 : Rat) ((Ladder.ofProfile .standard).simulate
      [.fresh 1 1.5 ⟨0, 2⟩ 0, .fresh 4 4 ⟨2, 3⟩ 0] 30) ∧
    Tiles .cellular3G (30 : Float) ((Ladder.ofProfile .standard).simulate
      [.fresh 1 1.5 ⟨0, 2⟩ 0, .fresh 4 4 ⟨2, 3⟩ 0] 30) := by
  constructor
  · have hp : (Profile.standard : Profile Rat).validate = .ok () := by decide +kernel
    exact simulate_tiles hp (by decide +kernel)
  · have hp : (Profile.standard : Profile Float).validate = .ok () := by decide +kernel
    exact simulate_tiles hp (by decide +kernel)

end BurstEnergy.Radio

/-! ## The packets of the intervals

An interval is charged with the packets seen from its start on and before its stop. Two cuts by
halving find them, and they are just the packets that a scan of the timeline would pick. Intervals
that follow each other share out the packets of the whole stretch of time, in order, so none is lost
at an endpoint and none counted twice. What is seen at the very end of a trace belongs to no
interval.
-/
namespace BurstEnergy
open Scalar (Agree Lawful)
open Traffic (Timeline)
variable {α : Type} [Scalar α] [Lawful α] {timeline : Timeline α}

namespace Traffic.Timeline

/-- From a start that is a number on, the slice of a span is what a scan picks. -/
theorem Ordered.between_eq_filter_span (h : timeline.Ordered) {start : α} (hs : start ≤ start)
    (stop : α) : timeline.between start stop =
      timeline.packets.filter fun p => start ≤ p.timestamp ∧ p.timestamp < stop := by
  rw [h.between_eq_filter]
  refine List.filter_congr fun p _ => ?_
  by_cases hstop : p.timestamp < stop
  · have hnumber : p.timestamp ≤ p.timestamp := Scalar.le_self_left (Scalar.le_of_lt hstop)
    have hstart : ¬ p.timestamp < start ↔ start ≤ p.timestamp :=
      ⟨Scalar.le_of_not_lt hnumber hs, Scalar.not_lt_of_le⟩
    simp [hstop, ← hstart]
  · simp [hstop]

theorem Ordered.between_congr (h : timeline.Ordered) {start other : α} (hs : Agree start other)
    (stop : α) : timeline.between start stop = timeline.between other stop := by
  rw [h.between_eq_filter_span (Scalar.le_self_left hs.1),
    h.between_eq_filter_span (Scalar.le_self_left hs.2)]
  refine List.filter_congr fun p _ => decide_eq_decide.mpr (and_congr_left' ?_)
  exact ⟨Lawful.le_trans hs.2, Lawful.le_trans hs.1⟩

theorem Ordered.between_eq_nil (h : timeline.Ordered) {start stop : α} (hs : Agree start stop) :
    timeline.between start stop = [] := by
  rw [h.between_eq_filter_span (Scalar.le_self_left hs.1), List.filter_eq_nil_iff]
  intro p _ hp
  obtain ⟨hstart, hstop⟩ := of_decide_eq_true hp
  exact Scalar.not_lt_of_le (Lawful.le_trans hs.2 hstart) hstop

end Traffic.Timeline

namespace Radio
open StateInterval (Path)

/-- The slices of a path of intervals make the slice of the way it leads. -/
theorem StateInterval.Path.flatMap_between (ht : timeline.Ordered) {lo hi : α}
    {intervals : List (StateInterval α)} (h : Path lo hi intervals) :
    (intervals.flatMap fun i => timeline.between i.start i.stop) = timeline.between lo hi := by
  induction intervals generalizing lo with
  | nil => exact (ht.between_eq_nil h).symm
  | cons i rest ih =>
    obtain ⟨hstart, hle, hrest⟩ := h
    calc ((i :: rest).flatMap fun i => timeline.between i.start i.stop)
        = timeline.between i.start i.stop ++ timeline.between i.stop hi := by
          rw [List.flatMap_cons, ih hrest]
      _ = timeline.between i.start hi := (ht.between_append hle hrest.le).symm
      _ = timeline.between lo hi := ht.between_congr hstart.symm hi

/-- Where no packet is seen before zero, intervals that fill a trace share out what is seen before
its end. -/
theorem StateInterval.Path.flatMap_between_zero (ht : timeline.Ordered)
    (h0 : ∀ p ∈ timeline.packets, 0 ≤ p.timestamp) {duration : α}
    {intervals : List (StateInterval α)} (h : Path 0 duration intervals) :
    (intervals.flatMap fun i => timeline.between i.start i.stop) =
      timeline.packets.filter fun p => p.timestamp < duration := by
  rw [h.flatMap_between ht, ht.between_eq_filter_span Lawful.zero_le_zero]
  exact List.filter_congr fun p hp => decide_eq_decide.mpr (and_iff_right (h0 p hp))

/-- Slices are exact. The slice of a span holds the packets in it, from any start that is a number.
Where no packet is seen before zero, the slices of intervals that fill a trace, simulated ones among
them, are one after the other all packets before its end. -/
theorem slices_partition_packets (ht : timeline.Ordered) :
    (∀ start stop : α, start ≤ start →
      timeline.between start stop =
        timeline.packets.filter fun p => start ≤ p.timestamp ∧ p.timestamp < stop) ∧
    ((∀ p ∈ timeline.packets, 0 ≤ p.timestamp) →
      (∀ (duration : α) (intervals : List (StateInterval α)), Path 0 duration intervals →
        (intervals.flatMap fun i => timeline.between i.start i.stop) =
          timeline.packets.filter fun p => p.timestamp < duration) ∧
      ∀ (profile : Profile α) (duration : α) (bursts : List (Burst α)),
        profile.validate = .ok () → Burst.InSequence duration bursts →
        (((Ladder.ofProfile profile).simulate bursts duration).flatMap fun i =>
            timeline.between i.start i.stop) =
          timeline.packets.filter fun p => p.timestamp < duration) := by
  refine ⟨fun start stop hs => ht.between_eq_filter_span hs stop, fun h0 => ⟨?_, ?_⟩⟩
  · exact fun duration intervals hpath => hpath.flatMap_between_zero ht h0
  · intro profile duration bursts hp hb
    exact (Ladder.path_simulate (Ladder.usable_ofProfile hp) hb).flatMap_between_zero ht h0

/-- Four packets, two of them when the transfer of a burst ends and one when the trace does. -/
def seamPackets : Timeline Float :=
  ⟨[.data (-0) .uplink 100, .data 1.5 .uplink 200, .data 1.5 .downlink 300, .data 4 .uplink 400]⟩

/-- A span from the seam on, and the intervals of the standard radio around a burst that ends there.
-/
theorem slices_partition_packets_seam :
    seamPackets.Ordered ∧ (∀ p ∈ seamPackets.packets, 0 ≤ p.timestamp) ∧
    seamPackets.between 1.5 4 = [.data 1.5 .uplink 200, .data 1.5 .downlink 300] ∧
    (Path (0 : Float) 4 [⟨-0, 1.5, .dch, false⟩, ⟨1.5, 4, .dch, true⟩] ∧
      ([⟨-0, 1.5, .dch, false⟩, ⟨1.5, 4, .dch, true⟩].flatMap fun i : StateInterval Float =>
        seamPackets.between i.start i.stop) = seamPackets.packets.take 3) ∧
    ((Ladder.ofProfile .standard).simulate [.fresh (-0) 1.5 ⟨0, 3⟩ 600] 4).flatMap
      (fun i => seamPackets.between i.start i.stop) = seamPackets.packets.take 3 := by
  have ht : seamPackets.Ordered := by
    rw [Traffic.Timeline.Ordered]
    decide +kernel
  have h0 : ∀ p ∈ seamPackets.packets, 0 ≤ p.timestamp := by decide +kernel
  have hp : (Profile.standard : Profile Float).validate = .ok () := by decide +kernel
  have hpath : Path (0 : Float) 4 [⟨-0, 1.5, .dch, false⟩, ⟨1.5, 4, .dch, true⟩] := by
    simp only [StateInterval.Path]
    decide +kernel
  obtain ⟨hspan, hfill⟩ := slices_partition_packets ht
  obtain ⟨hintervals, hsimulated⟩ := hfill h0
  have hbefore : (seamPackets.packets.filter fun p => p.timestamp < 4) =
      seamPackets.packets.take 3 := by decide +kernel
  refine ⟨ht, h0, ?_, ⟨hpath, ?_⟩, ?_⟩
  · rw [hspan 1.5 4 (by decide +kernel)]
    decide +kernel
  · rw [hintervals 4 _ hpath, hbefore]
  · rw [hsimulated .standard 4 _ hp (by decide +kernel), hbefore]

end Radio
end BurstEnergy
