import BurstEnergy.Check
import BurstEnergy.Proofs.Burst.Partition
import BurstEnergy.Proofs.Radio.Rows
import BurstEnergy.Proofs.Scalar.Binary64Monotone

/-!
# What a check that finds nothing tells

The checks of a report walk its lists with a number, an endpoint or a position in hand. Finding
nothing in the intervals says that they fill the trace: every moment of it lies in one of them, and
none reaches outside. Finding nothing in the bursts says that they cut the packets up in order. Both
are found in order whenever they are, so a finding is never a false alarm.
-/
namespace BurstEnergy
open Scalar (Agree Lawful)
open Radio (StateInterval)
open Traffic (Trace Packet)

namespace PacketRange
variable {stop first : ℕ} {ranges : List PacketRange}

def positions (range : PacketRange) : List ℕ := List.range' range.first range.size

theorem positions_append {range : PacketRange} (h : range.first ≤ range.stop)
    (hstop : range.stop ≤ stop) :
    range.positions ++ List.range' range.stop (stop - range.stop) =
      List.range' range.first (stop - range.first) := by
  have hsize : range.first + range.size = range.stop := by
    rw [size]
    omega
  have hall : range.size + (stop - range.stop) = stop - range.first := by
    rw [size]
    omega
  rw [positions, ← hall, ← List.range'_append_1, hsize]

/-- Ranges lead from a position to a stop just when none is empty and their positions, one range
after the other, are those in between. -/
theorem cover_iff : Cover stop first ranges ↔ first ≤ stop ∧
    (∀ range ∈ ranges, range.first < range.stop) ∧
    ranges.flatMap positions = List.range' first (stop - first) := by
  induction ranges generalizing first with
  | nil =>
    simp only [Cover, List.not_mem_nil, false_implies, implies_true, true_and, List.flatMap_nil]
    rw [@eq_comm _ [], List.range'_eq_nil_iff]
    omega
  | cons range rest ih =>
    rw [Cover, ih, List.forall_mem_cons, List.flatMap_cons]
    constructor
    · rintro ⟨rfl, hlt, hle, hrest, hpositions⟩
      exact ⟨hlt.le.trans hle, ⟨hlt, hrest⟩, hpositions ▸ positions_append hlt.le hle⟩
    · rintro ⟨hle, ⟨hlt, hrest⟩, hpositions⟩
      have hsize : 0 < range.size := Nat.sub_pos_of_lt hlt
      have hlength : range.size + (rest.flatMap positions).length = stop - first := by
        simpa [positions] using congrArg List.length hpositions
      have hfirst : range.first = first := by
        have hhead := congrArg List.head? hpositions
        simpa [positions, List.head?_append, List.head?_range', hsize.ne', ← hlength] using hhead
      subst hfirst
      have hstop : range.stop ≤ stop := by
        rw [size] at hlength
        omega
      rw [← positions_append hlt.le hstop] at hpositions
      exact ⟨rfl, hlt, hstop, hrest, List.append_cancel_left hpositions⟩

end PacketRange

namespace Radio.StateInterval
variable {lo hi : Rat} {intervals : List (StateInterval Rat)}

/-- Intervals that share their endpoints and do not run back are a path between the outer ones. -/
theorem path_of_isChain (hchain : intervals.IsChain fun i next => i.stop = next.start)
    (hle : ∀ i ∈ intervals, i.start ≤ i.stop) (hfirst : intervals.head?.map (·.start) = some lo)
    (hlast : intervals.getLast?.map (·.stop) = some hi) : Path lo hi intervals := by
  induction intervals generalizing lo with
  | nil => simp at hfirst
  | cons i rest ih =>
    obtain ⟨hi', hrest⟩ := List.forall_mem_cons.mp hle
    have hstart : lo = i.start := by simpa using hfirst.symm
    refine ⟨Scalar.agree_iff_eq.mpr hstart, hi', ?_⟩
    cases rest with
    | nil => exact Scalar.agree_iff_eq.mpr (by simpa using hlast)
    | cons j rest =>
      obtain ⟨hmeet, hchain⟩ := List.isChain_cons_cons.mp hchain
      exact ih hchain hrest (by simp [hmeet]) (by simpa using hlast)

/-- Every moment on the way belongs to one interval of a path, also between rational times. -/
theorem Path.countP_contains (h : Path lo hi intervals) {t : ℝ} (hlo : (lo : ℝ) ≤ t)
    (hhi : t < hi) :
    intervals.countP (fun i => decide (t ∈ Set.Ico (i.start : ℝ) i.stop)) = 1 := by
  induction intervals generalizing lo with
  | nil =>
    obtain rfl : lo = hi := Scalar.agree_iff_eq.mp h
    exact absurd hlo (not_le.mpr hhi)
  | cons i rest ih =>
    obtain ⟨hstart, hle, hrest⟩ := h
    obtain rfl : lo = i.start := Scalar.agree_iff_eq.mp hstart
    rw [List.countP_cons]
    by_cases ht : t < i.stop
    · have hlater : rest.countP (fun i => decide (t ∈ Set.Ico (i.start : ℝ) i.stop)) = 0 := by
        refine List.countP_eq_zero.mpr fun j hj hmem => ?_
        have hafter : (i.stop : ℝ) ≤ j.start := by exact_mod_cast (hrest.bounds hj).1
        exact absurd (hafter.trans (of_decide_eq_true hmem).1) (not_le.mpr ht)
      rw [hlater, if_pos (decide_eq_true ⟨hlo, ht⟩)]
    · rw [ih hrest (not_lt.mp ht), if_neg fun hmem => ht (of_decide_eq_true hmem).2]

end Radio.StateInterval

namespace Check

section Conditions
variable {α : Type} {v : Violation α}

@[simp] theorem require_eq_nil_iff {ok : Prop} [Decidable ok] : require ok v = [] ↔ ok := by
  unfold require
  split <;> simp [*]

@[simp] theorem forbid_eq_nil_iff {bad : Prop} [Decidable bad] : forbid bad v = [] ↔ ¬ bad := by
  unfold forbid
  split <;> simp [*]

end Conditions

section Lists
variable {α : Type} [Scalar α] {index expected : ℕ} {trace : Trace α} {list : List (Burst α)}
  {burst : Burst α} {intervals : List (StateInterval α)}

theorem gaps_eq_nil_iff : gaps index intervals = [] ↔
    intervals.IsChain fun i next => Agree i.stop next.start := by
  induction intervals generalizing index with
  | nil => simp [gaps]
  | cons i rest ih =>
    cases rest with
    | nil => simp [gaps]
    | cons next rest =>
      rw [gaps, List.append_eq_nil_iff, require_eq_nil_iff, ih, List.isChain_cons_cons]

theorem empties_eq_nil_iff : empties index intervals = [] ↔
    ∀ i ∈ intervals, ¬ i.duration ≤ 0 := by
  induction intervals generalizing index with
  | nil => simp [empties]
  | cons i rest ih =>
    rw [empties, List.append_eq_nil_iff, forbid_eq_nil_iff, ih, List.forall_mem_cons]

theorem overlaps_eq_nil_iff : overlaps index list = [] ↔
    list.IsChain fun b c => ¬ c.beginTime ≤ b.endTime := by
  induction list generalizing index with
  | nil => simp [overlaps]
  | cons b rest ih =>
    cases rest with
    | nil => simp [overlaps]
    | cons c rest =>
      rw [overlaps, List.append_eq_nil_iff, forbid_eq_nil_iff, ih, List.isChain_cons_cons]

theorem matchesTime_iff {p : Option (Packet α)} {t : α} :
    MatchesTime p t ↔ ∃ q, p = some q ∧ Agree q.timestamp t := by
  cases p <;> simp [MatchesTime]

/-- What the content of a burst must be: its bounds are the times of its first and last packet, and
a burst of connection control carries no payload. -/
structure SoundContent (trace : Trace α) (burst : Burst α) : Prop where
  beginTime : ∃ p, (burst.members trace.timeline).head? = some p ∧ Agree p.timestamp burst.beginTime
  endTime : ∃ p, (burst.members trace.timeline).getLast? = some p ∧ Agree p.timestamp burst.endTime
  control : burst.category = .tcpProtocolOnly →
    ∀ p ∈ burst.members trace.timeline, p.controlOnly = true

theorem burstContent_eq_nil_iff : burstContent trace index burst = [] ↔
    SoundContent trace burst := by
  rw [burstContent, List.append_eq_nil_iff, require_eq_nil_iff, forbid_eq_nil_iff,
    matchesTime_iff, matchesTime_iff]
  constructor
  · rintro ⟨⟨hbegin, hend⟩, hcontrol⟩
    exact ⟨hbegin, hend, by simpa using hcontrol⟩
  · rintro ⟨hbegin, hend, hcontrol⟩
    exact ⟨⟨hbegin, hend⟩, by simpa using hcontrol⟩

/-- The walk over the bursts finds nothing when their ranges lead on to the last packet and their
contents are sound. A burst without packets is found before any later one can make up for it. -/
theorem partition_eq_nil_iff : partition trace index expected list = [] ↔
    PacketRange.Cover trace.timeline.packets.length expected (list.map (·.packets)) ∧
    ∀ burst ∈ list, SoundContent trace burst := by
  induction list generalizing index expected with
  | nil => simp [partition, PacketRange.Cover]
  | cons burst rest ih =>
    rw [partition, List.append_eq_nil_iff, require_eq_nil_iff, List.map_cons, PacketRange.Cover,
      List.forall_mem_cons]
    by_cases hlt : burst.packets.first < burst.packets.stop
    · rw [if_pos hlt, List.append_eq_nil_iff, burstContent_eq_nil_iff, ih]
      tauto
    · simp [hlt]

end Lists

section Bursts
variable {α : Type} [Scalar α] {trace : Trace α} {list : List (Burst α)} {burst : Burst α}

/-- Bursts that cut the packets of a trace up in order. -/
structure CutsUp (trace : Trace α) (list : List (Burst α)) : Prop where
  nonempty : ∀ burst ∈ list, burst.packets.first < burst.packets.stop
  /-- The positions of the bursts, one burst after the other, are those of all packets. -/
  positions : list.flatMap (·.packets.positions) = List.range trace.timeline.packets.length
  content : ∀ burst ∈ list, SoundContent trace burst
  apart : list.IsChain fun b c => b.endTime < c.beginTime

omit [Scalar α] in
theorem cover_zero_iff {total : ℕ} : PacketRange.Cover total 0 (list.map (·.packets)) ↔
    (∀ burst ∈ list, burst.packets.first < burst.packets.stop) ∧
    list.flatMap (·.packets.positions) = List.range total := by
  rw [PacketRange.cover_iff, List.forall_mem_map, List.flatMap_map, List.range_eq_range',
    Nat.sub_zero]
  exact and_iff_right (Nat.zero_le _)

theorem SoundContent.bounds_le_self [Lawful α] (h : SoundContent trace burst) :
    burst.beginTime ≤ burst.beginTime ∧ burst.endTime ≤ burst.endTime := by
  obtain ⟨p, -, hp⟩ := h.beginTime
  obtain ⟨q, -, hq⟩ := h.endTime
  exact ⟨Scalar.le_self_right hp.1, Scalar.le_self_right hq.1⟩

/-- The check of the bursts finds nothing just when they cut the packets up in order. -/
theorem bursts_eq_nil_iff [Lawful α] : bursts list trace = [] ↔ CutsUp trace list := by
  rw [bursts, List.append_eq_nil_iff, partition_eq_nil_iff, overlaps_eq_nil_iff, cover_zero_iff]
  constructor
  · rintro ⟨⟨⟨hne, hpositions⟩, hcontent⟩, hapart⟩
    refine ⟨hne, hpositions, hcontent, hapart.imp_of_mem_imp fun b c hb hc hnot => ?_⟩
    exact Scalar.lt_of_not_le (hcontent c hc).bounds_le_self.1 (hcontent b hb).bounds_le_self.2 hnot
  · rintro ⟨hne, hpositions, hcontent, hapart⟩
    exact ⟨⟨⟨hne, hpositions⟩, hcontent⟩, hapart.imp fun _ _ => Scalar.not_le_of_lt⟩

end Bursts

section Intervals
variable {duration : Rat} {intervals : List (StateInterval Rat)}

/-- Intervals that fill a trace end to end: from zero to its end with shared endpoints, each with
length, or a single one that is all of it. -/
structure Fills (duration : Rat) (intervals : List (StateInterval Rat)) : Prop where
  first : intervals.head?.map (·.start) = some 0
  last : intervals.getLast?.map (·.stop) = some duration
  contiguous : intervals.IsChain fun i next => i.stop = next.start
  positive : 1 < intervals.length → ∀ i ∈ intervals, i.start < i.stop

theorem Fills.path (h : Fills duration intervals) (hd : 0 ≤ duration) :
    StateInterval.Path 0 duration intervals := by
  refine StateInterval.path_of_isChain h.contiguous (fun i hi => ?_) h.first h.last
  by_cases hlength : 1 < intervals.length
  · exact (h.positive hlength i hi).le
  · obtain ⟨j, rfl⟩ : ∃ j, intervals = [j] := List.length_eq_one_iff.mp
      (le_antisymm (not_lt.mp hlength) (List.length_pos_of_mem hi))
    obtain rfl := List.mem_singleton.mp hi
    have hfirst : i.start = 0 := by simpa using h.first
    have hlast : i.stop = duration := by simpa using h.last
    rw [hfirst, hlast]
    exact hd

/-- Durations add up without rounding, so what fills a trace covers just its duration. -/
theorem Fills.covered (h : Fills duration intervals) (hd : 0 ≤ duration) :
    covered intervals = duration := by
  rw [Check.covered, Scalar.sum_eq_sum, (h.path hd).sum_duration, sub_zero]

/-- The check of the intervals finds nothing just when they fill the trace. -/
theorem tiling_eq_nil_iff (hd : 0 ≤ duration) :
    tiling intervals duration = [] ↔ Fills duration intervals := by
  have hempties : (if 1 < intervals.length then empties 0 intervals else []) = [] ↔
      (1 < intervals.length → ∀ i ∈ intervals, i.start < i.stop) := by
    split <;> simp [*, empties_eq_nil_iff, StateInterval.duration]
  cases hfirst : intervals.head? with
  | none =>
    have hnil : intervals = [] := List.head?_eq_none_iff.mp hfirst
    subst hnil
    exact iff_of_false (List.cons_ne_nil _ _) fun h => by simpa using h.first
  | some first =>
    obtain ⟨last, hlast⟩ : ∃ last, intervals.getLast? = some last := by
      have hne : intervals ≠ [] := by
        rintro rfl
        simp at hfirst
      exact ⟨_, List.getLast?_eq_some_getLast hne⟩
    simp only [tiling, hfirst, hlast, List.append_eq_nil_iff, require_eq_nil_iff,
      forbid_eq_nil_iff, gaps_eq_nil_iff, hempties, Scalar.agree_iff_eq]
    constructor
    · rintro ⟨⟨⟨⟨hstart, hstop⟩, hchain⟩, hpositive⟩, -⟩
      exact ⟨by simp [hfirst, hstart], by simp [hlast, hstop], hchain, hpositive⟩
    · intro h
      refine ⟨⟨⟨⟨by simpa [hfirst] using h.first, by simpa [hlast] using h.last⟩, h.contiguous⟩,
        h.positive⟩, ?_⟩
      rw [h.covered hd, sub_self, Scalar.magnitude_eq_abs, abs_zero]
      norm_num [tolerance]

end Intervals

/-- The checks are exact. Where nothing is found in the intervals of a trace, every moment of it
lies in one of them and none reaches outside, and nothing is found where they fill it. Nothing is
found in the bursts of a trace just when they cut its packets up in order. -/
theorem nothing_found_iff {α : Type} [Scalar α] [Lawful α] :
    (∀ (intervals : List (StateInterval Rat)) (duration : Rat), 0 ≤ duration →
      (tiling intervals duration = [] →
        (∀ t : ℝ, 0 ≤ t → t < duration →
          intervals.countP (fun i => decide (t ∈ Set.Ico (i.start : ℝ) i.stop)) = 1) ∧
        ∀ i ∈ intervals, 0 ≤ i.start ∧ i.start ≤ i.stop ∧ i.stop ≤ duration) ∧
      (tiling intervals duration = [] ↔ Fills duration intervals)) ∧
    ∀ (list : List (Burst α)) (trace : Trace α), bursts list trace = [] ↔ CutsUp trace list := by
  refine ⟨fun intervals duration hd => ⟨fun hnone => ?_, tiling_eq_nil_iff hd⟩,
    fun list trace => bursts_eq_nil_iff⟩
  have hpath := ((tiling_eq_nil_iff hd).mp hnone).path hd
  refine ⟨fun t h0 ht => hpath.countP_contains ?_ ht, fun i hi => hpath.bounds hi⟩
  exact_mod_cast h0

/-- Two packets of one moment and a later one of connection control. -/
def tiedTrace : Trace Float :=
  ⟨⟨[.data 0 .uplink 100, .data 0 .downlink 200, .control 5 .uplink]⟩, 6, .cellular3G, .empty⟩

def tiedBursts : List (Burst Float) :=
  [.fresh 0 0 ⟨0, 2⟩ 300, { Burst.fresh 5 5 ⟨2, 3⟩ 40 with category := .tcpProtocolOnly }]

/-- The moment where two intervals meet lies in the second alone, and the bursts of a trace with a
tie are in order, in binary64. -/
theorem nothing_found_iff_tied :
    (0 : Rat) ≤ 6 ∧ tiling [⟨0, 1, .dch, false⟩, ⟨1, 6, .idle, false⟩] (6 : Rat) = [] ∧
    [⟨0, 1, .dch, false⟩, ⟨1, 6, .idle, false⟩].countP (fun i : StateInterval Rat =>
      decide ((1 : ℝ) ∈ Set.Ico (i.start : ℝ) i.stop)) = 1 ∧
    bursts tiedBursts tiedTrace = [] ∧ CutsUp tiedTrace tiedBursts := by
  have hd : (0 : Rat) ≤ 6 := by norm_num
  have hnone : tiling [⟨0, 1, .dch, false⟩, ⟨1, 6, .idle, false⟩] (6 : Rat) = [] := by
    decide +kernel
  have hbursts : bursts tiedBursts tiedTrace = [] := by decide +kernel
  obtain ⟨hintervals, hlists⟩ := @nothing_found_iff Float _ _
  have hmoment := ((hintervals _ 6 hd).1 hnone).1 1 zero_le_one (by norm_num)
  exact ⟨hd, hnone, hmoment, hbursts, (hlists tiedBursts tiedTrace).mp hbursts⟩

end Check
end BurstEnergy
