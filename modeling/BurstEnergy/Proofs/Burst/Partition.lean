import Mathlib.Data.List.SplitBy
import BurstEnergy.Proofs.Burst.Members
import BurstEnergy.Proofs.Scalar.Binary64

/-!
# Segmentation is the one maximal partition

The ranges of the bursts cover the positions of a timeline without a gap. Inside a burst no
distance between neighbours exceeds the gap, and between two bursts it does. A list of ranges is
determined by this, because it cuts the packets just where two neighbours are too far apart.
-/
namespace BurstEnergy
open Scalar (Lawful IsAmount)
open Traffic (Packet Timeline)

namespace PacketRange
variable {β : Type}

/-- Ranges that lead from a position up to `stop`: each starts where the one before it stops, and
none is empty. -/
def Cover (stop : ℕ) : ℕ → List PacketRange → Prop
  | first, [] => first = stop
  | first, range :: rest =>
    range.first = first ∧ range.first < range.stop ∧ Cover stop range.stop rest

/-- The ranges of stretches of elements that follow each other from a position on. -/
def following (first : ℕ) : List (List β) → List PacketRange
  | [] => []
  | stretch :: rest =>
    ⟨first, first + stretch.length⟩ :: following (first + stretch.length) rest

variable {stop first : ℕ} {ranges : List PacketRange} {xs : List β} {stretches : List (List β)}

theorem Cover.first_le (h : Cover stop first ranges) : first ≤ stop := by
  induction ranges generalizing first with
  | nil => exact h.le
  | cons range rest ih =>
    obtain ⟨hfirst, hlt, hrest⟩ := h
    have := ih hrest
    omega

theorem cover_following (first : ℕ) (h : [] ∉ stretches) :
    Cover (first + stretches.flatten.length) first (following first stretches) := by
  induction stretches generalizing first with
  | nil => rfl
  | cons stretch rest ih =>
    obtain ⟨hne, hrest⟩ := not_or.mp fun hor => h (List.mem_cons.mpr hor)
    have hlength : 0 < stretch.length := List.length_pos_iff.mpr fun hnil => hne hnil.symm
    have hcover := ih (first + stretch.length) hrest
    rw [Nat.add_assoc, ← List.length_append] at hcover
    exact ⟨rfl, Nat.lt_add_of_pos_right hlength, hcover⟩

theorem map_slice_following (before : List β) (stretches : List (List β)) :
    (following before.length stretches).map (·.slice (before ++ stretches.flatten)) =
      stretches := by
  induction stretches generalizing before with
  | nil => rfl
  | cons stretch rest ih =>
    have hrest := ih (before ++ stretch)
    rw [List.length_append] at hrest
    rw [following, List.map_cons, List.flatten_cons, ← List.append_assoc, slice_append, hrest]

theorem slice_append_drop {range : PacketRange} (hlt : range.first < range.stop)
    (hle : range.stop ≤ xs.length) :
    range.slice xs ++ xs.drop range.stop = xs.drop range.first := by
  have hstop : range.stop = range.first + range.size := by
    rw [size]
    omega
  rw [slice, if_pos ⟨hlt.le, hle⟩, hstop, ← List.drop_drop]
  exact List.take_append_drop _ _

/-- Ranges that cover a list put it together. -/
theorem Cover.flatten_slices (h : Cover xs.length first ranges) :
    (ranges.map (·.slice xs)).flatten = xs.drop first := by
  induction ranges generalizing first with
  | nil =>
    obtain rfl : first = xs.length := h
    simp
  | cons range rest ih =>
    obtain ⟨rfl, hlt, hrest⟩ := h
    rw [List.map_cons, List.flatten_cons, ih hrest, slice_append_drop hlt hrest.first_le]

theorem Cover.ne_nil_of_mem (h : Cover xs.length first ranges) :
    [] ∉ ranges.map (·.slice xs) := by
  induction ranges generalizing first with
  | nil => exact List.not_mem_nil
  | cons range rest ih =>
    obtain ⟨-, hlt, hrest⟩ := h
    have hlength := length_slice hlt.le hrest.first_le
    rw [List.map_cons, List.mem_cons, not_or]
    refine ⟨fun hnil => ?_, ih hrest⟩
    rw [← hnil, List.length_nil, size] at hlength
    omega

theorem mem_of_mem_slice {range : PacketRange} {x : β} (h : x ∈ range.slice xs) : x ∈ xs := by
  unfold slice at h
  split at h
  · exact List.mem_of_mem_drop (List.mem_of_mem_take h)
  · exact absurd h List.not_mem_nil

/-- The lengths of the stretches determine the ranges that cover a list. -/
theorem Cover.eq_following (h : Cover xs.length first ranges) :
    ranges = following first (ranges.map (·.slice xs)) := by
  induction ranges generalizing first with
  | nil => rfl
  | cons range rest ih =>
    obtain ⟨rfl, hlt, hrest⟩ := h
    have hstop : range.first + (range.slice xs).length = range.stop := by
      rw [length_slice hlt.le hrest.first_le, size]
      omega
    rw [List.map_cons, following, hstop, ← ih hrest]

end PacketRange

/-- A burst sums up packets: the times of the first and the last one, and the bytes of all. -/
structure Burst.SumsUp {α : Type} (burst : Burst α) (members : List (Packet α)) : Prop where
  beginTime : members.head?.map (·.timestamp) = some burst.beginTime
  endTime : members.getLast?.map (·.timestamp) = some burst.endTime
  bytes : burst.bytes = Packet.bytes members

namespace Segmentation
variable {α : Type} [Scalar α] {gap : α} {run : Run α} {before members packets : List (Packet α)}
  {p q : Packet α} {ranges : List PacketRange} {timeline : Timeline α}

/-- Two packets that stay in one burst. -/
def near (gap : α) (p q : Packet α) : Bool := decide (q.timestamp - p.timestamp ≤ gap)

/-- Ranges of positions that cut packets up into bursts. -/
structure Partitions (gap : α) (packets : List (Packet α)) (ranges : List PacketRange) : Prop where
  /-- None is empty, each starts where the one before it stops, and together they cover all. -/
  cover : PacketRange.Cover packets.length 0 ranges
  within : ∀ range ∈ ranges,
    (range.slice packets).IsChain fun p q => q.timestamp - p.timestamp ≤ gap
  between : ranges.IsChain fun r s => ∃ p q, (r.slice packets).getLast? = some p ∧
    (s.slice packets).head? = some q ∧ gap < q.timestamp - p.timestamp

/-- A run has counted the packets of a stretch without a wide gap, after earlier ones. -/
structure Run.Counts (gap : α) (run : Run α) (before members : List (Packet α)) : Prop
    extends run.Holds before members where
  latest : members.getLast?.map (·.timestamp) = some run.latestTime
  bytes : run.bytes = Packet.bytes members
  close : members.IsChain fun p q => near gap p q

namespace Run.Counts

theorem start (gap : α) (p : Packet α) {first : ℕ} (h : first = before.length) :
    (Run.start first p).Counts gap before [p] where
  first := h
  count := rfl
  began := rfl
  latest := rfl
  bytes := rfl
  close := List.isChain_singleton p

theorem timestamp_getLast (h : run.Counts gap before members) {last : Packet α}
    (hlast : last ∈ members.getLast?) : last.timestamp = run.latestTime := by
  simpa [Option.mem_def.mp hlast] using h.latest

theorem push (h : run.Counts gap before members) (hp : p.timestamp - run.latestTime ≤ gap) :
    (run.push p).Counts gap before (members ++ [p]) where
  toHolds := h.toHolds.push p
  latest := by simp [Run.push]
  bytes := by simp [Run.push, h.bytes]
  close := by
    refine List.isChain_append.mpr ⟨h.close, List.isChain_singleton p, ?_⟩
    rintro last hlast q hq
    obtain rfl : p = q := by simpa using hq
    exact decide_eq_true (h.timestamp_getLast hlast ▸ hp)

theorem next (h : run.Counts gap before members) (p : Packet α) :
    (Run.start run.stop p).Counts gap (before ++ members) [p] :=
  start gap p (h.toHolds.start p).first

theorem ne_nil (h : run.Counts gap before members) : members ≠ [] := by
  rintro rfl
  simpa using h.latest

/-- A packet that is too far from a run splits what follows off. -/
theorem splitBy_append (h : run.Counts gap before members)
    (hp : ¬ p.timestamp - run.latestTime ≤ gap) (rest : List (Packet α)) :
    (members ++ p :: rest).splitBy (near gap) = members :: (p :: rest).splitBy (near gap) := by
  have hfar : ∀ last ∈ members.getLast?, near gap last p = false := by
    intro last hlast
    exact decide_eq_false (h.timestamp_getLast hlast ▸ hp)
  rw [List.splitBy_append_cons rest hfar, List.splitBy_of_isChain h.ne_nil h.close,
    List.singleton_append]

theorem sumsUp_close (h : run.Counts gap before members) : run.close.SumsUp members where
  beginTime := h.began
  endTime := h.latest
  bytes := h.bytes

end Run.Counts

/-- A run goes on to the ranges of the stretches that are left after splitting at wide gaps. -/
theorem map_packets_continueRun (h : run.Counts gap before members) :
    (continueRun gap run packets).map (·.packets) =
      PacketRange.following before.length ((members ++ packets).splitBy (near gap)) := by
  induction packets generalizing run before members with
  | nil =>
    rw [List.append_nil, List.splitBy_of_isChain h.ne_nil h.close, continueRun]
    simp [PacketRange.following, h.toHolds.close.range]
  | cons p rest ih =>
    rw [continueRun]
    split
    · next hp => simpa using ih (h.push hp)
    · next hp =>
      rw [h.splitBy_append hp rest, PacketRange.following, List.map_cons, ih (h.next p),
        h.toHolds.close.range, List.length_append, List.singleton_append]

theorem sumsUp_continueRun (h : run.Counts gap before members) :
    List.Forall₂ Burst.SumsUp (continueRun gap run packets)
      ((members ++ packets).splitBy (near gap)) := by
  induction packets generalizing run before members with
  | nil =>
    rw [List.append_nil, List.splitBy_of_isChain h.ne_nil h.close, continueRun]
    exact .cons h.sumsUp_close .nil
  | cons p rest ih =>
    rw [continueRun]
    split
    · next hp => simpa using ih (h.push hp)
    · next hp =>
      rw [h.splitBy_append hp rest]
      exact .cons h.sumsUp_close (ih (h.next p))

theorem map_packets_segment (gap : α) (timeline : Timeline α) :
    (segment gap timeline).map (·.packets) =
      PacketRange.following 0 (timeline.packets.splitBy (near gap)) := by
  rw [segment]
  split
  · next heq =>
    rw [heq]
    rfl
  · next p rest heq =>
    rw [heq]
    have hstart : (Run.start 0 p).Counts gap [] [p] := .start gap p rfl
    exact map_packets_continueRun hstart

theorem map_members_segment (gap : α) (timeline : Timeline α) :
    (segment gap timeline).map (·.members timeline) = timeline.packets.splitBy (near gap) := by
  have hslices := PacketRange.map_slice_following [] (timeline.packets.splitBy (near gap))
  rw [List.nil_append, List.flatten_splitBy, List.length_nil, ← map_packets_segment,
    List.map_map] at hslices
  exact hslices

theorem sumsUp_of_mem_segment {burst : Burst α} (hb : burst ∈ segment gap timeline) :
    burst.SumsUp (burst.members timeline) := by
  have hsums : List.Forall₂ Burst.SumsUp (segment gap timeline)
      ((segment gap timeline).map (·.members timeline)) := by
    rw [map_members_segment, segment]
    split
    · next heq =>
      rw [heq]
      exact .nil
    · next p rest heq =>
      rw [heq]
      have hstart : (Run.start 0 p).Counts gap [] [p] := .start gap p rfl
      exact sumsUp_continueRun hstart
  exact List.forall₂_same.mp (List.forall₂_map_right_iff.mp hsums) burst hb

section Exact
variable [Lawful α]

/-- Between amounts, a distance that is not within the gap exceeds it. -/
theorem near_eq_false_iff (hg : gap ≤ gap) (hp : IsAmount p.timestamp) (hq : IsAmount q.timestamp) :
    near gap p q = false ↔ gap < q.timestamp - p.timestamp := by
  have hdistance : q.timestamp - p.timestamp ≤ q.timestamp - p.timestamp :=
    Scalar.le_self_left (Lawful.sub_le hq.nonneg hp.nonneg hp.1)
  rw [near, decide_eq_false_iff_not]
  exact ⟨Scalar.lt_of_not_le hdistance hg, Scalar.not_le_of_lt⟩

/-- Packets are partitioned by the stretches that are left after splitting at wide gaps. -/
theorem partitions_iff (hg : gap ≤ gap) (hstamp : ∀ p ∈ packets, IsAmount p.timestamp) :
    Partitions gap packets ranges ↔
      ranges = PacketRange.following 0 (packets.splitBy (near gap)) := by
  have hstamps {r : PacketRange} {p : Packet α} (hp : p ∈ r.slice packets) :
      IsAmount p.timestamp := hstamp p (PacketRange.mem_of_mem_slice hp)
  have hbetween (r s : PacketRange) :
      (∃ p q, (r.slice packets).getLast? = some p ∧ (s.slice packets).head? = some q ∧
        gap < q.timestamp - p.timestamp) ↔
      ∃ hr hs, near gap ((r.slice packets).getLast hr) ((s.slice packets).head hs) = false := by
    constructor
    · rintro ⟨p, q, hp, hq, hfar⟩
      have hpmem := List.mem_of_getLast? hp
      have hqmem := List.mem_of_head? hq
      refine ⟨List.ne_nil_of_mem hpmem, List.ne_nil_of_mem hqmem, ?_⟩
      rw [List.getLast_of_mem_getLast? hp, List.head_of_mem_head? hq]
      exact (near_eq_false_iff hg (hstamps hpmem) (hstamps hqmem)).mpr hfar
    · rintro ⟨hr, hs, hfar⟩
      refine ⟨_, _, List.getLast?_eq_some_getLast hr, List.head?_eq_some_head hs, ?_⟩
      have hp := hstamps (List.getLast_mem hr)
      have hq := hstamps (List.head_mem hs)
      exact (near_eq_false_iff hg hp hq).mp hfar
  constructor
  · intro h
    have hflatten : (ranges.map (·.slice packets)).flatten = packets := h.cover.flatten_slices
    have hsplit : packets.splitBy (near gap) = ranges.map (·.slice packets) := by
      refine List.splitBy_eq_iff.mpr ⟨hflatten.symm, h.cover.ne_nil_of_mem, ?_, ?_⟩
      · rw [List.forall_mem_map]
        exact fun range hrange => (h.within range hrange).imp fun _ _ => decide_eq_true
      · exact (List.isChain_map _).mpr (h.between.imp fun r s => (hbetween r s).mp)
    rw [hsplit]
    exact h.cover.eq_following
  · intro h
    have hflatten : (packets.splitBy (near gap)).flatten = packets := List.flatten_splitBy _ _
    have hslices : ranges.map (·.slice packets) = packets.splitBy (near gap) := by
      have hmap := PacketRange.map_slice_following [] (packets.splitBy (near gap))
      rwa [hflatten, List.nil_append, List.length_nil, ← h] at hmap
    have hfar := List.isChain_getLast_head_splitBy (near gap) packets
    rw [← hslices] at hfar
    constructor
    · have hcover := PacketRange.cover_following 0 (List.nil_notMem_splitBy (near gap) packets)
      rwa [hflatten, Nat.zero_add, ← h] at hcover
    · intro range hrange
      have hmem : range.slice packets ∈ packets.splitBy (near gap) :=
        hslices ▸ List.mem_map_of_mem hrange
      exact (List.isChain_of_mem_splitBy hmem).imp fun _ _ => of_decide_eq_true
    · exact ((List.isChain_map _).mp hfar).imp fun r s => (hbetween r s).mpr

/-- Bursts end before the next one begins. -/
theorem Partitions.endTime_lt_beginTime (hg : 0 ≤ gap)
    (hstamp : ∀ p ∈ timeline.packets, IsAmount p.timestamp)
    (h : Partitions gap timeline.packets ((segment gap timeline).map (·.packets))) :
    (segment gap timeline).IsChain fun b c => b.endTime < c.beginTime := by
  refine ((List.isChain_map _).mp h.between).imp_of_mem_imp fun b c hb hc => ?_
  rintro ⟨p, q, hp, hq, hfar⟩
  have hend : p.timestamp = b.endTime := by
    simpa [Burst.members, hp] using (sumsUp_of_mem_segment hb).endTime
  have hbegin : q.timestamp = c.beginTime := by
    simpa [Burst.members, hq] using (sumsUp_of_mem_segment hc).beginTime
  have hps := hstamp p (PacketRange.mem_of_mem_slice (List.mem_of_getLast? hp))
  have hqs := hstamp q (PacketRange.mem_of_mem_slice (List.mem_of_head? hq))
  rw [← hend, ← hbegin]
  by_contra hle
  have hback := Scalar.le_of_not_lt (Lawful.le_self_of_isFinite hps.1)
    (Lawful.le_self_of_isFinite hqs.1) hle
  exact Scalar.not_le_of_lt hfar (Lawful.le_trans (Lawful.sub_nonpos hqs.nonneg hback hps.1) hg)

/-- The ranges of the bursts of a timeline are the one way to cut it where neighbours are more than
the gap apart. Every burst sums its packets up and ends before the next one begins. -/
theorem segment_partitions (hv : timeline.validate = .ok ()) (hg : 0 ≤ gap) :
    (∀ ranges, Partitions gap timeline.packets ranges ↔
      ranges = (segment gap timeline).map (·.packets)) ∧
    (∀ burst ∈ segment gap timeline, burst.SumsUp (burst.members timeline)) ∧
    (segment gap timeline).IsChain fun b c => b.endTime < c.beginTime := by
  have hstamp := Timeline.isAmount_of_checkTimestamps (check_bind_eq_ok_iff.mp hv).1
  have hunique (ranges : List PacketRange) : Partitions gap timeline.packets ranges ↔
      ranges = (segment gap timeline).map (·.packets) := by
    rw [map_packets_segment]
    exact partitions_iff (Scalar.le_self_right hg) hstamp
  exact ⟨hunique, fun burst => sumsUp_of_mem_segment,
    ((hunique _).mpr rfl).endTime_lt_beginTime hg hstamp⟩

/-- A distance of just the gap stays inside a burst, and so do packets of one time. -/
theorem segment_partitions_tie :
    (⟨[.data 0 .uplink 100, .data 1.5 .uplink 200, .data 1.5 .downlink 300,
      .data 3.25 .uplink 400]⟩ : Timeline Float).validate = .ok () ∧ (0 : Float) ≤ 1.5 ∧
    Partitions (1.5 : Float) [.data 0 .uplink 100, .data 1.5 .uplink 200, .data 1.5 .downlink 300,
      .data 3.25 .uplink 400] [⟨0, 3⟩, ⟨3, 4⟩] := by
  have hv : (⟨[.data 0 .uplink 100, .data 1.5 .uplink 200, .data 1.5 .downlink 300,
      .data 3.25 .uplink 400]⟩ : Timeline Float).validate = .ok () := by decide +kernel
  have hg : (0 : Float) ≤ 1.5 := by decide +kernel
  exact ⟨hv, hg, ((segment_partitions hv hg).1 _).mpr (by decide +kernel)⟩

end Exact

end Segmentation
end BurstEnergy
