import BurstEnergy.Proofs.Burst.Segments

/-!
# Packets of a burst

Which packets of a timeline a burst stands for, on traces that are in order and on any others.
-/
namespace BurstEnergy

/-! ## The packets of a burst

A burst of a segmented timeline stands for a stretch of its packets: those before it are earlier
than the begin of the burst, and those after it later than its end. So of the time of the burst, its
end left out, the timeline shows just the packets of the burst that come before the end.
-/
section Ordered
open Scalar (Lawful IsAmount)
open Traffic (Packet Timeline Trace)
variable {α : Type} [Scalar α]

/-- A burst stands for some packets, between earlier and later ones. -/
structure Burst.StandsFor (burst : Burst α) (before members after : List (Packet α)) : Prop where
  range : burst.packets = ⟨before.length, before.length + members.length⟩
  earlier : ∀ p ∈ before, p.timestamp < burst.beginTime
  within : ∀ p ∈ members, burst.beginTime ≤ p.timestamp ∧ p.timestamp ≤ burst.endTime
  later : ∀ p ∈ after, burst.endTime < p.timestamp

theorem PacketRange.slice_append {β : Type} (before members after : List β) :
    PacketRange.slice ⟨before.length, before.length + members.length⟩ (before ++ members ++ after) =
      members := by
  have hlength : before.length + members.length ≤ (before ++ members ++ after).length := by simp
  rw [slice, if_pos ⟨Nat.le_add_right _ _, hlength⟩, size, Nat.add_sub_cancel_left,
    List.append_assoc, List.drop_left, List.take_left]

namespace Burst
variable {burst other : Burst α} {before members after : List (Packet α)} {timeline : Timeline α}

/-- Only the times and the range of a burst decide what it stands for. -/
theorem StandsFor.of_eq (h : burst.StandsFor before members after)
    (htimes : other.times = burst.times) (hrange : other.packets = burst.packets) :
    other.StandsFor before members after := by
  obtain ⟨hbegin, hend⟩ := Prod.mk.inj htimes
  constructor
  · rw [hrange, h.range]
  · rw [hbegin]
    exact h.earlier
  · rw [hbegin, hend]
    exact h.within
  · rw [hend]
    exact h.later

omit [Scalar α] in
theorem members_of_range (hrange : burst.packets = ⟨before.length, before.length + members.length⟩)
    (ht : timeline.packets = before ++ members ++ after) : burst.members timeline = members := by
  rw [Burst.members, hrange, ht, PacketRange.slice_append]

theorem StandsFor.members_eq (h : burst.StandsFor before members after)
    (ht : timeline.packets = before ++ members ++ after) : burst.members timeline = members :=
  members_of_range h.range ht

/-- The time of a burst shows its packets before its end. -/
theorem StandsFor.between_eq [Lawful α] (h : burst.StandsFor before members after)
    (ho : timeline.Ordered) (ht : timeline.packets = before ++ members ++ after) :
    timeline.between burst.beginTime burst.endTime =
      (burst.members timeline).filter fun p => p.timestamp < burst.endTime := by
  have hbefore : before.filter (fun p => decide (p.timestamp < burst.endTime) &&
      !decide (p.timestamp < burst.beginTime)) = [] :=
    List.filter_eq_nil_iff.mpr fun p hp => by simp [h.earlier p hp]
  have hafter : after.filter (fun p => decide (p.timestamp < burst.endTime) &&
      !decide (p.timestamp < burst.beginTime)) = [] :=
    List.filter_eq_nil_iff.mpr fun p hp => by
      simp [Scalar.not_lt_of_le (Scalar.le_of_lt (h.later p hp))]
  rw [ho.between_eq_filter, ht, List.filter_append, List.filter_append, hbefore, hafter,
    List.nil_append, List.append_nil, h.members_eq ht]
  refine List.filter_congr fun p hp => ?_
  simp [Scalar.not_lt_of_le (h.within p hp).1]

end Burst

namespace Segmentation

/-- A run has collected some packets, after earlier ones. -/
structure Run.Collects (run : Run α) (before members : List (Packet α)) : Prop where
  first : run.first = before.length
  count : run.count = members.length
  earlier : ∀ p ∈ before, p.timestamp < run.beginTime
  within : ∀ p ∈ members, run.beginTime ≤ p.timestamp ∧ p.timestamp ≤ run.latestTime
  ordered : run.beginTime ≤ run.latestTime

variable {gap : α} {run : Run α} {before members after packets : List (Packet α)} {p : Packet α}

namespace Run.Collects

theorem close (h : run.Collects before members)
    (hafter : ∀ q ∈ after, run.latestTime < q.timestamp) :
    run.close.StandsFor before members after where
  range := by
    simp only [Run.close, Burst.fresh, Run.stop, h.first, h.count]
  earlier := h.earlier
  within := h.within
  later := hafter

variable [Lawful α]

theorem push (h : run.Collects before members) (hp : run.latestTime ≤ p.timestamp) :
    (run.push p).Collects before (members ++ [p]) where
  first := h.first
  count := by simp [Run.push, h.count]
  earlier := h.earlier
  within := by
    have hlatest : p.timestamp ≤ p.timestamp := Scalar.le_self_right hp
    rw [List.forall_mem_append]
    refine ⟨fun q hq => ⟨(h.within q hq).1, Lawful.le_trans (h.within q hq).2 hp⟩, ?_⟩
    rw [List.forall_mem_singleton]
    exact ⟨Lawful.le_trans h.ordered hp, hlatest⟩
  ordered := Lawful.le_trans h.ordered hp

theorem start (h : run.Collects before members) (hp : run.latestTime < p.timestamp) :
    (Run.start run.stop p).Collects (before ++ members) [p] where
  first := by simp [Run.start, Run.stop, h.first, h.count]
  count := rfl
  earlier := by
    rw [List.forall_mem_append]
    refine ⟨fun q hq => ?_, fun q hq => Scalar.lt_of_le_of_lt (h.within q hq).2 hp⟩
    exact Scalar.lt_of_lt_of_le (h.earlier q hq) (Lawful.le_trans h.ordered (Scalar.le_of_lt hp))
  within := by
    have hself : p.timestamp ≤ p.timestamp := Scalar.le_self_right (Scalar.le_of_lt hp)
    rw [List.forall_mem_singleton]
    exact ⟨hself, hself⟩
  ordered := Scalar.le_self_right (Scalar.le_of_lt hp)

end Run.Collects

variable [Lawful α]

/-- The bursts that a run goes on to stand for what it has collected and what follows. -/
theorem standsFor_of_mem_continueRun (hg : IsAmount gap) (hrun : run.Collects before members)
    (hlatest : IsAmount run.latestTime) (hstamp : ∀ q ∈ packets, IsAmount q.timestamp)
    (hlater : ∀ q ∈ packets, run.latestTime ≤ q.timestamp)
    (hordered : packets.Pairwise fun q r => q.timestamp ≤ r.timestamp) {burst : Burst α}
    (hb : burst ∈ continueRun gap run packets) :
    ∃ front mid back, before ++ members ++ packets = front ++ mid ++ back ∧
      burst.StandsFor front mid back := by
  induction packets generalizing run before members with
  | nil =>
    obtain rfl := List.mem_singleton.mp hb
    exact ⟨before, members, [], rfl, hrun.close fun q hq => absurd hq List.not_mem_nil⟩
  | cons p rest ih =>
    obtain ⟨hp, hstamp⟩ := List.forall_mem_cons.mp hstamp
    obtain ⟨hle, -⟩ := List.forall_mem_cons.mp hlater
    obtain ⟨hnext, hordered⟩ := List.pairwise_cons.mp hordered
    rw [continueRun] at hb
    split at hb
    · obtain ⟨front, mid, back, hsplit, hstands⟩ := ih (hrun.push hle) hp hstamp hnext hordered hb
      exact ⟨front, mid, back, by simpa using hsplit, hstands⟩
    · next hfar =>
      have hlt : run.latestTime < p.timestamp := lt_of_not_sub_le hg hlatest hp hfar
      rcases List.mem_cons.mp hb with rfl | hb
      · refine ⟨before, members, p :: rest, rfl, hrun.close ?_⟩
        exact List.forall_mem_cons.mpr ⟨hlt, fun q hq => Scalar.lt_of_lt_of_le hlt (hnext q hq)⟩
      · obtain ⟨front, mid, back, hsplit, hstands⟩ :=
          ih (hrun.start hlt) hp hstamp hnext hordered hb
        exact ⟨front, mid, back, by simpa using hsplit, hstands⟩

/-- A burst of a well-formed trace stands for a stretch of its packets. -/
theorem standsFor_of_mem_segment {trace : Trace α} (h : trace.WellFormed) (hg : IsAmount gap)
    {burst : Burst α} (hb : burst ∈ segment gap trace.timeline) :
    ∃ before members after, trace.timeline.packets = before ++ members ++ after ∧
      burst.StandsFor before members after := by
  have hstamp := h.timestamp
  have hordered := h.ordered
  unfold Timeline.Ordered at hordered
  rw [segment] at hb
  split at hb
  · exact absurd hb List.not_mem_nil
  · next p rest heq =>
    rw [heq] at hstamp hordered ⊢
    obtain ⟨hp, hstamp⟩ := List.forall_mem_cons.mp hstamp
    obtain ⟨hnext, hordered⟩ := List.pairwise_cons.mp hordered
    have hself : p.timestamp ≤ p.timestamp := Lawful.le_self_of_isFinite hp.1
    have hstart : (Run.start 0 p).Collects [] [p] :=
      ⟨rfl, rfl, List.forall_mem_nil _, List.forall_mem_singleton.mpr ⟨hself, hself⟩, hself⟩
    exact standsFor_of_mem_continueRun hg hstart hp hstamp hnext hordered hb

end Segmentation

end Ordered

/-! ## Bursts and the packets they hold

Whatever the gap and whatever the times, a burst stands for a stretch of packets of its timeline.
The stretch is never empty, and the burst begins when its first packet does.
-/
section Any
open Traffic (Packet Timeline)
variable {α : Type}

/-- A burst holds packets that follow others, the first of them when it begins. -/
structure Burst.Holds (burst : Burst α) (before members : List (Packet α)) : Prop where
  range : burst.packets = ⟨before.length, before.length + members.length⟩
  first : members.head?.map (·.timestamp) = some burst.beginTime

namespace Burst.Holds
variable {burst : Burst α} {before members after : List (Packet α)} {timeline : Timeline α}

theorem exists_cons (h : burst.Holds before members) :
    ∃ p rest, members = p :: rest ∧ burst.beginTime = p.timestamp := by
  obtain ⟨p, hp, hbegin⟩ := Option.map_eq_some_iff.mp h.first
  obtain ⟨rest, hrest⟩ := List.head?_eq_some_iff.mp hp
  exact ⟨p, rest, hrest, hbegin.symm⟩

theorem members_eq (h : burst.Holds before members)
    (ht : timeline.packets = before ++ members ++ after) : burst.members timeline = members :=
  members_of_range h.range ht

end Burst.Holds

namespace Segmentation
variable {gap : α} {run : Run α} {before members packets : List (Packet α)} {p : Packet α}

/-- A run holds packets that follow others, the first of them when it began. -/
structure Run.Holds (run : Run α) (before members : List (Packet α)) : Prop where
  first : run.first = before.length
  count : run.count = members.length
  began : members.head?.map (·.timestamp) = some run.beginTime

namespace Run.Holds

theorem push (h : run.Holds before members) (p : Packet α) :
    (run.push p).Holds before (members ++ [p]) where
  first := h.first
  count := by simp [Run.push, h.count]
  began := by
    obtain ⟨q, hq, hbegin⟩ := Option.map_eq_some_iff.mp h.began
    simp [List.head?_append, hq, hbegin, Run.push]

theorem start (h : run.Holds before members) (p : Packet α) :
    (Run.start run.stop p).Holds (before ++ members) [p] where
  first := by simp [Run.start, Run.stop, h.first, h.count]
  count := rfl
  began := rfl

theorem close [Scalar α] (h : run.Holds before members) : run.close.Holds before members where
  range := by simp only [Run.close, Burst.fresh, Run.stop, h.first, h.count]
  first := h.began

end Run.Holds

variable [Scalar α]

/-- The bursts that a run goes on to hold what it has collected and what follows. -/
theorem holds_of_mem_continueRun (hrun : run.Holds before members) {burst : Burst α}
    (hb : burst ∈ continueRun gap run packets) :
    ∃ front mid back, before ++ members ++ packets = front ++ mid ++ back ∧
      burst.Holds front mid := by
  induction packets generalizing run before members with
  | nil =>
    obtain rfl := List.mem_singleton.mp hb
    exact ⟨before, members, [], rfl, hrun.close⟩
  | cons p rest ih =>
    rw [continueRun] at hb
    split at hb
    · obtain ⟨front, mid, back, hsplit, hholds⟩ := ih (hrun.push p) hb
      exact ⟨front, mid, back, by simpa using hsplit, hholds⟩
    · rcases List.mem_cons.mp hb with rfl | hb
      · exact ⟨before, members, p :: rest, rfl, hrun.close⟩
      · obtain ⟨front, mid, back, hsplit, hholds⟩ := ih (hrun.start p) hb
        exact ⟨front, mid, back, by simpa using hsplit, hholds⟩

/-- A burst of a timeline holds a stretch of its packets. -/
theorem holds_of_mem_segment {timeline : Timeline α} {burst : Burst α}
    (hb : burst ∈ segment gap timeline) :
    ∃ before members after, timeline.packets = before ++ members ++ after ∧
      burst.Holds before members := by
  rw [segment] at hb
  split at hb
  · exact absurd hb List.not_mem_nil
  · next p rest heq =>
    rw [heq]
    have hstart : (Run.start 0 p).Holds [] [p] := ⟨rfl, rfl, rfl⟩
    exact holds_of_mem_continueRun hstart hb

/-- A burst of a timeline has packets of it, and begins with the first of them. -/
theorem exists_members_of_mem_segment {timeline : Timeline α} {burst : Burst α}
    (hb : burst ∈ segment gap timeline) :
    ∃ p rest, burst.members timeline = p :: rest ∧ p ∈ timeline.packets ∧
      burst.beginTime = p.timestamp := by
  obtain ⟨before, members, after, hsplit, hholds⟩ := holds_of_mem_segment hb
  obtain ⟨p, rest, rfl, hbegin⟩ := hholds.exists_cons
  exact ⟨p, rest, hholds.members_eq hsplit, by simp [hsplit], hbegin⟩

end Segmentation

end Any

end BurstEnergy
