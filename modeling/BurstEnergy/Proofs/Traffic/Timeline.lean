import BurstEnergy.Error
import BurstEnergy.Proofs.CutPoint
import BurstEnergy.Proofs.Scalar.Lawful
import BurstEnergy.Traffic

/-!
# Validated traces

A trace that passes its checks has finite timestamps that are not negative and never step back, and
a finite duration that no packet exceeds. On packets in order the slices of neighbouring spans
follow each other without a packet lost or counted twice.
-/
namespace BurstEnergy.Traffic
open Scalar (Lawful IsAmount)
variable {α : Type} [Scalar α]

namespace Timeline

/-- No packet is earlier than any packet before it. -/
def Ordered (timeline : Timeline α) : Prop :=
  timeline.packets.Pairwise fun p q => p.timestamp ≤ q.timestamp

theorem isAmount_of_checkTimestamps {index : ℕ} {packets : List (Packet α)}
    (h : checkTimestamps index packets = .ok ()) : ∀ p ∈ packets, IsAmount p.timestamp := by
  induction packets generalizing index with
  | nil => exact nofun
  | cons p rest ih =>
    rw [checkTimestamps] at h
    split at h
    · next hp => exact List.forall_mem_cons.mpr ⟨hp, ih h⟩
    · cases h

variable [Lawful α]

theorem pairwise_of_checkOrder {index : ℕ} {packets : List (Packet α)}
    (hs : ∀ p ∈ packets, IsAmount p.timestamp) (h : checkOrder index packets = .ok ()) :
    packets.Pairwise fun p q => p.timestamp ≤ q.timestamp := by
  induction packets generalizing index with
  | nil => exact .nil
  | cons p rest ih =>
    obtain ⟨hp, hrest⟩ := List.forall_mem_cons.mp hs
    cases rest with
    | nil => exact List.pairwise_singleton _ _
    | cons q rest =>
      rw [checkOrder] at h
      split at h
      · cases h
      · next hpq =>
        have hlater := ih hrest h
        have hq : IsAmount q.timestamp := hrest q List.mem_cons_self
        have hself : p.timestamp ≤ p.timestamp := Lawful.le_self_of_isFinite hp.1
        have hle : p.timestamp ≤ q.timestamp :=
          Scalar.le_of_not_lt (Lawful.le_self_of_isFinite hq.1) hself hpq
        refine List.pairwise_cons.mpr ⟨?_, hlater⟩
        intro r hr
        rcases List.mem_cons.mp hr with rfl | hr
        · exact hle
        · exact Lawful.le_trans hle ((List.pairwise_cons.mp hlater).1 r hr)

/-- On packets in order, being earlier than a time is cut where it stops to hold. -/
theorem Ordered.pairwise_lt {timeline : Timeline α} (h : timeline.Ordered) (t : α) :
    timeline.packets.Pairwise fun p q =>
      decide (q.timestamp < t) = true → decide (p.timestamp < t) = true := by
  refine List.Pairwise.imp ?_ h
  intro p q hpq hq
  exact decide_eq_true (Scalar.lt_of_le_of_lt hpq (of_decide_eq_true hq))

theorem Ordered.between_eq_filter {timeline : Timeline α} (h : timeline.Ordered) (start stop : α) :
    timeline.between start stop = timeline.packets.filter fun p =>
      decide (p.timestamp < stop) && !decide (p.timestamp < start) :=
  take_drop_cutLength (h.pairwise_lt start) (h.pairwise_lt stop)

theorem Ordered.between_append {timeline : Timeline α} (h : timeline.Ordered) {start mid stop : α}
    (hs : start ≤ mid) (hm : mid ≤ stop) :
    timeline.between start stop = timeline.between start mid ++ timeline.between mid stop := by
  have hcut {s t : α} (hst : s ≤ t) :
      cutLength (fun p => decide (p.timestamp < s)) timeline.packets ≤
        cutLength (fun p => decide (p.timestamp < t)) timeline.packets := by
    refine cutLength_mono (h.pairwise_lt s) (h.pairwise_lt t) fun p hp => ?_
    exact decide_eq_true (Scalar.lt_of_lt_of_le (of_decide_eq_true hp) hst)
  have hlow := hcut hs
  have hhigh := hcut hm
  simp only [between]
  generalize cutLength (fun p => decide (p.timestamp < start)) timeline.packets = a at *
  generalize cutLength (fun p => decide (p.timestamp < mid)) timeline.packets = b at *
  generalize cutLength (fun p => decide (p.timestamp < stop)) timeline.packets = c at *
  obtain ⟨m, rfl⟩ := Nat.exists_eq_add_of_le hlow
  obtain ⟨n, rfl⟩ := Nat.exists_eq_add_of_le hhigh
  rw [Nat.add_assoc, Nat.add_sub_cancel_left, Nat.add_sub_cancel_left, List.take_add,
    List.drop_drop, ← Nat.add_assoc, Nat.add_sub_cancel_left]

end Timeline

namespace Trace

/-- What the checks of a trace establish. -/
structure WellFormed (trace : Trace α) : Prop where
  timestamp : ∀ p ∈ trace.timeline.packets, IsAmount p.timestamp
  ordered : trace.timeline.Ordered
  duration : IsAmount trace.duration
  covered : ∀ p ∈ trace.timeline.packets, p.timestamp ≤ trace.duration

theorem wellFormed_of_validate [Lawful α] {trace : Trace α} (h : trace.validate = .ok ()) :
    trace.WellFormed := by
  obtain ⟨hpackets, hduration⟩ := check_bind_eq_ok_iff.mp h
  obtain ⟨hstamps, horder⟩ := check_bind_eq_ok_iff.mp hpackets
  have htimestamp := Timeline.isAmount_of_checkTimestamps hstamps
  have hordered := Timeline.pairwise_of_checkOrder htimestamp horder
  unfold checkDuration at hduration
  split at hduration
  · cases hduration
  · next hamount =>
    split at hduration
    · cases hduration
    · next hlast =>
      rw [not_or, Bool.not_eq_false] at hamount
      refine ⟨htimestamp, hordered, hamount, fun p hp => ?_⟩
      have hself := Lawful.le_self_of_isFinite hamount.1
      obtain ⟨front, last, hsplit⟩ : ∃ front last, trace.timeline.packets = front ++ [last] :=
        ⟨_, _, (List.dropLast_append_getLast (List.ne_nil_of_mem hp)).symm⟩
      have hlast' : trace.timeline.lastTimestamp = last.timestamp := by
        simp [Timeline.lastTimestamp, hsplit]
      have hle : last.timestamp ≤ trace.duration := by
        rw [hlast'] at hlast
        have hnum := htimestamp last (by simp [hsplit])
        exact Scalar.le_of_not_lt hself (Lawful.le_self_of_isFinite hnum.1) hlast
      rw [hsplit] at hp hordered
      rcases List.mem_append.mp hp with hp | hp
      · exact Lawful.le_trans ((List.pairwise_append.mp hordered).2.2 p hp last (by simp)) hle
      · obtain rfl := List.mem_singleton.mp hp
        exact hle

end Trace
end BurstEnergy.Traffic
