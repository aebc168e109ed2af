import BurstEnergy.Proofs.Scalar.Lawful
import BurstEnergy.Proofs.Traffic.Timeline

/-!
# Which traces are accepted, and why others are not

Packets and a duration are accepted just when every timestamp is finite and not negative, no packet
is earlier than the one before it, and the duration is finite, not negative and reaches the last
packet. What is refused is refused for its first fault: timestamps are looked at before their order,
packets before the duration. Sorting a capture leaves no fault of order.
-/
namespace BurstEnergy
open Scalar (Lawful IsAmount Sortable)

namespace Traffic
variable {α : Type} [Scalar α]

/-- Packets and a duration that make up a trace. -/
structure Admissible (packets : List (Packet α)) (duration : α) : Prop where
  timestamp : ∀ p ∈ packets, Scalar.isFinite p.timestamp = true ∧ 0 ≤ p.timestamp
  order : packets.IsChain fun p q => p.timestamp ≤ q.timestamp
  validDuration : Scalar.isFinite duration = true ∧ 0 ≤ duration
  reached : ∀ p, packets.getLast? = some p → p.timestamp ≤ duration

/-- The first thing that is wrong with packets and a duration. -/
inductive Fault (packets : List (Packet α)) (duration : α) : Error α → Prop
  /-- The first timestamp that no packet may carry, in whatever order the packets are. -/
  | timestamp {before after : List (Packet α)} {p : Packet α}
      (split : packets = before ++ p :: after)
      (valid : ∀ q ∈ before, Scalar.isFinite q.timestamp = true ∧ 0 ≤ q.timestamp)
      (invalid : ¬ (Scalar.isFinite p.timestamp = true ∧ 0 ≤ p.timestamp)) :
      Fault packets duration (.invalidTimestamp before.length p.timestamp)
  /-- The first packet that is earlier than the one before it. -/
  | order {before after : List (Packet α)} {p q : Packet α}
      (valid : ∀ r ∈ packets, Scalar.isFinite r.timestamp = true ∧ 0 ≤ r.timestamp)
      (split : packets = before ++ p :: q :: after)
      (ordered : (before ++ [p]).IsChain fun r s => r.timestamp ≤ s.timestamp)
      (back : q.timestamp < p.timestamp) :
      Fault packets duration (.unsortedTimeline (before.length + 1) p.timestamp q.timestamp)
  | duration
      (valid : ∀ r ∈ packets, Scalar.isFinite r.timestamp = true ∧ 0 ≤ r.timestamp)
      (ordered : packets.IsChain fun r s => r.timestamp ≤ s.timestamp)
      (invalid : ¬ (Scalar.isFinite duration = true ∧ 0 ≤ duration)) :
      Fault packets duration (.invalidDuration duration)
  | last {p : Packet α}
      (valid : ∀ r ∈ packets, Scalar.isFinite r.timestamp = true ∧ 0 ≤ r.timestamp)
      (ordered : packets.IsChain fun r s => r.timestamp ≤ s.timestamp)
      (validDuration : Scalar.isFinite duration = true ∧ 0 ≤ duration)
      (last : packets.getLast? = some p) (short : duration < p.timestamp) :
      Fault packets duration (.traceTooShort p.timestamp duration)

namespace Timeline
variable {index : ℕ} {packets : List (Packet α)} {e : Error α}

theorem checkTimestamps_eq_ok_iff :
    checkTimestamps index packets = .ok () ↔ ∀ p ∈ packets, ValidTimestamp p.timestamp := by
  refine ⟨isAmount_of_checkTimestamps, fun h => ?_⟩
  induction packets generalizing index with
  | nil => rfl
  | cons p rest ih =>
    obtain ⟨hp, hrest⟩ := List.forall_mem_cons.mp h
    rw [checkTimestamps, if_pos hp, ih hrest]

/-- The first timestamp that is not valid is reported. -/
theorem checkTimestamps_eq_error_iff :
    checkTimestamps index packets = .error e ↔
      ∃ before p after, packets = before ++ p :: after ∧
        (∀ q ∈ before, ValidTimestamp q.timestamp) ∧ ¬ ValidTimestamp p.timestamp ∧
        e = .invalidTimestamp (index + before.length) p.timestamp := by
  constructor
  · intro h
    induction packets generalizing index with
    | nil => cases h
    | cons p rest ih =>
      rw [checkTimestamps] at h
      split at h
      · next hp =>
        obtain ⟨before, q, after, rfl, hvalid, hq, rfl⟩ := ih h
        refine ⟨p :: before, q, after, rfl, List.forall_mem_cons.mpr ⟨hp, hvalid⟩, hq, ?_⟩
        rw [List.length_cons, Nat.add_right_comm, Nat.add_assoc]
      · next hp =>
        exact ⟨[], p, rest, rfl, List.forall_mem_nil _, hp, (Except.error.inj h).symm⟩
  · rintro ⟨before, p, after, rfl, hvalid, hp, rfl⟩
    induction before generalizing index with
    | nil => exact if_neg hp
    | cons q before ih =>
      obtain ⟨hq, hvalid⟩ := List.forall_mem_cons.mp hvalid
      rw [List.cons_append, checkTimestamps, if_pos hq, ih hvalid, List.length_cons,
        Nat.add_right_comm, Nat.add_assoc]

theorem checkOrder_cons {p : Packet α} {rest : List (Packet α)}
    (h : ∀ q ∈ rest.head?, ¬ q.timestamp < p.timestamp) :
    checkOrder index (p :: rest) = checkOrder (index + 1) rest := by
  cases rest with
  | nil => rfl
  | cons q rest => rw [checkOrder, if_neg (h q rfl)]

theorem checkOrder_eq_ok_iff :
    checkOrder index packets = .ok () ↔
      packets.IsChain fun p q => ¬ q.timestamp < p.timestamp := by
  induction packets generalizing index with
  | nil => exact ⟨fun _ => .nil, fun _ => rfl⟩
  | cons p rest ih =>
    rw [List.isChain_cons]
    constructor
    · intro h
      have hfollows : ∀ q ∈ rest.head?, ¬ q.timestamp < p.timestamp := by
        intro q hq hback
        obtain ⟨tail, rfl⟩ := List.head?_eq_some_iff.mp hq
        rw [checkOrder, if_pos hback] at h
        cases h
      exact ⟨hfollows, ih.mp (checkOrder_cons hfollows ▸ h)⟩
    · rintro ⟨hfollows, hrest⟩
      rw [checkOrder_cons hfollows]
      exact ih.mpr hrest

/-- The first packet that is earlier than the one before it is reported. -/
theorem checkOrder_eq_error_iff :
    checkOrder index packets = .error e ↔
      ∃ before p q after, packets = before ++ p :: q :: after ∧
        (before ++ [p]).IsChain (fun r s => ¬ s.timestamp < r.timestamp) ∧
        q.timestamp < p.timestamp ∧
        e = .unsortedTimeline (index + before.length + 1) p.timestamp q.timestamp := by
  have hhead (before after : List (Packet α)) (p q : Packet α) :
      (before ++ p :: q :: after).head? = (before ++ [p]).head? := by
    cases before <;> rfl
  constructor
  · intro h
    induction packets generalizing index with
    | nil => cases h
    | cons p rest ih =>
      by_cases hfollows : ∀ q ∈ rest.head?, ¬ q.timestamp < p.timestamp
      · rw [checkOrder_cons hfollows] at h
        obtain ⟨before, r, s, after, rfl, hordered, hback, rfl⟩ := ih h
        rw [hhead] at hfollows
        have hordered' := List.isChain_cons.mpr ⟨hfollows, hordered⟩
        refine ⟨p :: before, r, s, after, rfl, hordered', hback, ?_⟩
        rw [List.length_cons, Nat.add_right_comm index 1, Nat.add_assoc index]
      · push Not at hfollows
        obtain ⟨q, hq, hback⟩ := hfollows
        obtain ⟨tail, rfl⟩ := List.head?_eq_some_iff.mp hq
        rw [checkOrder, if_pos hback] at h
        exact ⟨[], p, q, tail, rfl, .singleton p, hback, (Except.error.inj h).symm⟩
  · rintro ⟨before, p, q, after, rfl, hordered, hback, rfl⟩
    induction before generalizing index with
    | nil => exact if_pos hback
    | cons r before ih =>
      rw [List.cons_append, List.isChain_cons, ← hhead before after p q] at hordered
      obtain ⟨hfollows, hordered⟩ := hordered
      rw [List.cons_append, checkOrder_cons hfollows, ih hordered, List.length_cons,
        Nat.add_right_comm index 1, Nat.add_assoc index]

theorem ascending_iff :
    ascending packets = true ↔ packets.IsChain fun p q => p.timestamp ≤ q.timestamp := by
  induction packets with
  | nil => exact ⟨fun _ => .nil, fun _ => rfl⟩
  | cons p rest ih =>
    cases rest with
    | nil => exact ⟨fun _ => .singleton p, fun _ => rfl⟩
    | cons q rest =>
      rw [ascending, Bool.and_eq_true, decide_eq_true_iff, ih, List.isChain_cons_cons]

theorem pairwise_sortPackets [Sortable α] (packets : List (Packet α)) :
    (sortPackets packets).Pairwise fun p q =>
      Scalar.totalLe p.timestamp q.timestamp = true := by
  refine pairwise_stableSort ?_ ?_ packets
  · exact fun _ _ => Sortable.totalLe_total
  · exact fun _ _ _ => Sortable.totalLe_trans

/-- Valid timestamps are enough for a capture to be normalized. -/
theorem normalized_eq (hvalid : ∀ p ∈ packets, ValidTimestamp p.timestamp) :
    normalized packets =
      .ok (if ascending packets then (⟨packets⟩, false) else (⟨sortPackets packets⟩, true)) := by
  rw [normalized, checkTimestamps_eq_ok_iff.mpr hvalid]
  change (if ascending packets then _ else _) = _
  split <;> rfl

theorem exists_normalized (hvalid : ∀ p ∈ packets, ValidTimestamp p.timestamp) :
    ∃ timeline reordered, normalized packets = .ok (timeline, reordered) :=
  ⟨_, _, normalized_eq hvalid⟩

theorem normalized_cases {timeline : Timeline α} {reordered : Bool}
    (h : normalized packets = .ok (timeline, reordered)) :
    ascending packets = true ∧ timeline = ⟨packets⟩ ∧ reordered = false ∨
      ascending packets = false ∧ timeline = ⟨sortPackets packets⟩ ∧ reordered = true := by
  obtain ⟨hstamps, -⟩ := check_bind_eq_ok_iff.mp h
  rw [normalized_eq (checkTimestamps_eq_ok_iff.mp hstamps)] at h
  cases hascending : ascending packets <;> simp_all

variable [Lawful α]

theorem validTimestamp_iff {t : α} : ValidTimestamp t ↔ Scalar.isFinite t = true ∧ 0 ≤ t :=
  ⟨fun h => ⟨h.1, IsAmount.nonneg h⟩, fun h => ⟨h.1, Scalar.not_lt_of_le h.2⟩⟩

/-- Among valid timestamps, not to be earlier is to be at least as late. -/
theorem isChain_not_lt_iff (h : ∀ p ∈ packets, ValidTimestamp p.timestamp) :
    (packets.IsChain fun p q => ¬ q.timestamp < p.timestamp) ↔
      packets.IsChain fun p q => p.timestamp ≤ q.timestamp := by
  refine List.IsChain.iff_of_mem_imp fun p q hp hq => ⟨?_, Scalar.not_lt_of_le⟩
  exact Scalar.le_of_not_lt (Lawful.le_self_of_isFinite (h q hq).1)
    (Lawful.le_self_of_isFinite (h p hp).1)

theorem check_eq_ok_iff : check packets = .ok () ↔
    (∀ p ∈ packets, Scalar.isFinite p.timestamp = true ∧ 0 ≤ p.timestamp) ∧
      packets.IsChain fun p q => p.timestamp ≤ q.timestamp := by
  simp only [← validTimestamp_iff]
  refine check_bind_eq_ok_iff.trans ?_
  rw [checkTimestamps_eq_ok_iff, checkOrder_eq_ok_iff]
  exact and_congr_right isChain_not_lt_iff

theorem check_eq_error_iff : check packets = .error e ↔
    (∃ before p after, packets = before ++ p :: after ∧
      (∀ q ∈ before, Scalar.isFinite q.timestamp = true ∧ 0 ≤ q.timestamp) ∧
      ¬ (Scalar.isFinite p.timestamp = true ∧ 0 ≤ p.timestamp) ∧
      e = .invalidTimestamp before.length p.timestamp) ∨
    (∀ p ∈ packets, Scalar.isFinite p.timestamp = true ∧ 0 ≤ p.timestamp) ∧
      ∃ before p q after, packets = before ++ p :: q :: after ∧
        (before ++ [p]).IsChain (fun r s => r.timestamp ≤ s.timestamp) ∧
        q.timestamp < p.timestamp ∧
        e = .unsortedTimeline (before.length + 1) p.timestamp q.timestamp := by
  simp only [← validTimestamp_iff]
  rw [check, check_bind_eq_error_iff, checkTimestamps_eq_error_iff, checkTimestamps_eq_ok_iff,
    checkOrder_eq_error_iff]
  simp only [Nat.zero_add]
  refine or_congr_right (and_congr_right fun hvalid => ?_)
  refine exists₄_congr fun before p q after => and_congr_right ?_
  rintro rfl
  rw [List.append_cons] at hvalid
  exact and_congr_left' (isChain_not_lt_iff fun r hr => hvalid r (List.mem_append_left _ hr))

/-- A sorted capture passes: sorting keeps the timestamps and mends their order. -/
theorem check_sortPackets [Sortable α] (h : ∀ p ∈ packets, ValidTimestamp p.timestamp) :
    check (sortPackets packets) = .ok () := by
  have hmem {p : Packet α} (hp : p ∈ sortPackets packets) : ValidTimestamp p.timestamp :=
    h p (mem_stableSort.mp hp)
  refine check_eq_ok_iff.mpr ⟨fun p hp => validTimestamp_iff.mp (hmem hp), ?_⟩
  refine (pairwise_sortPackets packets).isChain.imp_of_mem_imp fun p q _ hq hpq => ?_
  exact Sortable.le_of_totalLe hpq (Lawful.le_self_of_isFinite (hmem hq).1)

/-- The timeline of a capture passes its checks, sorted or as it came. -/
theorem validate_of_normalized [Sortable α] {timeline : Timeline α} {reordered : Bool}
    (h : normalized packets = .ok (timeline, reordered)) : timeline.validate = .ok () := by
  have hvalid := checkTimestamps_eq_ok_iff.mp (check_bind_eq_ok_iff.mp h).1
  rcases normalized_cases h with ⟨hascending, rfl, -⟩ | ⟨-, rfl, -⟩
  · exact check_eq_ok_iff.mpr
      ⟨fun p hp => validTimestamp_iff.mp (hvalid p hp), ascending_iff.mp hascending⟩
  · exact check_sortPackets hvalid

end Timeline

namespace Trace
variable {packets : List (Packet α)} {timeline : Timeline α} {duration : α} {family : Radio.Family}
  {markers : Markers α} {trace : Trace α} {e : Error α}

/-- A trace is made in two checks, of the packets and of the duration. -/
theorem ofPackets_eq (packets : List (Packet α)) (duration : α) (family : Radio.Family)
    (markers : Markers α) :
    ofPackets packets duration family markers = (do
      Timeline.check packets
      checkDuration ⟨packets⟩ duration
      return ⟨⟨packets⟩, duration, family, markers⟩) := by
  unfold ofPackets Timeline.ofPackets ofTimeline
  cases Timeline.check packets with
  | error e => rfl
  | ok u =>
    cases hduration : checkDuration ⟨packets⟩ duration with
    | error e => simp [bind, Except.bind, pure, Except.pure, hduration]
    | ok u => simp [bind, Except.bind, pure, Except.pure, hduration, withMarkers]

theorem checkDuration_of_not_valid (h : ¬ Timeline.ValidTimestamp duration) :
    checkDuration timeline duration = .error (.invalidDuration duration) := by
  rw [Timeline.ValidTimestamp, not_and_or, Bool.not_eq_true, not_not] at h
  exact if_pos h

theorem checkDuration_of_valid (h : Timeline.ValidTimestamp duration) :
    checkDuration timeline duration =
      if duration < timeline.lastTimestamp then
        .error (.traceTooShort timeline.lastTimestamp duration)
      else .ok () := by
  refine if_neg fun hor => ?_
  exact hor.elim (fun hinfinite => by simp [h.1] at hinfinite) h.2

/-- A valid duration can only be too short for a packet. -/
theorem lt_lastTimestamp_iff (h : Timeline.ValidTimestamp duration) :
    duration < timeline.lastTimestamp ↔
      ∃ p, timeline.packets.getLast? = some p ∧ duration < p.timestamp := by
  rw [Timeline.lastTimestamp]
  cases timeline.packets.getLast? with
  | none => simp [h.2]
  | some p => simp

theorem lastTimestamp_eq {p : Packet α} (h : timeline.packets.getLast? = some p) :
    timeline.lastTimestamp = p.timestamp := by
  simp [Timeline.lastTimestamp, h]

variable [Lawful α]

theorem checkDuration_eq_ok_iff : checkDuration timeline duration = .ok () ↔
    (Scalar.isFinite duration = true ∧ 0 ≤ duration) ∧
      ∀ p, timeline.packets.getLast? = some p → ¬ duration < p.timestamp := by
  by_cases hvalid : Timeline.ValidTimestamp duration
  · simp [checkDuration_of_valid hvalid, lt_lastTimestamp_iff hvalid,
      Timeline.validTimestamp_iff.mp hvalid]
  · simp [checkDuration_of_not_valid hvalid, ← Timeline.validTimestamp_iff, hvalid]

theorem checkDuration_eq_error_iff : checkDuration timeline duration = .error e ↔
    ¬ (Scalar.isFinite duration = true ∧ 0 ≤ duration) ∧ e = .invalidDuration duration ∨
    (Scalar.isFinite duration = true ∧ 0 ≤ duration) ∧ ∃ p, timeline.packets.getLast? = some p ∧
      duration < p.timestamp ∧ e = .traceTooShort p.timestamp duration := by
  rw [← Timeline.validTimestamp_iff]
  by_cases hvalid : Timeline.ValidTimestamp duration
  · rw [checkDuration_of_valid hvalid]
    constructor
    · intro h
      split at h
      · next hshort =>
        obtain ⟨p, hlast, hlt⟩ := (lt_lastTimestamp_iff hvalid).mp hshort
        rw [lastTimestamp_eq hlast] at h
        exact .inr ⟨hvalid, p, hlast, hlt, (Except.error.inj h).symm⟩
      · cases h
    · rintro (⟨hinvalid, -⟩ | ⟨-, p, hlast, hlt, rfl⟩)
      · exact absurd hvalid hinvalid
      · rw [lastTimestamp_eq hlast, if_pos hlt]
  · simp [checkDuration_of_not_valid hvalid, hvalid, eq_comm]

/-- Just the admissible packets and durations make a trace, and it holds what was given. -/
theorem ofPackets_eq_ok_iff : ofPackets packets duration family markers = .ok trace ↔
    Admissible packets duration ∧ trace = ⟨⟨packets⟩, duration, family, markers⟩ := by
  rw [ofPackets_eq, check_bind_eq_ok_iff, Timeline.check_eq_ok_iff, check_bind_eq_ok_iff,
    checkDuration_eq_ok_iff]
  constructor
  · rintro ⟨⟨hstamps, horder⟩, ⟨hduration, hlast⟩, htrace⟩
    refine ⟨⟨hstamps, horder, hduration, fun p hp => ?_⟩, (Except.ok.inj htrace).symm⟩
    exact Scalar.le_of_not_lt (Lawful.le_self_of_isFinite hduration.1)
      (Lawful.le_self_of_isFinite (hstamps p (List.mem_of_getLast? hp)).1) (hlast p hp)
  · rintro ⟨h, rfl⟩
    exact ⟨⟨h.timestamp, h.order⟩,
      ⟨h.validDuration, fun p hp => Scalar.not_lt_of_le (h.reached p hp)⟩, rfl⟩

/-- What is refused is refused for its first fault. -/
theorem ofPackets_eq_error_iff : ofPackets packets duration family markers = .error e ↔
    Fault packets duration e := by
  rw [ofPackets_eq, check_bind_eq_error_iff, check_bind_eq_error_iff, Timeline.check_eq_error_iff,
    Timeline.check_eq_ok_iff, checkDuration_eq_error_iff]
  constructor
  · rintro (hpackets | ⟨⟨hstamps, horder⟩, hduration | ⟨-, htrace⟩⟩)
    · rcases hpackets with ⟨before, p, after, hsplit, hvalid, hp, rfl⟩ |
        ⟨hvalid, before, p, q, after, hsplit, hordered, hback, rfl⟩
      · exact .timestamp hsplit hvalid hp
      · exact .order hvalid hsplit hordered hback
    · rcases hduration with ⟨hinvalid, rfl⟩ | ⟨hvalid, p, hlast, hshort, rfl⟩
      · exact .duration hstamps horder hinvalid
      · exact .last hstamps horder hvalid hlast hshort
    · cases htrace
  · intro h
    cases h with
    | timestamp hsplit hvalid hp => exact .inl (.inl ⟨_, _, _, hsplit, hvalid, hp, rfl⟩)
    | order hvalid hsplit hordered hback =>
      exact .inl (.inr ⟨hvalid, _, _, _, _, hsplit, hordered, hback, rfl⟩)
    | duration hstamps horder hinvalid =>
      exact .inr ⟨⟨hstamps, horder⟩, .inl (.inl ⟨hinvalid, rfl⟩)⟩
    | last hstamps horder hvalid hlast hshort =>
      exact .inr ⟨⟨hstamps, horder⟩, .inl (.inr ⟨hvalid, _, hlast, hshort, rfl⟩)⟩

end Trace
end Traffic
end BurstEnergy
