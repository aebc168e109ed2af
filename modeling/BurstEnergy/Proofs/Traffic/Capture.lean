import BurstEnergy.Proofs.Burst.Causes
import BurstEnergy.Proofs.Scalar.Binary64Monotone
import BurstEnergy.Proofs.Traffic.Acceptance
import BurstEnergy.Report

/-!
# Captures

A capture is brought into order of time, and what becomes of packets seen at the same time.
-/

/-! ## Captures in any order

A capture with valid timestamps is brought into order of time, and one that is in order already
stays as it is. Nothing is left to do on the outcome: it is accepted as a timeline, and normalizing
leaves it alone. Where no two packets are seen at the same time there is one such order, and the
order for event times tells all values apart. So the order in which a capture and its events came in
is forgotten before any analysis.
-/
namespace BurstEnergy
open Scalar (Agree Lawful Sortable Discerning)
open Traffic (Packet Timeline Markers Trace)
variable {α : Type} [Scalar α]

namespace Traffic

/-- What bringing packets into order makes of them. -/
structure Timeline.Normalizes (packets : List (Packet α)) (timeline : Timeline α)
    (reordered : Bool) : Prop where
  perm : timeline.packets.Perm packets
  ordered : timeline.packets.Pairwise fun p q => p.timestamp ≤ q.timestamp
  accepted : Timeline.ofPackets timeline.packets = .ok timeline
  reordered_iff : reordered = false ↔ packets.Pairwise fun p q => p.timestamp ≤ q.timestamp
  unchanged : reordered = false → timeline.packets = packets
  settled : Timeline.normalized timeline.packets = .ok (timeline, false)

/-- The trace of packets and events in any order. -/
def Trace.ofCapture (packets : List (Packet α)) (duration : α) (family : Radio.Family)
    (rotations inputs : List α) : Except (Error α) (Trace α) := do
  let timeline ← Timeline.ofCapture packets
  let trace ← ofTimeline timeline duration family
  return trace.withMarkers (.ofTimes rotations inputs)

namespace Timeline
variable {packets others : List (Packet α)} {timeline : Timeline α} {reordered : Bool}

/-- There is one order of time for packets of which no two are seen at the same time. -/
theorem eq_of_perm {first second : Timeline α} (hfirst : first.Ordered) (hsecond : second.Ordered)
    (hperm : first.packets.Perm second.packets)
    (hdistinct : first.packets.Pairwise fun p q => ¬ Agree p.timestamp q.timestamp) :
    first = second := by
  have hsymm : Std.Symm fun p q : Packet α => ¬ Agree p.timestamp q.timestamp :=
    ⟨fun _ _ h h' => h h'.symm⟩
  have hpackets : first.packets = second.packets := by
    refine List.Perm.eq_of_pairwise (fun p q hp hq hpq hqp => ?_) hfirst hsecond hperm
    by_contra hne
    exact hdistinct.forall hp (hperm.mem_iff.mpr hq) hne ⟨hpq, hqp⟩
  cases first
  cases second
  exact congrArg _ hpackets

variable [Lawful α]

theorem ascending_iff_pairwise : ascending packets = true ↔
    packets.Pairwise fun p q => p.timestamp ≤ q.timestamp := by
  let earlier (p q : Packet α) : Prop := p.timestamp ≤ q.timestamp
  have : Trans earlier earlier earlier := ⟨Lawful.le_trans⟩
  exact ascending_iff.trans (List.isChain_iff_pairwise (R := earlier))

variable [Sortable α]

/-- Normalizing does what it should. -/
theorem normalizes_of_eq_ok (h : normalized packets = .ok (timeline, reordered)) :
    Normalizes packets timeline reordered := by
  have hv := validate_of_normalized h
  obtain ⟨hstamps, horder⟩ := check_bind_eq_ok_iff.mp hv
  have hvalid := isAmount_of_checkTimestamps hstamps
  have hordered := pairwise_of_checkOrder hvalid horder
  have hsettled : normalized timeline.packets = .ok (timeline, false) := by
    rw [normalized_eq hvalid, if_pos (ascending_iff_pairwise.mpr hordered)]
  have hperm : timeline.packets.Perm packets := by
    rcases normalized_cases h with ⟨-, rfl, -⟩ | ⟨-, rfl, -⟩
    · exact .refl _
    · exact perm_stableSort _ _
  refine ⟨hperm, hordered, check_bind_eq_ok_iff.mpr ⟨hv, rfl⟩, ?_, ?_, hsettled⟩
  · rw [← ascending_iff_pairwise]
    rcases normalized_cases h with ⟨hascending, -, rfl⟩ | ⟨hascending, -, rfl⟩ <;>
      simp [hascending]
  · rcases normalized_cases h with ⟨-, rfl, -⟩ | ⟨-, -, rfl⟩
    · exact fun _ => rfl
    · exact nofun

/-- Two arrangements of a capture without ties come to one timeline. -/
theorem ofCapture_eq_of_perm (hvalid : ∀ p ∈ packets, ValidTimestamp p.timestamp)
    (hdistinct : packets.Pairwise fun p q => ¬ Agree p.timestamp q.timestamp)
    (hperm : packets.Perm others) :
    ∃ timeline, ofCapture packets = .ok timeline ∧ ofCapture others = .ok timeline := by
  have hothers : ∀ p ∈ others, ValidTimestamp p.timestamp :=
    fun p hp => hvalid p (hperm.mem_iff.mpr hp)
  obtain ⟨first, _, hfirst⟩ := exists_normalized hvalid
  obtain ⟨second, _, hsecond⟩ := exists_normalized hothers
  have hf := normalizes_of_eq_ok hfirst
  have hs := normalizes_of_eq_ok hsecond
  have hsame : first = second := by
    refine eq_of_perm hf.ordered hs.ordered (hf.perm.trans (hperm.trans hs.perm.symm)) ?_
    exact (hf.perm.pairwise_iff fun h h' => h h'.symm).mpr hdistinct
  refine ⟨first, ?_, ?_⟩
  · rw [ofCapture, hfirst]
    rfl
  · rw [ofCapture, hsecond, hsame]
    rfl

end Timeline

/-- Event times come to one order however they were recorded. -/
theorem Markers.sortTimes_eq_of_perm [Sortable α] [Discerning α] {times others : List α}
    (h : times.Perm others) : sortTimes times = sortTimes others := by
  refine stableSort_eq_of_perm ?_ ?_ ?_ h
  · exact fun _ _ => Sortable.totalLe_total
  · exact fun _ _ _ => Sortable.totalLe_trans
  · exact fun _ _ => Discerning.eq_of_totalLe

end Traffic

variable [Lawful α] [Sortable α] [Discerning α]

/-- Capture order is forgotten. Normalizing brings packets with valid timestamps into order of time
and is settled then. When no two of them are seen at the same time, any other arrangement of the
packets and of the events gives the same timeline, the same trace or refusal of its duration, and
the same outcome of an analysis. -/
theorem Analyser.run_forgets_capture_order {packets : List (Packet α)}
    (hvalid : ∀ p ∈ packets, Scalar.isFinite p.timestamp = true ∧ 0 ≤ p.timestamp) :
    (∃ timeline reordered, Timeline.normalized packets = .ok (timeline, reordered) ∧
      Timeline.Normalizes packets timeline reordered) ∧
    ∀ (others : List (Packet α)) (rotations otherRotations inputs otherInputs : List α),
      packets.Perm others → rotations.Perm otherRotations → inputs.Perm otherInputs →
      packets.Pairwise (fun p q => ¬ Agree p.timestamp q.timestamp) →
      (∃ timeline, Timeline.ofCapture packets = .ok timeline ∧
        Timeline.ofCapture others = .ok timeline) ∧
      ∀ (duration : α) (family : Radio.Family),
        Trace.ofCapture packets duration family rotations inputs =
          Trace.ofCapture others duration family otherRotations otherInputs ∧
        ∀ analyser : Analyser α,
          Trace.ofCapture packets duration family rotations inputs >>= analyser.run =
            Trace.ofCapture others duration family otherRotations otherInputs >>= analyser.run := by
  simp only [← Timeline.validTimestamp_iff] at hvalid
  constructor
  · obtain ⟨timeline, reordered, h⟩ := Timeline.exists_normalized hvalid
    exact ⟨timeline, reordered, h, Timeline.normalizes_of_eq_ok h⟩
  intro others rotations otherRotations inputs otherInputs hpackets hrotations hinputs hdistinct
  obtain ⟨timeline, hfirst, hsecond⟩ :=
    Timeline.ofCapture_eq_of_perm hvalid hdistinct hpackets
  refine ⟨⟨timeline, hfirst, hsecond⟩, fun duration family => ?_⟩
  have htrace : Trace.ofCapture packets duration family rotations inputs =
      Trace.ofCapture others duration family otherRotations otherInputs := by
    rw [Trace.ofCapture, Trace.ofCapture, hfirst, hsecond, Markers.ofTimes, Markers.ofTimes,
      Markers.sortTimes_eq_of_perm hrotations, Markers.sortTimes_eq_of_perm hinputs]
  exact ⟨htrace, fun analyser => by rw [htrace]⟩

/-- Three packets out of order. -/
def shuffledPackets : List (Packet Float) :=
  [.data 3 .uplink 100, .data 1 .uplink 200, .data 2 .downlink 300]

/-- Run backwards, packets and events that are out of order give the same analysis. Both zeros are
among the times of rotations, and something that is not a number. -/
theorem Analyser.run_forgets_capture_order_shuffled :
    (∀ p ∈ shuffledPackets, Scalar.isFinite p.timestamp = true ∧ 0 ≤ p.timestamp) ∧
    (∃ timeline reordered, Timeline.normalized shuffledPackets = .ok (timeline, reordered) ∧
      timeline.packets.Perm shuffledPackets ∧ reordered = true) ∧
    Trace.ofCapture shuffledPackets 20 .cellular3G [0 / 0, 0, -0, 2] [1, 3, 1] >>=
        (⟨.standard⟩ : Analyser Float).run =
      Trace.ofCapture shuffledPackets.reverse 20 .cellular3G [2, -0, 0, 0 / 0] [1, 3, 1] >>=
        (⟨.standard⟩ : Analyser Float).run := by
  have hvalid : ∀ p ∈ shuffledPackets, Scalar.isFinite p.timestamp = true ∧ 0 ≤ p.timestamp := by
    decide +kernel
  have hdistinct : shuffledPackets.Pairwise fun p q => ¬ Agree p.timestamp q.timestamp := by
    simp only [Agree]
    decide +kernel
  have hback : ¬ shuffledPackets.Pairwise fun p q => p.timestamp ≤ q.timestamp := by
    decide +kernel
  obtain ⟨⟨timeline, reordered, hnormalized, hnormalizes⟩, hforgets⟩ :=
    Analyser.run_forgets_capture_order hvalid
  have hreordered : reordered = true :=
    eq_true_of_ne_false fun h => hback (hnormalizes.reordered_iff.mp h)
  have hrotations : [(0 : Float) / 0, 0, -0, 2].Perm [2, -0, 0, 0 / 0] :=
    List.reverse_perm [2, -0, 0, 0 / 0]
  obtain ⟨-, hruns⟩ := hforgets _ _ _ _ _ (List.reverse_perm _).symm hrotations (.refl [1, 3, 1])
    hdistinct
  exact ⟨hvalid, ⟨timeline, reordered, hnormalized, hnormalizes.perm, hreordered⟩,
    (hruns 20 .cellular3G).2 _⟩

end BurstEnergy

/-! ## Ties of a capture

Packets that are seen at the same time should keep the order of their capture. Whether two times
are the same is asked of the order of numbers, but packets are sorted by the order that tells all
values apart. Where that order puts the later of two such packets first, the tie is not kept. Among
binary numbers this happens to the two zeros and to nothing else.
-/
namespace BurstEnergy.Traffic.Timeline
open Scalar (Agree Lawful Sortable)

section Ties
variable {α : Type} [Scalar α] {packets : List (Packet α)} {timeline : Timeline α}
  {reordered : Bool}

/-- The packets of a list that are seen at one time. -/
def seenAt (t : α) (packets : List (Packet α)) : List (Packet α) :=
  packets.filter fun p => p.timestamp ≤ t ∧ t ≤ p.timestamp

/-- Packets that are seen at one time follow each other in two lists in the same order. -/
def KeepsTies (packets arranged : List (Packet α)) : Prop :=
  ∀ t, seenAt t arranged = seenAt t packets

/-- Packets may be selected before they are sorted or after. -/
theorem filter_sortPackets [Sortable α] (selected : Packet α → Bool)
    (packets : List (Packet α)) :
    (sortPackets packets).filter selected = sortPackets (packets.filter selected) := by
  refine filter_stableSort ?_ ?_ selected packets
  · exact fun _ _ => Sortable.totalLe_total
  · exact fun _ _ _ => Sortable.totalLe_trans

theorem filter_normalized [Sortable α] [DecidableEq α]
    (h : normalized packets = .ok (timeline, reordered)) (t : α) :
    timeline.packets.filter (fun p => p.timestamp = t) =
      packets.filter fun p => p.timestamp = t := by
  rcases normalized_cases h with ⟨-, rfl, -⟩ | ⟨-, rfl, -⟩
  · rfl
  · have hself : Scalar.totalLe t t = true := by
      by_contra hnot
      exact hnot (Sortable.totalLe_total (eq_false_of_ne_true hnot))
    rw [filter_sortPackets]
    refine stableSort_eq_self (List.pairwise_iff_forall_sublist.mpr fun {p q} hsublist => ?_)
    have hat {r : Packet α} (hr : r ∈ [p, q]) : r.timestamp = t :=
      of_decide_eq_true (List.mem_filter.mp (hsublist.subset hr)).2
    have hp : p.timestamp = t := hat (by simp)
    have hq : q.timestamp = t := hat (by simp)
    rw [hp, hq, hself]

variable [Lawful α] [Sortable α]

/-- Sorting keeps the ties that stand in its own order already. -/
theorem keepsTies_sortPackets_iff :
    KeepsTies packets (sortPackets packets) ↔ packets.Pairwise fun p q =>
      Agree p.timestamp q.timestamp → Scalar.totalLe p.timestamp q.timestamp = true := by
  constructor
  · intro h
    refine List.pairwise_iff_forall_sublist.mpr fun {p q} hsublist hagree => ?_
    have hself : p.timestamp ≤ p.timestamp := Scalar.le_self_left hagree.1
    have hboth : seenAt p.timestamp [p, q] = [p, q] := by
      simp [seenAt, hself, hagree.1, hagree.2]
    have hstands : [p, q].Sublist (sortPackets packets) := by
      calc [p, q] = seenAt p.timestamp [p, q] := hboth.symm
        List.Sublist _ (seenAt p.timestamp packets) := hsublist.filter _
        _ = seenAt p.timestamp (sortPackets packets) := (h p.timestamp).symm
        List.Sublist _ (sortPackets packets) := List.filter_sublist
    simpa using (pairwise_sortPackets packets).sublist hstands
  · intro h t
    rw [seenAt, filter_sortPackets]
    refine stableSort_eq_self ((h.filter _).imp_of_mem fun {p q} hp hq hpq => hpq ?_)
    obtain ⟨hpt, htp⟩ := of_decide_eq_true (List.mem_filter.mp hp).2
    obtain ⟨hqt, htq⟩ := of_decide_eq_true (List.mem_filter.mp hq).2
    exact ⟨Lawful.le_trans hpt htq, Lawful.le_trans hqt htp⟩

/-- Normalizing keeps all ties when there is nothing to sort, and else those in the order for
sorting. -/
theorem keepsTies_normalized_iff (h : normalized packets = .ok (timeline, reordered)) :
    KeepsTies packets timeline.packets ↔
      (packets.Pairwise fun p q => p.timestamp ≤ q.timestamp) ∨
        packets.Pairwise fun p q =>
          Agree p.timestamp q.timestamp → Scalar.totalLe p.timestamp q.timestamp = true := by
  rw [← ascending_iff_pairwise]
  rcases normalized_cases h with ⟨hascending, rfl, -⟩ | ⟨hascending, rfl, -⟩
  · exact iff_of_true (fun _ => rfl) (.inl hascending)
  · simp [hascending, keepsTies_sortPackets_iff]

end Ties

/-- Ties are kept but for the zeros. A capture with valid timestamps is normalized, and packets with
the very same timestamp keep their order. Those seen at the same time do so just when the capture is
in order as it came, or no packet at zero comes before one at negative zero. -/
theorem normalized_keepsTies_iff {packets : List (Packet Float)}
    (hvalid : checkTimestamps 0 packets = .ok ()) :
    ∃ timeline reordered, normalized packets = .ok (timeline, reordered) ∧
      (∀ t, timeline.packets.filter (fun p => p.timestamp = t) =
        packets.filter fun p => p.timestamp = t) ∧
      (KeepsTies packets timeline.packets ↔
        (packets.Pairwise fun p q => p.timestamp ≤ q.timestamp) ∨
          packets.Pairwise fun p q => ¬ (p.timestamp = 0 ∧ q.timestamp = -0)) := by
  obtain ⟨timeline, reordered, h⟩ := exists_normalized (checkTimestamps_eq_ok_iff.mp hvalid)
  have hpair (x y : Float) :
      (Agree x y → Scalar.totalLe x y = true) ↔ ¬ (x = 0 ∧ y = -0) := by
    rw [← Binary64.agree_and_not_sorted_iff, not_and_not_right]
    exact imp_congr_right fun _ => decide_eq_true_iff
  refine ⟨timeline, reordered, h, filter_normalized h, ?_⟩
  simp only [keepsTies_normalized_iff h, hpair]

/-- A tie at two seconds, and both zeros in the order for sorting. -/
def tiedPackets : List (Packet Float) :=
  [.data 2 .uplink 100, .data (-0) .uplink 200, .data 0 .downlink 300, .data 2 .downlink 400,
    .data 0 .uplink 500]

/-- Sorting keeps these ties. -/
theorem normalized_keepsTies_zerosInOrder :
    checkTimestamps 0 tiedPackets = .ok () ∧
    ∃ timeline, normalized tiedPackets = .ok (timeline, true) ∧
      KeepsTies tiedPackets timeline.packets := by
  have hvalid : checkTimestamps 0 tiedPackets = .ok () := by decide +kernel
  obtain ⟨timeline, reordered, h, -, hties⟩ := normalized_keepsTies_iff hvalid
  have hreordered : reordered = true := by
    rcases normalized_cases h with ⟨hascending, -, -⟩ | ⟨-, -, hreordered⟩
    · exact absurd hascending (by decide +kernel)
    · exact hreordered
  refine ⟨hvalid, timeline, hreordered ▸ h, hties.mpr (.inr ?_)⟩
  decide +kernel

/-- A packet at negative zero is put before one at zero that was captured first. -/
theorem exists_tie_reversed : ∃ packets : List (Packet Float),
    checkTimestamps 0 packets = .ok () ∧
    ∃ timeline, normalized packets = .ok (timeline, true) ∧
      ¬ KeepsTies packets timeline.packets := by
  let late : Packet Float := .data 1 .uplink 100
  let first : Packet Float := .data 0 .uplink 10
  let second : Packet Float := .data (-0) .downlink 20
  refine ⟨[late, first, second], by decide +kernel, ⟨[second, first, late]⟩, by decide +kernel, ?_⟩
  intro h
  have hzero : seenAt 0 [second, first, late] ≠ seenAt 0 [late, first, second] := by
    decide +kernel
  exact hzero (h 0)

end BurstEnergy.Traffic.Timeline
