import Mathlib
import BurstEnergy.Burst.Classification
import BurstEnergy.Burst.Segmentation
import BurstEnergy.Proofs.Scalar.Lawful
import BurstEnergy.Proofs.Traffic.Timeline

/-!
# Bursts in order

Bursts that follow each other in time, and that those of a well-formed trace do.
-/

/-! ## Bursts in order of time

The burst lists that segmentation produces and that the simulation takes: every burst ends no
earlier than it begins, the next one begins later than that, and all of them lie within the
trace.
-/
namespace BurstEnergy.Burst
variable {α : Type} [Scalar α]

/-- Bursts that follow a moment of release one after the other and end by `duration`. -/
def Follow (duration released : α) : List (Burst α) → Prop
  | [] => released ≤ duration
  | burst :: rest =>
    released < burst.beginTime ∧ burst.beginTime ≤ burst.endTime
      ∧ Follow duration burst.endTime rest

/-- The bursts of a trace: `0 ≤ begin₁ ≤ end₁ < begin₂ ≤ … ≤ endₙ ≤ duration`. -/
def InSequence (duration : α) : List (Burst α) → Prop
  | [] => 0 ≤ duration
  | burst :: rest =>
    0 ≤ burst.beginTime ∧ burst.beginTime ≤ burst.endTime ∧ Follow duration burst.endTime rest

instance decidableFollow (duration : α) :
    (released : α) → (bursts : List (Burst α)) → Decidable (Follow duration released bursts)
  | released, [] => inferInstanceAs (Decidable (released ≤ duration))
  | released, burst :: rest =>
    have := decidableFollow duration burst.endTime rest
    inferInstanceAs (Decidable (released < burst.beginTime ∧ burst.beginTime ≤ burst.endTime ∧
      Follow duration burst.endTime rest))

instance decidableInSequence (duration : α) :
    (bursts : List (Burst α)) → Decidable (InSequence duration bursts)
  | [] => inferInstanceAs (Decidable ((0 : α) ≤ duration))
  | burst :: rest => inferInstanceAs (Decidable ((0 : α) ≤ burst.beginTime ∧
      burst.beginTime ≤ burst.endTime ∧ Follow duration burst.endTime rest))

section Apart
variable {duration released : α} {bursts : List (Burst α)}

theorem Follow.begin_le_end (h : Follow duration released bursts) {burst : Burst α}
    (hb : burst ∈ bursts) : burst.beginTime ≤ burst.endTime := by
  induction bursts generalizing released with
  | nil => exact absurd hb List.not_mem_nil
  | cons first rest ih =>
    obtain ⟨-, hle, hrest⟩ := h
    rcases List.mem_cons.mp hb with rfl | hb
    · exact hle
    · exact ih hrest hb

theorem InSequence.begin_le_end (h : InSequence duration bursts) {burst : Burst α}
    (hb : burst ∈ bursts) : burst.beginTime ≤ burst.endTime := by
  cases bursts with
  | nil => exact absurd hb List.not_mem_nil
  | cons first rest =>
    obtain ⟨-, hle, hrest⟩ := h
    rcases List.mem_cons.mp hb with rfl | hb
    · exact hle
    · exact hrest.begin_le_end hb

variable [Scalar.Lawful α]

theorem Follow.lt_beginTime (h : Follow duration released bursts) {burst : Burst α}
    (hb : burst ∈ bursts) : released < burst.beginTime := by
  induction bursts generalizing released with
  | nil => exact absurd hb List.not_mem_nil
  | cons first rest ih =>
    obtain ⟨hlt, hle, hrest⟩ := h
    rcases List.mem_cons.mp hb with rfl | hb
    · exact hlt
    · exact Scalar.lt_of_lt_of_le hlt (Scalar.Lawful.le_trans hle (Scalar.le_of_lt (ih hrest hb)))

theorem Follow.pairwise (h : Follow duration released bursts) :
    bursts.Pairwise fun b c => b.endTime < c.beginTime := by
  induction bursts generalizing released with
  | nil => exact .nil
  | cons first rest ih =>
    obtain ⟨-, -, hrest⟩ := h
    exact List.pairwise_cons.mpr ⟨fun c hc => hrest.lt_beginTime hc, ih hrest⟩

theorem InSequence.pairwise (h : InSequence duration bursts) :
    bursts.Pairwise fun b c => b.endTime < c.beginTime := by
  cases bursts with
  | nil => exact .nil
  | cons first rest =>
    obtain ⟨-, -, hrest⟩ := h
    exact List.pairwise_cons.mpr ⟨fun c hc => hrest.lt_beginTime hc, hrest.pairwise⟩

theorem InSequence.pairwise_beginTime (h : InSequence duration bursts) :
    bursts.Pairwise fun b c => b.beginTime < c.beginTime :=
  h.pairwise.imp_of_mem fun hb _ hlt => Scalar.lt_of_le_of_lt (h.begin_le_end hb) hlt

end Apart

/-- Bursts without length add nothing to the time of the bursts. -/
theorem InSequence.sum_duration_filter {duration : Rat} {bursts : List (Burst Rat)}
    (h : InSequence duration bursts) :
    ((bursts.filter fun b => b.beginTime < b.endTime).map (·.duration)).sum =
      (bursts.map (·.duration)).sum := by
  have hsplit := List.sum_map_filter_add_sum_map_filter_not
    (fun b : Burst Rat => b.beginTime < b.endTime) (·.duration) bursts
  have hnone : ((bursts.filter fun b => ¬ b.beginTime < b.endTime).map (·.duration)).sum = 0 := by
    refine List.sum_eq_zero fun x hx => ?_
    obtain ⟨b, hb, rfl⟩ := List.mem_map.mp hx
    obtain ⟨hmem, hge⟩ := List.mem_filter.mp hb
    have hend : b.endTime ≤ b.beginTime := not_lt.mp (of_decide_eq_true hge)
    exact sub_eq_zero.mpr (le_antisymm hend (h.begin_le_end hmem))
  rw [hnone, add_zero] at hsplit
  exact hsplit

/-- When a burst begins and when it ends. -/
def times (burst : Burst α) : α × α := (burst.beginTime, burst.endTime)

end BurstEnergy.Burst

/-! ## Segmented traces

The bursts of a well-formed trace are in order of time and lie within it, for any gap that is not
negative: a packet can only open a burst by being strictly later than the one before it.
Classification changes no more than the category.
-/
namespace BurstEnergy
open Scalar (Lawful IsAmount)
open Traffic (Packet Timeline Trace)
variable {α : Type} [Scalar α]

namespace Burst

/-- Only the times of bursts decide whether they are in order. -/
theorem Follow.of_times {duration released : α} {bursts others : List (Burst α)}
    (h : Follow duration released bursts) (heq : others.map times = bursts.map times) :
    Follow duration released others := by
  induction others generalizing bursts released with
  | nil =>
    obtain rfl : bursts = [] := List.map_eq_nil_iff.mp heq.symm
    exact h
  | cons other rest ih =>
    cases bursts with
    | nil => simp at heq
    | cons burst rest' =>
      simp only [List.map_cons, List.cons.injEq, times, Prod.mk.injEq] at heq
      obtain ⟨⟨hbegin, hend⟩, hrest⟩ := heq
      obtain ⟨hlt, hle, hfollow⟩ := h
      rw [Follow, hbegin, hend]
      exact ⟨hlt, hle, ih hfollow hrest⟩

theorem InSequence.of_times {duration : α} {bursts others : List (Burst α)}
    (h : InSequence duration bursts) (heq : others.map times = bursts.map times) :
    InSequence duration others := by
  cases others with
  | nil =>
    obtain rfl : bursts = [] := List.map_eq_nil_iff.mp heq.symm
    exact h
  | cons other rest =>
    cases bursts with
    | nil => simp at heq
    | cons burst rest' =>
      simp only [List.map_cons, List.cons.injEq, times, Prod.mk.injEq] at heq
      obtain ⟨⟨hbegin, hend⟩, hrest⟩ := heq
      obtain ⟨h0, hle, hfollow⟩ := h
      rw [InSequence, hbegin, hend]
      exact ⟨h0, hle, hfollow.of_times hrest⟩

end Burst

namespace Segmentation
variable [Lawful α] {duration gap : α}

/-- A packet beyond the gap is strictly later. -/
theorem lt_of_not_sub_le {s t : α} (hg : IsAmount gap) (hs : IsAmount s) (ht : IsAmount t)
    (h : ¬ t - s ≤ gap) : s < t := by
  refine Scalar.lt_of_not_le (Lawful.le_self_of_isFinite ht.1) (Lawful.le_self_of_isFinite hs.1) ?_
  intro hts
  have hdiff : t - s ≤ 0 := Lawful.sub_nonpos ht.nonneg hts hs.1
  exact h (Lawful.le_trans hdiff hg.nonneg)

/-- A run goes on to bursts of which the first begins where the run began. -/
theorem continueRun_inSequence (hg : IsAmount gap) {run : Run α} {packets : List (Packet α)}
    (hrun : run.beginTime ≤ run.latestTime) (hlatest : IsAmount run.latestTime)
    (hend : run.latestTime ≤ duration) (hstamp : ∀ p ∈ packets, IsAmount p.timestamp)
    (hlater : ∀ p ∈ packets, run.latestTime ≤ p.timestamp)
    (hcovered : ∀ p ∈ packets, p.timestamp ≤ duration)
    (hordered : packets.Pairwise fun p q => p.timestamp ≤ q.timestamp) :
    ∃ burst rest, continueRun gap run packets = burst :: rest ∧
      burst.beginTime = run.beginTime ∧ burst.beginTime ≤ burst.endTime ∧
      Burst.Follow duration burst.endTime rest := by
  induction packets generalizing run with
  | nil => exact ⟨run.close, [], rfl, rfl, hrun, hend⟩
  | cons p rest ih =>
    obtain ⟨hp, hstamp⟩ := List.forall_mem_cons.mp hstamp
    obtain ⟨hle, -⟩ := List.forall_mem_cons.mp hlater
    obtain ⟨hpd, hcovered⟩ := List.forall_mem_cons.mp hcovered
    obtain ⟨hnext, hordered⟩ := List.pairwise_cons.mp hordered
    rw [continueRun]
    split
    · have hpush : (run.push p).beginTime ≤ (run.push p).latestTime := Lawful.le_trans hrun hle
      exact ih hpush hp hpd hstamp hnext hcovered hordered
    · next hfar =>
      have hself : (Run.start run.stop p).beginTime ≤ (Run.start run.stop p).latestTime :=
        Lawful.le_self_of_isFinite hp.1
      obtain ⟨burst, later, heq, hbegin, hburst, hfollow⟩ :=
        ih hself hp hpd hstamp hnext hcovered hordered
      refine ⟨run.close, _, rfl, rfl, hrun, ?_⟩
      rw [heq]
      refine ⟨?_, hburst, hfollow⟩
      rw [hbegin]
      exact lt_of_not_sub_le hg hlatest hp hfar

/-- The bursts of a well-formed trace are in order and within it. -/
theorem inSequence_segment {trace : Trace α} (h : trace.WellFormed) (hg : IsAmount gap) :
    Burst.InSequence trace.duration (segment gap trace.timeline) := by
  have hstamp := h.timestamp
  have hcovered := h.covered
  have hordered := h.ordered
  unfold Timeline.Ordered at hordered
  rw [segment]
  split
  · exact h.duration.nonneg
  · next p rest heq =>
    rw [heq] at hstamp hcovered hordered
    obtain ⟨hp, hstamp⟩ := List.forall_mem_cons.mp hstamp
    obtain ⟨hpd, hcovered⟩ := List.forall_mem_cons.mp hcovered
    obtain ⟨hnext, hordered⟩ := List.pairwise_cons.mp hordered
    have hself : (Run.start 0 p).beginTime ≤ (Run.start 0 p).latestTime :=
      Lawful.le_self_of_isFinite hp.1
    obtain ⟨burst, later, hrun, hbegin, hburst, hfollow⟩ :=
      continueRun_inSequence hg hself hp hpd hstamp hnext hcovered hordered
    rw [hrun]
    refine ⟨?_, hburst, hfollow⟩
    rw [hbegin]
    exact hp.nonneg

end Segmentation

namespace Classification

variable {β : Type} {f : Burst α → β}

theorem map_classifyFrom (hf : ∀ b c, f { b with category := c } = f b)
    (t : Profile.Thresholds α) (timeline : Timeline α) (markers : Traffic.Markers α)
    (history : History α) (items : List (Burst α × Option α)) :
    (classifyFrom t timeline markers history items).1.map f = (items.map (·.1)).map f := by
  induction items generalizing history with
  | nil => rfl
  | cons item rest ih =>
    obtain ⟨burst, cycle⟩ := item
    simp only [classifyFrom, List.map_cons, ih, hf]

/-- Classification changes no more than the category. -/
theorem map_classify (hf : ∀ b c, f { b with category := c } = f b) (t : Profile.Thresholds α)
    (bursts : List (Burst α)) (timeline : Timeline α) (markers : Traffic.Markers α) :
    (classify t bursts timeline markers).bursts.map f = bursts.map f := by
  have hlength : bursts.length ≤ (Periodicity.detect (.ofThresholds t)
      (bursts.map (·.beginTime))).cycles.length := by simp
  simp only [classify, map_classifyFrom hf]
  rw [List.map_fst_zip hlength]

theorem map_times_classify (t : Profile.Thresholds α) (bursts : List (Burst α))
    (timeline : Timeline α) (markers : Traffic.Markers α) :
    (classify t bursts timeline markers).bursts.map Burst.times = bursts.map Burst.times :=
  map_classify (fun _ _ => rfl) t bursts timeline markers

@[simp] theorem length_classify (t : Profile.Thresholds α) (bursts : List (Burst α))
    (timeline : Timeline α) (markers : Traffic.Markers α) :
    (classify t bursts timeline markers).bursts.length = bursts.length := by
  simpa using congrArg List.length (map_times_classify t bursts timeline markers)

end Classification
end BurstEnergy
