import BurstEnergy.Proofs.CutPoint
import BurstEnergy.Proofs.Profile.Additivity
import BurstEnergy.Proofs.Radio.Coalescing
import BurstEnergy.Radio.Statistics

/-!
# The energy of a span

`energyWithin` clips every interval to a span and adds up what is left of each. For an additive
model it is additive over spans that meet. Both the statistics and the charge of a burst are such
sums, for the whole trace and for the span of the burst.
-/
namespace BurstEnergy.Radio
open Traffic (Timeline)

/-- An interval cut down to a span. -/
def StateInterval.clip (start stop : Rat) (i : StateInterval Rat) : StateInterval Rat :=
  { i with start := max i.start start, stop := min i.stop stop }

/-- The energy of what intervals leave within a span. -/
def energyWithin (model : EnergyModel Rat) (timeline : Timeline Rat)
    (intervals : List (StateInterval Rat)) (start stop : Rat) : Rat :=
  (intervals.map fun i => (i.clip start stop).cost model timeline).sum

variable {model : EnergyModel Rat} {timeline : Timeline Rat} {start mid stop lo hi : Rat}
  {intervals front back : List (StateInterval Rat)}

namespace StateInterval

theorem cost_of_empty (hm : model.Additive timeline) {i : StateInterval Rat}
    (h : i.stop ≤ i.start) : i.cost model timeline = 0 := hm.empty h _ _

/-- The parts of an interval before and after a time make up the interval. -/
theorem cost_clip_add (hm : model.Additive timeline) (i : StateInterval Rat)
    (hs : start ≤ mid) (he : mid ≤ stop) :
    (i.clip start stop).cost model timeline =
      (i.clip start mid).cost model timeline + (i.clip mid stop).cost model timeline := by
  by_cases hlow : mid ≤ i.start
  · have hempty : (i.clip start mid).cost model timeline = 0 := by
      refine cost_of_empty hm ?_
      exact (min_le_right _ _).trans (hlow.trans (le_max_left _ _))
    rw [hempty, zero_add]
    simp only [clip, max_eq_left (hs.trans hlow), max_eq_left hlow]
  by_cases hhigh : i.stop ≤ mid
  · have hempty : (i.clip mid stop).cost model timeline = 0 := by
      refine cost_of_empty hm ?_
      exact (min_le_left _ _).trans (hhigh.trans (le_max_right _ _))
    rw [hempty, add_zero]
    simp only [clip, min_eq_left hhigh, min_eq_left (hhigh.trans he)]
  · rw [not_le] at hlow hhigh
    have hfront : max i.start start ≤ mid := max_le hlow.le hs
    have hback : mid ≤ min i.stop stop := le_min hhigh.le he
    simp only [clip, cost, min_eq_right hhigh.le, max_eq_right hlow.le]
    exact hm.split hfront hback i.state

theorem clip_of_bounds {i : StateInterval Rat} (hs : start ≤ i.start) (he : i.stop ≤ stop) :
    i.clip start stop = i := by
  rw [clip, max_eq_left hs, min_eq_left he]

theorem cost_clip_of_stop_le (hm : model.Additive timeline) {i : StateInterval Rat}
    (h : i.stop ≤ start) : (i.clip start stop).cost model timeline = 0 :=
  cost_of_empty hm ((min_le_left _ _).trans (h.trans (le_max_right _ _)))

theorem cost_clip_of_le_start (hm : model.Additive timeline) {i : StateInterval Rat}
    (h : stop ≤ i.start) : (i.clip start stop).cost model timeline = 0 :=
  cost_of_empty hm ((min_le_right _ _).trans (h.trans (le_max_left _ _)))

end StateInterval

open StateInterval (Path)

@[simp] theorem energyWithin_nil : energyWithin model timeline [] start stop = 0 := rfl

@[simp] theorem energyWithin_cons (i : StateInterval Rat) :
    energyWithin model timeline (i :: intervals) start stop =
      (i.clip start stop).cost model timeline +
        energyWithin model timeline intervals start stop := by
  simp [energyWithin]

@[simp] theorem energyWithin_append :
    energyWithin model timeline (front ++ back) start stop =
      energyWithin model timeline front start stop +
        energyWithin model timeline back start stop := by
  simp [energyWithin]

theorem energyWithin_takeWhile_add_dropWhile (p : StateInterval Rat → Bool)
    (l : List (StateInterval Rat)) :
    energyWithin model timeline (l.takeWhile p) start stop +
      energyWithin model timeline (l.dropWhile p) start stop =
        energyWithin model timeline l start stop := by
  rw [← energyWithin_append, List.takeWhile_append_dropWhile]

theorem energyWithin_eq_zero
    (h : ∀ i ∈ intervals, (i.clip start stop).cost model timeline = 0) :
    energyWithin model timeline intervals start stop = 0 := by
  refine List.sum_eq_zero fun x hx => ?_
  obtain ⟨i, hi, rfl⟩ := List.mem_map.mp hx
  exact h i hi

theorem energyWithin_of_le (hm : model.Additive timeline) (h : stop ≤ start) :
    energyWithin model timeline intervals start stop = 0 := by
  refine energyWithin_eq_zero fun i _ => StateInterval.cost_of_empty hm ?_
  exact (min_le_right _ _).trans (h.trans (le_max_right _ _))

theorem energyWithin_nonneg
    (h : ∀ start stop state packets, 0 ≤ model start stop state packets) :
    0 ≤ energyWithin model timeline intervals start stop := by
  refine List.sum_nonneg fun x hx => ?_
  obtain ⟨i, -, rfl⟩ := List.mem_map.mp hx
  exact h _ _ _ _

theorem energyWithin_add (hm : model.Additive timeline) (hs : start ≤ mid) (he : mid ≤ stop) :
    energyWithin model timeline intervals start stop =
      energyWithin model timeline intervals start mid +
        energyWithin model timeline intervals mid stop := by
  induction intervals with
  | nil => simp
  | cons i rest ih =>
    simp only [energyWithin_cons, ih, StateInterval.cost_clip_add hm i hs he]
    ring

/-- Within its ends a path holds the energy of its intervals. -/
theorem energyWithin_path (h : Path lo hi intervals) :
    energyWithin model timeline intervals lo hi =
      (intervals.map (·.cost model timeline)).sum := by
  rw [energyWithin]
  congr 1
  refine List.map_congr_left fun i hi' => ?_
  obtain ⟨hlo, -, hhi⟩ := h.bounds hi'
  rw [StateInterval.clip_of_bounds hlo hhi]

theorem pairwise_stop_le (h : Path lo hi intervals) (t : Rat) :
    intervals.Pairwise fun i j => decide (j.stop ≤ t) = true → decide (i.stop ≤ t) = true := by
  refine List.Pairwise.imp_of_mem ?_ h.pairwise
  intro i j _ hj hij ht
  have hle := (h.bounds hj).2.1
  exact decide_eq_true (hij.trans (hle.trans (of_decide_eq_true ht)))

theorem pairwise_start_lt (h : Path lo hi intervals) (t : Rat) :
    intervals.Pairwise fun i j => decide (j.start < t) = true → decide (i.start < t) = true := by
  refine List.Pairwise.imp_of_mem ?_ h.pairwise
  intro i j hi' _ hij ht
  have hle := (h.bounds hi').2.1
  exact decide_eq_true ((hle.trans hij).trans_lt (of_decide_eq_true ht))

/-- The search for the intervals of a span leaves out only what leaves nothing. -/
theorem spanEnergy_eq_energyWithin (hm : model.Additive timeline) (h : Path lo hi intervals) :
    Attribution.spanEnergy model intervals timeline start stop =
      energyWithin model timeline intervals start stop := by
  have hstop := pairwise_stop_le h start
  set later := intervals.dropWhile fun i => decide (i.stop ≤ start) with hlater
  have hstart : later.Pairwise fun i j =>
      decide (j.start < stop) = true → decide (i.start < stop) = true :=
    (pairwise_start_lt h stop).sublist (List.dropWhile_sublist _)
  have hbefore : energyWithin model timeline
      (intervals.takeWhile fun i => decide (i.stop ≤ start)) start stop = 0 := by
    refine energyWithin_eq_zero fun i hi => StateInterval.cost_clip_of_stop_le hm ?_
    have hi' := List.mem_takeWhile_imp hi
    exact of_decide_eq_true hi'
  have hafter : energyWithin model timeline
      (later.dropWhile fun i => decide (i.start < stop)) start stop = 0 := by
    refine energyWithin_eq_zero fun i hi => StateInterval.cost_clip_of_le_start hm ?_
    have hi' := not_of_mem_dropWhile hstart hi
    exact not_lt.mp (of_decide_eq_false hi')
  have hclipped : Attribution.clipped intervals start stop =
      (later.takeWhile fun i => decide (i.start < stop)).map (StateInterval.clip start stop) := by
    simp only [Attribution.clipped, drop_cutLength hstop, Scalar.larger_eq_max,
      Scalar.smaller_eq_min]
    rfl
  calc Attribution.spanEnergy model intervals timeline start stop
      = energyWithin model timeline (later.takeWhile fun i => decide (i.start < stop)) start
          stop := by
        rw [Attribution.spanEnergy, hclipped, Scalar.sum_eq_sum, List.map_map]
        rfl
    _ = energyWithin model timeline later start stop := by
        rw [← energyWithin_takeWhile_add_dropWhile (fun i => decide (i.start < stop)) later,
          hafter, add_zero]
    _ = energyWithin model timeline intervals start stop := by
        rw [← energyWithin_takeWhile_add_dropWhile (fun i => decide (i.stop ≤ start)) intervals,
          hbefore, zero_add]

theorem totalEnergy_eq_sum_cost {ladder : Ladder Rat} {duration : Rat}
    (hf : ∀ i ∈ intervals, i.state.family = ladder.family) :
    (Statistics.reduce ladder model intervals timeline duration).totalEnergy =
      (intervals.map (·.cost model timeline)).sum := by
  have hknown : (intervals.filter fun i => ladder.family.states.contains i.state) = intervals := by
    refine List.filter_eq_self.mpr fun i hi => ?_
    simpa using (ladder.family.mem_states_iff i.state).mpr (hf i hi)
  rw [Statistics.reduce, hknown, Scalar.tally_eq_sum]

theorem totalEnergy_reduce {ladder : Ladder Rat} {duration : Rat}
    (h : Path 0 duration intervals) (hf : ∀ i ∈ intervals, i.state.family = ladder.family) :
    (Statistics.reduce ladder model intervals timeline duration).totalEnergy =
      energyWithin model timeline intervals 0 duration := by
  rw [totalEnergy_eq_sum_cost hf, energyWithin_path h]

end BurstEnergy.Radio
