import Mathlib
import BurstEnergy.Proofs.Conservation
import BurstEnergy.Proofs.Radio.Rows

/-!
# What the statistics of a report add up to

The rows of the statistics share out the duration, the visits and the energy of a trace, and the
tail of each is part of its time. The ratio of the tail to the time after traffic is worked out once
for all families, and once more for each: both agree, because the radio waits just in the states,
and with the mark, that its ladder gives it.
-/
namespace BurstEnergy
open Traffic (Timeline Trace)

namespace Radio
open StateInterval (Path)
open StateTotals (ofIntervals)

/-- The ratios of a family agree with the ratio that all families have, and with the table. -/
def Statistics.RatiosAgree (s : Statistics Rat) : Prop :=
  match s.family, s.familyRatios with
  | .cellular3G, .umts dchTail _ => s.tailRatio = dchTail
  | .cellularLte, .lte crTail short long =>
    s.tailRatio = crTail ∧
      short + long = if 0 < s.seconds .shortDrx ∨ 0 < s.seconds .longDrx then 1 else 0
  | .wifi, .wifi _ _ _ =>
    s.tailRatio = Scalar.share (s.seconds .wifiTail) (s.seconds .wifiTail + s.seconds .wifiActive)
  | _, _ => False

/-- Statistics that share out a duration, a number of visits and an energy. -/
structure Statistics.Conserved (s : Statistics Rat) (duration : Rat) (visits : ℕ) : Prop where
  seconds : (s.states.map (·.seconds)).sum = duration
  ratio : 0 < duration → (s.states.map (·.ratio)).sum = 1
  /-- A trace without length has no shares. -/
  ratio_zero : duration = 0 → ∀ row ∈ s.states, row.ratio = 0
  intervals : (s.states.map (·.intervals)).sum = visits
  energy : (s.states.map (·.energy)).sum = s.totalEnergy
  tailSeconds : ∀ row ∈ s.states, 0 ≤ row.tailSeconds ∧ row.tailSeconds ≤ row.seconds
  tailRatio : 0 ≤ s.tailRatio ∧ s.tailRatio ≤ 1
  ratiosAgree : s.RatiosAgree

namespace Statistics
variable {ladder : Ladder Rat} {model : EnergyModel Rat} {timeline : Timeline Rat} {duration : Rat}
  {intervals : List (StateInterval Rat)} {state tail : State}

theorem mem_states_reduce {row : StateTotals Rat}
    (h : row ∈ (reduce ladder model intervals timeline duration).states) :
    ∃ state, row = ofIntervals model timeline duration intervals state := by
  obtain ⟨state, -, rfl⟩ := List.mem_map.mp h
  exact ⟨state, rfl⟩

theorem tailRatio_reduce (ht : ladder.firstTail = some tail) (hf : tail.family = ladder.family)
    (ha : ladder.active.family = ladder.family) :
    (reduce ladder model intervals timeline duration).tailRatio =
      Scalar.share (ofIntervals model timeline duration intervals tail).tailSeconds
        ((ofIntervals model timeline duration intervals tail).tailSeconds +
          ((ofIntervals model timeline duration intervals ladder.active).seconds -
            (ofIntervals model timeline duration intervals ladder.active).tailSeconds)) := by
  have htail := (ladder.family.mem_states_iff tail).mpr hf
  have hactive := (ladder.family.mem_states_iff ladder.active).mpr ha
  simp only [reduce, ht, StateTotals.lookup_map_ofIntervals htail,
    StateTotals.lookup_map_ofIntervals hactive]

/-- The tail is part of the time after which it is measured. -/
theorem tailRatio_bounds (hd : ∀ i ∈ intervals, 0 ≤ i.duration)
    (ht : ladder.firstTail = some tail) (hf : tail.family = ladder.family)
    (ha : ladder.active.family = ladder.family) :
    0 ≤ (reduce ladder model intervals timeline duration).tailRatio ∧
      (reduce ladder model intervals timeline duration).tailRatio ≤ 1 := by
  have htransfer : 0 ≤ (ofIntervals model timeline duration intervals ladder.active).seconds -
      (ofIntervals model timeline duration intervals ladder.active).tailSeconds :=
    sub_nonneg.mpr (StateTotals.tailSeconds_le_seconds hd)
  rw [tailRatio_reduce ht hf ha]
  exact ⟨Scalar.share_nonneg (StateTotals.tailSeconds_nonneg hd) _,
    Scalar.share_le_one (le_add_of_nonneg_right htransfer)⟩

/-- A radio that waits after traffic in a state of its own, and there alone, spends its tail in one
state and its transfers in another. -/
theorem tailRatio_of_apart (ht : ladder.firstTail = some tail) (hf : tail.family = ladder.family)
    (ha : ladder.active.family = ladder.family)
    (hwait : ∀ i ∈ intervals, i.state = tail → i.tail = true)
    (hactive : ∀ i ∈ intervals, i.state = ladder.active → i.tail = false) :
    (reduce ladder model intervals timeline duration).tailRatio =
      Scalar.share (ofIntervals model timeline duration intervals tail).seconds
        ((ofIntervals model timeline duration intervals tail).seconds +
          (ofIntervals model timeline duration intervals ladder.active).seconds) := by
  rw [tailRatio_reduce ht hf ha, StateTotals.tailSeconds_eq_seconds hwait,
    StateTotals.tailSeconds_eq_zero hactive, sub_zero]

end Statistics

section Reduce
variable {radio : Profile.RadioModel Rat} {model : EnergyModel Rat} {timeline : Timeline Rat}
  {duration : Rat} {intervals : List (StateInterval Rat)}

/-- Every family first waits in a state of its own. -/
theorem exists_firstTail (radio : Profile.RadioModel Rat) :
    ∃ tail, (Ladder.ofRadio radio).firstTail = some tail ∧
      tail.family = (Ladder.ofRadio radio).family := by
  cases radio <;> exact ⟨_, rfl, rfl⟩

/-- The computations of the tail ratio come to the same: LTE and WiFi wait in states of their own,
which hold nothing but tail time, and hold the active state without any. -/
theorem ratiosAgree_reduce (hd : ∀ i ∈ intervals, 0 ≤ i.duration)
    (hm : ∀ i ∈ intervals, i.mode ∈ (Ladder.ofRadio radio).modes) :
    (Statistics.reduce (.ofRadio radio) model intervals timeline duration).RatiosAgree := by
  have hflag {state : State} {flag : Bool}
      (h : ∀ m ∈ (Ladder.ofRadio radio).modes, m.1 = state → m.2 = flag) :
      ∀ i ∈ intervals, i.state = state → i.tail = flag := fun i hi => h _ (hm i hi)
  let row (state : State) := ofIntervals model timeline duration intervals state
  have hnonneg (state : State) : 0 ≤ (row state).seconds :=
    (StateTotals.tailSeconds_nonneg hd).trans (StateTotals.tailSeconds_le_seconds hd)
  cases radio with
  | umts r =>
    have hratio : (Statistics.reduce (.ofRadio (.umts r)) model intervals timeline
        duration).tailRatio =
          Scalar.share (row .dch).tailSeconds
            ((row .dch).tailSeconds + ((row .dch).seconds - (row .dch).tailSeconds)) :=
      Statistics.tailRatio_reduce rfl rfl rfl
    rw [add_sub_cancel] at hratio
    exact hratio
  | lte r =>
    have hwait : ∀ i ∈ intervals, i.state = .continuousReceptionTail → i.tail = true :=
      hflag (by simp [Ladder.modes, Ladder.waitingModes, Ladder.promotions, Ladder.ofRadio])
    have hactive : ∀ i ∈ intervals, i.state = .continuousReception → i.tail = false :=
      hflag (by simp [Ladder.modes, Ladder.waitingModes, Ladder.promotions, Ladder.ofRadio])
    have hratio : (Statistics.reduce (.ofRadio (.lte r)) model intervals timeline
        duration).tailRatio =
          Scalar.share (row .continuousReceptionTail).seconds
            ((row .continuousReceptionTail).seconds + (row .continuousReception).seconds) :=
      Statistics.tailRatio_of_apart rfl rfl rfl hwait hactive
    rw [add_comm] at hratio
    exact ⟨hratio, Scalar.share_add_share (hnonneg .shortDrx) (hnonneg .longDrx)⟩
  | wifi r =>
    have hwait : ∀ i ∈ intervals, i.state = .wifiTail → i.tail = true :=
      hflag (by simp [Ladder.modes, Ladder.waitingModes, Ladder.promotions, Ladder.ofRadio])
    have hactive : ∀ i ∈ intervals, i.state = .wifiActive → i.tail = false :=
      hflag (by simp [Ladder.modes, Ladder.waitingModes, Ladder.promotions, Ladder.ofRadio])
    have hratio : (Statistics.reduce (.ofRadio (.wifi r)) model intervals timeline
        duration).tailRatio =
          Scalar.share (row .wifiTail).seconds
            ((row .wifiTail).seconds + (row .wifiActive).seconds) :=
      Statistics.tailRatio_of_apart rfl rfl rfl hwait hactive
    exact hratio

/-- Intervals that fill a trace, each of a mode of the radio, are shared out by the statistics. -/
theorem conserved_reduce (hpath : Path 0 duration intervals)
    (hm : ∀ i ∈ intervals, i.mode ∈ (Ladder.ofRadio radio).modes) :
    (Statistics.reduce (.ofRadio radio) model intervals timeline duration).Conserved duration
      intervals.length := by
  have hd : ∀ i ∈ intervals, 0 ≤ i.duration :=
    fun i hi => sub_nonneg.mpr (hpath.bounds hi).2.1
  have hf : ∀ i ∈ intervals, i.state.family = (Ladder.ofRadio radio).family := by
    intro i hi
    rw [Ladder.family_ofRadio]
    exact Ladder.family_of_mem_modes (Ladder.homogeneous_ofRadio radio) (hm i hi)
  have hseconds : ((Statistics.reduce (.ofRadio radio) model intervals timeline
      duration).states.map (·.seconds)).sum = duration := by
    rw [Statistics.sum_all_rows hf fun _ => StateTotals.seconds_ofIntervals, hpath.sum_duration,
      sub_zero]
  have hshares : (Statistics.reduce (.ofRadio radio) model intervals timeline
      duration).states.map (·.ratio) =
        ((Statistics.reduce (.ofRadio radio) model intervals timeline
          duration).states.map (·.seconds)).map fun part => Scalar.share part duration := by
    rw [List.map_map]
    refine List.map_congr_left fun row hrow => ?_
    obtain ⟨state, rfl⟩ := Statistics.mem_states_reduce hrow
    exact StateTotals.ratio_ofIntervals
  obtain ⟨tail, hfirst, htail⟩ := exists_firstTail radio
  have hactive : (Ladder.ofRadio radio).active.family = (Ladder.ofRadio radio).family := by
    rw [Ladder.active_ofRadio, Ladder.family_ofRadio, Family.family_activeState]
  refine
    { seconds := hseconds
      ratio := ?ratio
      ratio_zero := ?ratio_zero
      intervals := ?intervals
      energy := ?energy
      tailSeconds := ?tailSeconds
      tailRatio := Statistics.tailRatio_bounds hd hfirst htail hactive
      ratiosAgree := ratiosAgree_reduce hd hm }
  case ratio =>
    intro hlength
    rw [hshares, Scalar.sum_map_share, hseconds, Scalar.share_self, if_pos hlength]
  case ratio_zero =>
    rintro rfl row hrow
    obtain ⟨state, rfl⟩ := Statistics.mem_states_reduce hrow
    rw [StateTotals.ratio_ofIntervals, Scalar.share_zero]
  case intervals =>
    rw [Statistics.sum_all_rows hf fun _ => StateTotals.intervals_ofIntervals]
    simp
  case energy =>
    rw [Statistics.sum_all_rows hf fun _ => StateTotals.energy_ofIntervals,
      totalEnergy_eq_sum_cost hf]
  case tailSeconds =>
    intro row hrow
    obtain ⟨state, rfl⟩ := Statistics.mem_states_reduce hrow
    exact ⟨StateTotals.tailSeconds_nonneg hd, StateTotals.tailSeconds_le_seconds hd⟩

end Reduce
end Radio

namespace Analyser
variable {profile : Profile Rat} {analyser : Analyser Rat} {trace : Trace Rat}

/-- The statistics of a report share out the duration of the trace, its state intervals and its
energy. -/
theorem run_conserves_statistics (hp : ofProfile profile = .ok analyser)
    (hf : trace.family = profile.family) (hv : trace.validate = .ok ()) :
    ∃ report, analyser.run trace = .ok report ∧ report.statistics.family = trace.family ∧
      report.statistics.Conserved trace.duration report.states.length := by
  obtain ⟨hvalid, rfl⟩ := ofProfile_eq_ok_iff.mp hp
  have hw := Trace.wellFormed_of_validate hv
  have hfamily : analyser.ladder.family = analyser.profile.family :=
    Radio.Ladder.family_ofRadio analyser.profile.radio
  refine ⟨_, run_eq_report hf hv, hfamily.trans hf.symm, ?_⟩
  refine Radio.conserved_reduce (path_states hvalid hw) fun i hi => ?_
  rw [states_eq_simulate] at hi
  exact Radio.Ladder.mode_mem_of_mem_simulate (Radio.Ladder.usable_ofProfile hvalid)
    (inSequence_charged hvalid hw) hi

/-- The standard profile shares out the time of three lone packets. -/
theorem run_conserves_statistics_standard : ∃ report,
    (⟨.standard⟩ : Analyser Rat).run lonePackets = .ok report ∧
      report.statistics.family = .cellular3G ∧
      report.statistics.Conserved 12 report.states.length := by
  have hp : ofProfile (.standard : Profile Rat) = .ok ⟨.standard⟩ :=
    ofProfile_eq_ok_iff.mpr ⟨by decide +kernel, rfl⟩
  have hv : lonePackets.validate = .ok () := by decide +kernel
  exact run_conserves_statistics hp rfl hv

end Analyser
end BurstEnergy
