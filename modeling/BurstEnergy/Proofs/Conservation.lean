import Mathlib
import BurstEnergy.Proofs.Burst.Segments
import BurstEnergy.Proofs.Radio.Charging
import BurstEnergy.Proofs.Radio.Tiling
import BurstEnergy.Report

/-!
# Conservation of energy by attribution

In exact arithmetic the charges of the bursts of a report make up the energy of the radio from the
first charge on, as long as the first timer of the radio takes time. Without it promotions can run
into each other, and those that the next one takes up are charged twice.
-/
namespace BurstEnergy
open Radio (Ladder Waking energyWithin energyOver takenUp)
open Radio.Attribution (chargeStart spans)
open Traffic (Trace)

/-- The timer that starts when traffic stops. -/
def Profile.RadioModel.firstTimer {α : Type} : Profile.RadioModel α → α
  | .umts r => r.dchTail
  | .lte r => r.crTail
  | .wifi r => r.wifiTail

/-- Traffic leaves the first rung of every family without a promotion. -/
theorem Radio.Ladder.exists_first_rung {α : Type} (profile : Profile α) :
    ∃ first below, (Ladder.ofProfile profile).rungs = first :: below ∧
      first.timer = profile.radio.firstTimer ∧ first.promotion = none := by
  unfold ofProfile
  cases profile.radio <;> exact ⟨_, _, rfl, rfl, rfl⟩

namespace Analyser

section Run
variable {α : Type} [Scalar α] {profile : Profile α} {analyser : Analyser α} {trace : Trace α}

theorem ofProfile_eq_ok_iff :
    ofProfile profile = .ok analyser ↔ profile.validate = .ok () ∧ analyser.profile = profile := by
  refine check_bind_eq_ok_iff.trans (and_congr_right fun _ => ?_)
  constructor
  · intro h
    rw [← Except.ok.inj h]
  · intro h
    rw [← h]
    rfl

theorem run_eq_report (hf : trace.family = analyser.profile.family)
    (hv : trace.validate = .ok ()) : analyser.run trace = .ok (analyser.report trace) := by
  have hguard : ¬ trace.family ≠ analyser.profile.family := not_not.mpr hf
  unfold run
  rw [if_neg hguard, hv]
  rfl

theorem map_times_charged (analyser : Analyser α) (trace : Trace α) :
    (analyser.charged trace).bursts.map Burst.times =
      (analyser.classified trace).bursts.map Burst.times :=
  Radio.Attribution.map_times_charge _ _ _ _ _

/-- The charged bursts are simulated just like the classified ones. -/
theorem states_eq_simulate :
    analyser.states trace =
      analyser.ladder.simulate (analyser.charged trace).bursts trace.duration :=
  (Ladder.simulate_of_times (map_times_charged analyser trace)).symm

theorem inSequence_charged [Scalar.Lawful α] (hp : analyser.profile.validate = .ok ())
    (hw : trace.WellFormed) :
    Burst.InSequence trace.duration (analyser.charged trace).bursts := by
  have hgap : Scalar.IsAmount analyser.profile.thresholds.burstGap :=
    Profile.Thresholds.isAmount_burstGap (Profile.validate_eq_ok_iff.mp hp).1
  have hsegment := Segmentation.inSequence_segment hw hgap
  have htimes : (analyser.charged trace).bursts.map Burst.times =
      (Segmentation.segment analyser.profile.thresholds.burstGap trace.timeline).map
        Burst.times :=
    (map_times_charged analyser trace).trans (Classification.map_times_classify _ _ _ _)
  exact hsegment.of_times htimes

end Run

section Exact
variable {profile : Profile Rat} {analyser : Analyser Rat} {trace : Trace Rat}

def chargeStarts (report : Report Rat) : List Rat :=
  report.bursts.bursts.map fun b => chargeStart report.states b.beginTime

def wakings (analyser : Analyser Rat) (report : Report Rat) : List Waking :=
  analyser.ladder.wakings report.bursts.bursts

/-- The energy of the radio until it first wakes for a burst. -/
def energyBefore (analyser : Analyser Rat) (trace : Trace Rat) (report : Report Rat) : Rat :=
  energyWithin analyser.profile.energy trace.timeline report.states 0
    (((analyser.wakings report).head?.map Waking.lead).getD trace.duration)

/-- The energy of the promotions that the next one takes up, that of the first burst left out. -/
def energyTwice (analyser : Analyser Rat) (trace : Trace Rat) (report : Report Rat) : Rat :=
  energyOver analyser.profile.energy trace.timeline report.states
    (takenUp none (analyser.wakings report).tail)

section Validated
variable (hp : analyser.profile.validate = .ok ()) (hw : trace.WellFormed)
include hp hw

theorem path_states : Radio.StateInterval.Path 0 trace.duration (analyser.states trace) := by
  rw [states_eq_simulate]
  exact Ladder.path_simulate (Ladder.usable_ofProfile hp) (inSequence_charged hp hw)

theorem chargeStarts_report :
    chargeStarts (analyser.report trace) =
      Radio.startsFrom none (analyser.wakings (analyser.report trace)) := by
  have hl : analyser.ladder.Usable := Ladder.usable_ofProfile hp
  have hstarts := Ladder.map_chargeStart_simulate hl (Ladder.promotionsApart_ofProfile _)
    (inSequence_charged hp hw)
  rw [← states_eq_simulate] at hstarts
  exact hstarts

theorem follow_wakings :
    Waking.Follow trace.duration 0 (analyser.wakings (analyser.report trace)) :=
  Ladder.follow_wakings (Ladder.usable_ofProfile hp) (Ladder.promotionsApart_ofProfile _)
    (inSequence_charged hp hw)

theorem map_energy_report :
    (analyser.report trace).bursts.bursts.map (·.energy) =
      (spans trace.duration (chargeStarts (analyser.report trace))).map fun (start, stop) =>
        energyWithin analyser.profile.energy trace.timeline (analyser.states trace) start stop := by
  have hm := analyser.profile.energy_additive hw.ordered
  have hstarts : chargeStarts (analyser.report trace) = (analyser.classified trace).bursts.map
      fun b => chargeStart (analyser.states trace) b.beginTime := by
    have hmap := congrArg (List.map fun times => chargeStart (analyser.states trace) times.1)
      (map_times_charged analyser trace)
    rw [List.map_map, List.map_map] at hmap
    exact hmap
  rw [hstarts]
  refine (Radio.Attribution.map_energy_charge _ _ _ _ _).trans ?_
  refine List.map_congr_left fun span _ => ?_
  exact Radio.spanEnergy_eq_energyWithin hm (path_states hp hw)

theorem totalEnergy_report :
    (analyser.report trace).bursts.totalEnergy =
      energyOver analyser.profile.energy trace.timeline (analyser.states trace)
        (spans trace.duration (chargeStarts (analyser.report trace))) := by
  rw [energyOver, ← map_energy_report hp hw, ← Scalar.sum_eq_sum]
  rfl

theorem totalEnergy_statistics :
    (analyser.report trace).statistics.totalEnergy =
      energyWithin analyser.profile.energy trace.timeline (analyser.states trace) 0
        trace.duration := by
  refine Radio.totalEnergy_reduce (path_states hp hw) ?_
  rw [states_eq_simulate]
  exact Ladder.family_simulate_ofProfile hp (inSequence_charged hp hw)

/-- Charges miss what comes before the radio first wakes, and count what is taken up twice. -/
theorem totalEnergy_add_energyBefore :
    (analyser.report trace).bursts.totalEnergy +
        analyser.energyBefore trace (analyser.report trace) =
      (analyser.report trace).statistics.totalEnergy +
        analyser.energyTwice trace (analyser.report trace) := by
  rw [totalEnergy_report hp hw, totalEnergy_statistics hp hw, chargeStarts_report hp hw]
  exact Radio.energyOver_spans_add_lead _ (analyser.profile.energy_additive hw.ordered)
    (follow_wakings hp hw)

/-- A first timer that takes time keeps the promotions apart. -/
theorem apart_wakings (htimer : 0 < analyser.profile.radio.firstTimer) :
    Waking.Apart (analyser.wakings (analyser.report trace)) := by
  obtain ⟨first, below, hrungs, hfirst, hfree⟩ := Ladder.exists_first_rung analyser.profile
  exact Ladder.apart_wakings (Ladder.usable_ofProfile hp) hrungs (hfirst ▸ htimer) hfree
    (inSequence_charged hp hw)

theorem takenUp_eq_nil (htimer : 0 < analyser.profile.radio.firstTimer) :
    takenUp none (analyser.wakings (analyser.report trace)).tail = [] := by
  have hapart := apart_wakings hp hw htimer
  have hfollow := follow_wakings hp hw
  cases hws : analyser.wakings (analyser.report trace) with
  | nil => rfl
  | cons waking rest =>
    rw [hws] at hapart hfollow
    exact (Radio.startsFrom_of_apart hfollow.2.2 hapart.tail).2

end Validated

theorem energyBefore_nonneg (hp : analyser.profile.validate = .ok ()) :
    0 ≤ analyser.energyBefore trace (analyser.report trace) :=
  Radio.energyWithin_nonneg fun start stop state packets =>
    Profile.energy_nonneg state hp start stop packets

/-- The bursts are charged with more than the radio spent exactly when the promotions that are
taken up cost more than what comes before the first waking, and with some time twice exactly when
there are such promotions. Neither happens when the first timer takes time. -/
theorem run_totalEnergy_le_iff (hp : ofProfile profile = .ok analyser)
    (hf : trace.family = profile.family) (hv : trace.validate = .ok ()) :
    ∃ report, analyser.run trace = .ok report ∧
      report.bursts.totalEnergy + analyser.energyBefore trace report =
        report.statistics.totalEnergy + analyser.energyTwice trace report ∧
      (report.bursts.totalEnergy ≤ report.statistics.totalEnergy ↔
        analyser.energyTwice trace report ≤ analyser.energyBefore trace report) ∧
      ((spans trace.duration (chargeStarts report)).Pairwise Radio.SharesNoTime ↔
        takenUp none (analyser.wakings report).tail = []) ∧
      (0 < profile.radio.firstTimer →
        report.bursts.totalEnergy ≤ report.statistics.totalEnergy ∧
        (spans trace.duration (chargeStarts report)).Pairwise Radio.SharesNoTime) := by
  obtain ⟨hvalid, rfl⟩ := ofProfile_eq_ok_iff.mp hp
  have hw := Trace.wellFormed_of_validate hv
  have hsum := totalEnergy_add_energyBefore hvalid hw
  have hiff : (analyser.report trace).bursts.totalEnergy ≤
      (analyser.report trace).statistics.totalEnergy ↔
        analyser.energyTwice trace (analyser.report trace) ≤
          analyser.energyBefore trace (analyser.report trace) := by
    constructor <;> intro h <;> linarith only [h, hsum]
  have hshare : (spans trace.duration (chargeStarts (analyser.report trace))).Pairwise
      Radio.SharesNoTime ↔ takenUp none (analyser.wakings (analyser.report trace)).tail = [] := by
    rw [chargeStarts_report hvalid hw]
    exact Radio.pairwise_sharesNoTime_iff (follow_wakings hvalid hw)
  refine ⟨_, run_eq_report hf hv, hsum, hiff, hshare, fun htimer => ?_⟩
  have hnone := takenUp_eq_nil hvalid hw htimer
  refine ⟨hiff.mpr ?_, hshare.mpr hnone⟩
  rw [energyTwice, hnone]
  exact energyBefore_nonneg hvalid

/-- The standard profile with tail timers that run out at once. -/
def tailless : Profile Rat :=
  { (Profile.standard : Profile Rat) with
    radio := .umts { (Profile.UmtsRadio.standard : Profile.UmtsRadio Rat) with
      dchTail := 0, fachTail := 0 } }

/-- Three packets of which each is a burst of its own. -/
def lonePackets : Trace Rat :=
  ⟨⟨[.data 0 .uplink 100, .data 10 .uplink 100, .data 12 .uplink 100]⟩, 12, .cellular3G, .empty⟩

/-- The law on three lone packets: the third one takes up the promotion of the second. -/
theorem run_totalEnergy_tailless : ∃ report,
    (⟨tailless⟩ : Analyser Rat).run lonePackets = .ok report ∧
    report.bursts.totalEnergy + energyBefore ⟨tailless⟩ lonePackets report =
      report.statistics.totalEnergy + energyTwice ⟨tailless⟩ lonePackets report := by
  have hp : ofProfile tailless = .ok ⟨tailless⟩ :=
    ofProfile_eq_ok_iff.mpr ⟨by decide +kernel, rfl⟩
  have hv : lonePackets.validate = .ok () := by decide +kernel
  obtain ⟨report, hrun, hsum, -, -, -⟩ := run_totalEnergy_le_iff hp rfl hv
  exact ⟨report, hrun, hsum⟩

/-- A validated profile and a valid trace do not keep the charges below what the radio spent. -/
theorem exists_totalEnergy_gt : ¬ ∀ (profile : Profile Rat) (analyser : Analyser Rat)
    (trace : Trace Rat) (report : Report Rat), ofProfile profile = .ok analyser →
      trace.family = profile.family → trace.validate = .ok () →
        analyser.run trace = .ok report →
          report.bursts.totalEnergy ≤ report.statistics.totalEnergy := by
  intro h
  have hp : ofProfile tailless = .ok ⟨tailless⟩ :=
    ofProfile_eq_ok_iff.mpr ⟨by decide +kernel, rfl⟩
  have hv : lonePackets.validate = .ok () := by decide +kernel
  have hle := h tailless ⟨tailless⟩ lonePackets _ hp rfl hv (run_eq_report rfl hv)
  have hgt : ((⟨tailless⟩ : Analyser Rat).report lonePackets).statistics.totalEnergy <
      ((⟨tailless⟩ : Analyser Rat).report lonePackets).bursts.totalEnergy := by decide +kernel
  exact absurd hle hgt.not_ge

/-- With a first timer that takes time, the charge of a burst starts with the promotion planned for
it, if that takes any time, and else with the burst. Charges start later and later, each is the
energy up to where the next one starts, and all of them make up the energy of the radio from where
the first one starts. -/
theorem run_conserves_energy (hp : ofProfile profile = .ok analyser)
    (htimer : 0 < profile.radio.firstTimer) (hf : trace.family = profile.family)
    (hv : trace.validate = .ok ()) :
    ∃ report, analyser.run trace = .ok report ∧
      chargeStarts report = (analyser.wakings report).map Waking.lead ∧
      (analyser.wakings report).filterMap (·.paid) =
        Radio.promotionsIn (analyser.ladder.plan trace.duration report.bursts.bursts) ∧
      (chargeStarts report).Pairwise (· < ·) ∧
      report.bursts.bursts.map (·.energy) =
        ((spans trace.duration (chargeStarts report)).map fun (start, stop) =>
          energyWithin profile.energy trace.timeline report.states start stop) ∧
      (report.bursts.bursts.map (·.energy)).sum =
        report.statistics.totalEnergy - energyWithin profile.energy trace.timeline report.states 0
          ((chargeStarts report).head?.getD trace.duration) := by
  obtain ⟨hvalid, rfl⟩ := ofProfile_eq_ok_iff.mp hp
  have hw := Trace.wellFormed_of_validate hv
  have hapart := apart_wakings hvalid hw htimer
  have hfollow := follow_wakings hvalid hw
  have hstarts : chargeStarts (analyser.report trace) =
      (analyser.wakings (analyser.report trace)).map Waking.lead :=
    (chargeStarts_report hvalid hw).trans (Radio.startsFrom_of_apart hfollow hapart).1
  have hplanned := Ladder.promotionsIn_plan (Ladder.usable_ofProfile hvalid)
    (Ladder.promotionsApart_ofProfile _) (inSequence_charged hvalid hw)
  have hsum := totalEnergy_add_energyBefore hvalid hw
  have htotal : (analyser.report trace).bursts.totalEnergy =
      ((analyser.report trace).bursts.bursts.map (·.energy)).sum := Scalar.sum_eq_sum _
  have hbefore : analyser.energyBefore trace (analyser.report trace) =
      energyWithin analyser.profile.energy trace.timeline (analyser.report trace).states 0
        ((chargeStarts (analyser.report trace)).head?.getD trace.duration) := by
    rw [energyBefore, hstarts, List.head?_map]
  refine ⟨_, run_eq_report hf hv, hstarts, hplanned.symm, ?_, map_energy_report hvalid hw, ?_⟩
  · rw [hstarts]
    exact Radio.pairwise_lead hfollow hapart
  · have hnone : analyser.energyTwice trace (analyser.report trace) = 0 := by
      rw [energyTwice, takenUp_eq_nil hvalid hw htimer, Radio.energyOver_nil]
    rw [← htotal, ← hbefore]
    linarith only [hsum, hnone]

/-- On the standard profile the first charge starts with the promotion before the first packet. -/
theorem run_conserves_energy_standard : ∃ report, (⟨.standard⟩ : Analyser Rat).run
      ⟨⟨[.data 3 .uplink 100, .data 12 .downlink 900, .data 30 .uplink 100]⟩, 50, .cellular3G,
        .empty⟩ = .ok report ∧
    (chargeStarts report).Pairwise (· < ·) ∧
    (report.bursts.bursts.map (·.energy)).sum = report.statistics.totalEnergy -
      energyWithin (Profile.standard : Profile Rat).energy
        ⟨[.data 3 .uplink 100, .data 12 .downlink 900, .data 30 .uplink 100]⟩ report.states 0
        ((chargeStarts report).head?.getD 50) := by
  have hp : ofProfile (Profile.standard : Profile Rat) = .ok ⟨.standard⟩ :=
    ofProfile_eq_ok_iff.mpr ⟨by decide +kernel, rfl⟩
  have htimer : 0 < (Profile.standard : Profile Rat).radio.firstTimer := by decide +kernel
  have hv : (⟨⟨[.data 3 .uplink 100, .data 12 .downlink 900, .data 30 .uplink 100]⟩, 50,
      .cellular3G, .empty⟩ : Trace Rat).validate = .ok () := by decide +kernel
  obtain ⟨report, hrun, -, -, hstarts, -, hsum⟩ := run_conserves_energy hp htimer rfl hv
  exact ⟨report, hrun, hstarts, hsum⟩

end Exact
end Analyser
end BurstEnergy
