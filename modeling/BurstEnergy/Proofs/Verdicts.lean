import BurstEnergy.Proofs.Burst.Causes
import BurstEnergy.Proofs.Burst.Recurrence
import BurstEnergy.Proofs.Burst.Clusters
import BurstEnergy.Proofs.Conservation

/-!
# What the verdicts of a report say

Each verdict compares one figure with a limit. In exact arithmetic the figures lose nothing that the
verdicts are about: what passes and what fails can be read off the bursts and the events of the
trace.
-/
namespace BurstEnergy
open Classification (FollowsRotation)
open Traffic (Trace)

/-- The verdicts of a report pass just when the bursts show nothing to be blamed. -/
structure Report.VerdictsHold (report : Report Rat) (t : Profile.Thresholds Rat)
    (rotations : List Rat) : Prop where
  /-- No burst begins within the rotation window after a rotation. -/
  screenRotation : report.practices.screenRotationPassed = true ↔
    ∀ b ∈ report.bursts.bursts, ¬ FollowsRotation t rotations b
  /-- No five bursts in a row are due to user input. -/
  prefetching : report.practices.prefetchingPassed = true ↔
    ¬ List.replicate 5 .userInput <:+: report.bursts.bursts.map (·.category)
  /-- At most three bursts are long. -/
  wifiOffloading : report.practices.wifiOffloadingPassed = true ↔
    (Burst.inCategory .longBurst report.bursts.bursts).length ≤ 3
  /-- No burst continues a cycle. -/
  periodicTransfer : report.practices.periodicTransferPassed = true ↔
    ∀ i, (Periodicity.detect (.ofThresholds t)
      (report.bursts.bursts.map (·.beginTime))).cycle i = none
  /-- No closed window holds a cluster of bursts of connection control. -/
  multipleTcpConnections : 4 ≤ t.tcpClusterSize →
    (report.practices.multipleTcpConnectionsPassed = true ↔
      ¬ ∃ start, t.tcpClusterSize ≤ (Burst.inCategory .tcpProtocolOnly report.bursts.bursts).countP
        fun b => start ≤ b.beginTime ∧ b.beginTime ≤ start + t.tcpClusterWindow)

namespace Analyser
variable {profile : Profile Rat} {analyser : Analyser Rat} {trace : Trace Rat}

theorem map_step_charged (analyser : Analyser Rat) (trace : Trace Rat) :
    (analyser.charged trace).bursts.map Burst.step =
      (analyser.classified trace).bursts.map Burst.step :=
  Radio.Attribution.map_charge _ _ _ _ _ fun _ _ => rfl

theorem map_beginTime_charged (analyser : Analyser Rat) (trace : Trace Rat) :
    (analyser.charged trace).bursts.map (·.beginTime) =
      (Segmentation.segment analyser.profile.thresholds.burstGap trace.timeline).map
        (·.beginTime) :=
  (Radio.Attribution.map_charge _ _ _ _ _ fun _ _ => rfl).trans
    (Classification.map_classify (fun _ _ => rfl) _ _ _ _)

/-- Only the times of bursts decide whether one of them follows a rotation. -/
theorem followsRotation_charged (analyser : Analyser Rat) (trace : Trace Rat)
    (rotations : List Rat) :
    (∀ b ∈ (analyser.charged trace).bursts,
        ¬ FollowsRotation analyser.profile.thresholds rotations b) ↔
      ∀ b ∈ Segmentation.segment analyser.profile.thresholds.burstGap trace.timeline,
        ¬ FollowsRotation analyser.profile.thresholds rotations b := by
  have hbegin := map_beginTime_charged analyser trace
  have hiff (bursts : List (Burst Rat)) :
      (∀ b ∈ bursts, ¬ FollowsRotation analyser.profile.thresholds rotations b) ↔
        ∀ s ∈ bursts.map (·.beginTime), ¬ ∃ e ∈ rotations, e ≤ s ∧
          s - e ≤ analyser.profile.thresholds.screenRotationWindow := by
    rw [List.forall_mem_map]
    rfl
  rw [hiff, hbegin, ← hiff]

/-- The longest run of user input holds five bursts just when some five in a row do. -/
theorem prefetchingPassed_iff :
    (analyser.report trace).practices.prefetchingPassed = true ↔
      ¬ List.replicate 5 .userInput <:+:
        (analyser.report trace).bursts.bursts.map (·.category) := by
  have hhistory : (analyser.classified trace).history = Classification.History.start.after
      ((analyser.charged trace).bursts.map Burst.step) := by
    rw [map_step_charged]
    exact Classification.history_classify _
  have hrun := Classification.History.le_maxUserInputRun_iff
    ((analyser.charged trace).bursts.map Burst.step) 5
  rw [← hhistory, List.map_map] at hrun
  exact decide_eq_true_iff.trans (not_le.symm.trans (not_congr hrun))

section Validated
variable (hp : analyser.profile.validate = .ok ()) (hw : trace.WellFormed)
include hp hw

/-- The history knows of a rotation just when some burst follows one. -/
theorem screenRotationPassed_iff {rotations inputs : List Rat}
    (hm : trace.markers = .ofTimes rotations inputs) :
    (analyser.report trace).practices.screenRotationPassed = true ↔
      ∀ b ∈ (analyser.report trace).bursts.bursts,
        ¬ FollowsRotation analyser.profile.thresholds rotations b := by
  have ht := Profile.Thresholds.usable_of_validate (Profile.validate_eq_ok_iff.mp hp).1
  have hreflects := (Classification.classify_segment ht hw.timestamp rotations inputs).2
  rw [← hm] at hreflects
  exact Option.isNone_iff_eq_none.trans
    (hreflects.trans (followsRotation_charged analyser trace rotations).symm)

theorem pairwise_beginTime_charged :
    (analyser.charged trace).bursts.Pairwise fun b c => b.beginTime < c.beginTime :=
  (inSequence_charged hp hw).pairwise_beginTime

/-- Bursts begin later and later, so no cycle is zero. -/
theorem periodicTransferPassed_iff :
    (analyser.report trace).practices.periodicTransferPassed = true ↔
      ∀ i, (Periodicity.detect (.ofThresholds analyser.profile.thresholds)
        ((analyser.report trace).bursts.bursts.map (·.beginTime))).cycle i = none := by
  have htimes : ((analyser.charged trace).bursts.map (·.beginTime)).Pairwise (· < ·) :=
    List.pairwise_map.mpr (pairwise_beginTime_charged hp hw)
  have hsamples : 0 < (Periodicity.Detector.ofThresholds
      analyser.profile.thresholds).minSamples := lt_max_of_lt_right one_pos
  have hdetect : (analyser.classified trace).periodicity = Periodicity.detect
      (.ofThresholds analyser.profile.thresholds)
        ((analyser.charged trace).bursts.map (·.beginTime)) := by
    rw [map_beginTime_charged]
    rfl
  have hzero := Periodicity.minimumRepeatTime_eq_zero_iff htimes hsamples
  have hmin := congrArg (·.minimumRepeatTime) hdetect
  rw [← hmin] at hzero
  exact decide_eq_true_iff.trans (Scalar.agree_iff_eq.trans hzero)

/-- As long as a cluster takes four bursts, fewer are counted only without a cluster. -/
theorem multipleTcpConnectionsPassed_iff
    (hsize : 4 ≤ analyser.profile.thresholds.tcpClusterSize) :
    (analyser.report trace).practices.multipleTcpConnectionsPassed = true ↔
      ¬ ∃ start, analyser.profile.thresholds.tcpClusterSize ≤
        (Burst.inCategory .tcpProtocolOnly (analyser.report trace).bursts.bursts).countP
          fun b => start ≤ b.beginTime ∧
            b.beginTime ≤ start + analyser.profile.thresholds.tcpClusterWindow := by
  have ht := Profile.Thresholds.usable_of_validate (Profile.validate_eq_ok_iff.mp hp).1
  have htimes : ((Burst.inCategory .tcpProtocolOnly (analyser.charged trace).bursts).map
      (·.beginTime)).Pairwise (· ≤ ·) :=
    List.pairwise_map.mpr (((pairwise_beginTime_charged hp hw).filter _).imp le_of_lt)
  have hcount := Cluster.clusteredCount_lt_iff htimes ht.tcpClusterWindow.nonneg
    (by decide : 0 < Practices.multipleTcpConnectionsLimit) hsize
  simp only [Cluster.countWithin, List.countP_map] at hcount
  exact decide_eq_true_iff.trans hcount

end Validated

/-- The verdicts of a report mean what they say. -/
theorem run_verdicts_hold (hp : ofProfile profile = .ok analyser)
    (hf : trace.family = profile.family) (hv : trace.validate = .ok ())
    {rotations inputs : List Rat} (hm : trace.markers = .ofTimes rotations inputs) :
    ∃ report, analyser.run trace = .ok report ∧
      report.VerdictsHold profile.thresholds rotations := by
  obtain ⟨hvalid, rfl⟩ := ofProfile_eq_ok_iff.mp hp
  have hw := Trace.wellFormed_of_validate hv
  exact ⟨_, run_eq_report hf hv,
    { screenRotation := screenRotationPassed_iff hvalid hw hm
      prefetching := prefetchingPassed_iff
      wifiOffloading := decide_eq_true_iff
      periodicTransfer := periodicTransferPassed_iff hvalid hw
      multipleTcpConnections := multipleTcpConnectionsPassed_iff hvalid hw }⟩

/-- One burst every two seconds: after a rotation, five times after a tap, four large downloads, an
upload, four exchanges of connection control, and an upload that repeats every ten seconds. -/
def wastefulTrace : Trace Rat where
  timeline := ⟨[.data 0 .uplink 100] ++ [2, 4, 6, 8, 10].map (.data · .uplink 100) ++
    [12, 14, 16, 18].map (.data · .downlink 100000) ++ [.data 20 .uplink 100] ++
    [22, 24, 26, 28].map (.control · .uplink) ++ [.data 30 .uplink 100]⟩
  duration := 40
  family := .cellular3G
  markers := .ofTimes [0] [2, 4, 6, 8, 10]

/-- On the standard profile the verdicts hold of two uploads, the second one after a rotation, and
of a trace that passes none of them. -/
theorem run_verdicts_hold_standard :
    (∃ report, (⟨.standard⟩ : Analyser Rat).run
        ⟨⟨[.data 1 .uplink 100, .data 4.5 .uplink 100]⟩, 10, .cellular3G, .ofTimes [20, 4] [0.5]⟩ =
          .ok report ∧
      report.VerdictsHold .standard [20, 4] ∧ report.practices.screenRotationPassed = false) ∧
    ∃ report, (⟨.standard⟩ : Analyser Rat).run wastefulTrace = .ok report ∧
      report.VerdictsHold .standard [0] ∧ report.practices.screenRotationPassed = false ∧
      report.practices.prefetchingPassed = false ∧
      report.practices.wifiOffloadingPassed = false ∧
      report.practices.periodicTransferPassed = false ∧
      report.practices.multipleTcpConnectionsPassed = false := by
  have hp : ofProfile (Profile.standard : Profile Rat) = .ok ⟨.standard⟩ :=
    ofProfile_eq_ok_iff.mpr ⟨by decide +kernel, rfl⟩
  constructor
  · have hv : (⟨⟨[.data 1 .uplink 100, .data 4.5 .uplink 100]⟩, 10, .cellular3G,
        .ofTimes [20, 4] [0.5]⟩ : Trace Rat).validate = .ok () := by decide +kernel
    obtain ⟨report, hrun, hverdicts⟩ := run_verdicts_hold hp rfl hv rfl
    refine ⟨report, hrun, hverdicts, ?_⟩
    obtain rfl := Except.ok.inj ((run_eq_report rfl hv).symm.trans hrun)
    decide +kernel
  · have hv : wastefulTrace.validate = .ok () := by decide +kernel
    obtain ⟨report, hrun, hverdicts⟩ := run_verdicts_hold hp rfl hv rfl
    refine ⟨report, hrun, hverdicts, ?_⟩
    obtain rfl := Except.ok.inj ((run_eq_report rfl hv).symm.trans hrun)
    decide +kernel

end Analyser
end BurstEnergy
