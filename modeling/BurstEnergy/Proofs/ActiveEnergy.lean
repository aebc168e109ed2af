import Mathlib
import BurstEnergy.Proofs.Burst.Members
import BurstEnergy.Proofs.Conservation
import BurstEnergy.Proofs.Radio.Arrivals

/-!
# The energy of the active state

LTE and WiFi hold the active state for transfers alone. Its energy is the steady power over the time
of the bursts, and an amount for each byte that they carry in that time. The time of a burst is open
at its end, so packets at the very end of a burst, its last one among them, are not charged for.
-/
namespace BurstEnergy
open Radio (Ladder Mode StateInterval Statistics)
open Traffic (Packet Timeline Trace)

/-- The packets of the bursts that take time. -/
def Burst.carried {α : Type} [Scalar α] (timeline : Timeline α) (bursts : List (Burst α)) :
    List (Packet α) :=
  (bursts.filter fun b => b.beginTime < b.endTime).flatMap fun b => b.members timeline

/-- The packets of bursts that come before the end of their burst. -/
def Burst.carriedInside {α : Type} [Scalar α] (timeline : Timeline α) (bursts : List (Burst α)) :
    List (Packet α) :=
  (bursts.filter fun b => b.beginTime < b.endTime).flatMap fun b =>
    (b.members timeline).filter fun p => p.timestamp < b.endTime

/-- LTE and WiFi hold the active state for transfers alone. -/
theorem Radio.Ladder.picksActive_ofProfile {α : Type} {profile : Profile α}
    (h : profile.family ≠ .cellular3G) :
    (Ladder.ofProfile profile).PicksTransfers
      fun m : Mode => decide (m.1 = profile.family.activeState) := by
  unfold Profile.family at h
  unfold ofProfile Profile.family
  cases hr : profile.radio with
  | umts r => exact absurd (by rw [hr]; rfl) h
  | lte r =>
    constructor <;>
      simp [ofRadio, waitingModes, promotions, Profile.RadioModel.family, Family.activeState]
  | wifi r =>
    constructor <;>
      simp [ofRadio, waitingModes, promotions, Profile.RadioModel.family, Family.activeState]

namespace Profile

theorem exists_throughputPower {α : Type} {profile : Profile α} (h : profile.family ≠ .cellular3G) :
    ∃ up down, profile.radio.throughputPower? profile.family.activeState = some (up, down) := by
  unfold Profile.family at h ⊢
  cases hr : profile.radio with
  | umts r => exact absurd (by rw [hr]; rfl) h
  | lte r => exact ⟨_, _, rfl⟩
  | wifi r => exact ⟨_, _, rfl⟩

variable (profile : Profile Rat) (state : Radio.State)

theorem byteEnergy_nil : profile.byteEnergy state [] = 0 := by
  unfold byteEnergy
  split <;> simp [Packet.bytesTowards]

theorem sum_map_byteEnergy {β : Type} (f : β → List (Packet Rat)) (l : List β) :
    (l.map fun b => profile.byteEnergy state (f b)).sum =
      profile.byteEnergy state (l.flatMap f) := by
  induction l with
  | nil => exact (byteEnergy_nil profile state).symm
  | cons b rest ih =>
    rw [List.map_cons, List.sum_cons, ih, List.flatMap_cons, byteEnergy_append]

end Profile

namespace Analyser

theorem standsFor_of_mem_charged {α : Type} [Scalar α] [Scalar.Lawful α] {analyser : Analyser α}
    {trace : Trace α} (hp : analyser.profile.validate = .ok ()) (hw : trace.WellFormed)
    {burst : Burst α} (hb : burst ∈ (analyser.charged trace).bursts) :
    ∃ before members after, trace.timeline.packets = before ++ members ++ after ∧
      burst.StandsFor before members after := by
  let key (b : Burst α) : (α × α) × PacketRange := (b.times, b.packets)
  have hgap : Scalar.IsAmount analyser.profile.thresholds.burstGap :=
    Profile.Thresholds.isAmount_burstGap (Profile.validate_eq_ok_iff.mp hp).1
  have hkeys : (analyser.charged trace).bursts.map key =
      (Segmentation.segment analyser.profile.thresholds.burstGap trace.timeline).map key :=
    (Radio.Attribution.map_charge _ _ _ _ _ fun _ _ => rfl).trans
      (Classification.map_classify (fun _ _ => rfl) _ _ _ _)
  have hmem : key burst ∈ (analyser.charged trace).bursts.map key := List.mem_map_of_mem hb
  rw [hkeys] at hmem
  obtain ⟨segmented, hsegmented, heq⟩ := List.mem_map.mp hmem
  obtain ⟨htimes, hrange⟩ := Prod.mk.inj heq
  obtain ⟨before, members, after, hsplit, hstands⟩ :=
    Segmentation.standsFor_of_mem_segment hw hgap hsegmented
  exact ⟨before, members, after, hsplit, hstands.of_eq htimes.symm hrange.symm⟩

section Exact
variable {profile : Profile Rat} {analyser : Analyser Rat} {trace : Trace Rat}

/-- The transfer of a burst costs its steady power, and its packets before the end. -/
theorem cost_transfer (hp : analyser.profile.validate = .ok ()) (hw : trace.WellFormed)
    {burst : Burst Rat} (hb : burst ∈ (analyser.charged trace).bursts)
    (hlt : burst.beginTime < burst.endTime) (state : Radio.State) :
    (⟨burst.beginTime, burst.endTime, state, false⟩ : StateInterval Rat).cost
        analyser.profile.energy trace.timeline =
      analyser.profile.power state * burst.duration + analyser.profile.byteEnergy state
        ((burst.members trace.timeline).filter fun p => p.timestamp < burst.endTime) := by
  obtain ⟨before, members, after, hsplit, hstands⟩ := standsFor_of_mem_charged hp hw hb
  rw [StateInterval.cost, analyser.profile.energy_of_lt _ hlt,
    hstands.between_eq hw.ordered hsplit]
  rfl

/-- The active row holds the transfers of the bursts, each with the packets before its end. -/
theorem energy_active_report (hp : analyser.profile.validate = .ok ()) (hw : trace.WellFormed)
    (hfamily : analyser.profile.family ≠ .cellular3G) :
    (analyser.statistics trace).energy analyser.profile.family.activeState =
      analyser.profile.power analyser.profile.family.activeState *
          ((analyser.charged trace).bursts.map (·.duration)).sum +
        analyser.profile.byteEnergy analyser.profile.family.activeState
          (Burst.carriedInside trace.timeline (analyser.charged trace).bursts) := by
  have hb := inSequence_charged hp hw
  have hactive : analyser.profile.family.activeState.family = analyser.ladder.family :=
    (Radio.Family.family_activeState _).trans (Ladder.family_ofRadio analyser.profile.radio).symm
  have htransfers : (analyser.states trace).filter
      (·.state = analyser.profile.family.activeState) =
        ((analyser.charged trace).bursts.filter fun b => b.beginTime < b.endTime).map fun b =>
          ⟨b.beginTime, b.endTime, analyser.profile.family.activeState, false⟩ := by
    rw [states_eq_simulate]
    exact Radio.transfers_ofProfile hp hb (Ladder.picksActive_ofProfile hfamily)
  have hcosts := List.map_congr_left
    fun b (hmem : b ∈ (analyser.charged trace).bursts.filter fun b => b.beginTime < b.endTime) =>
      cost_transfer hp hw (List.mem_of_mem_filter hmem)
        (of_decide_eq_true (List.mem_filter.mp hmem).2) analyser.profile.family.activeState
  rw [statistics, Statistics.energy_reduce hactive, htransfers, List.map_map]
  refine (congrArg List.sum hcosts).trans ?_
  rw [List.sum_map_add, List.sum_map_mul_left, hb.sum_duration_filter, Profile.sum_map_byteEnergy]
  rfl

/-- On LTE and WiFi the energy of the active state is its steady power over the time of the bursts,
and an amount for each byte of those of their packets that come before the end of the burst. -/
theorem run_active_energy (hp : ofProfile profile = .ok analyser)
    (hfamily : profile.family ≠ .cellular3G) (hf : trace.family = profile.family)
    (hv : trace.validate = .ok ()) :
    ∃ report up down, analyser.run trace = .ok report ∧
      profile.radio.throughputPower? profile.family.activeState = some (up, down) ∧
      report.statistics.energy profile.family.activeState =
        profile.power profile.family.activeState *
            (report.bursts.bursts.map (·.duration)).sum +
          8 / 1000000 *
            (up * (Packet.bytesTowards .uplink
                (Burst.carriedInside trace.timeline report.bursts.bursts) : ℕ) +
              down * (Packet.bytesTowards .downlink
                (Burst.carriedInside trace.timeline report.bursts.bursts) : ℕ)) := by
  obtain ⟨hvalid, rfl⟩ := ofProfile_eq_ok_iff.mp hp
  obtain ⟨up, down, hweights⟩ := Profile.exists_throughputPower hfamily
  refine ⟨_, up, down, run_eq_report hf hv, hweights, ?_⟩
  have henergy := energy_active_report hvalid (Trace.wellFormed_of_validate hv) hfamily
  rw [Profile.byteEnergy, hweights] at henergy
  exact henergy

/-- A WiFi profile of one watt, and one more for each megabit per second of download. -/
def oneWatt : Profile Rat :=
  { (Profile.standard : Profile Rat) with
    radio := .wifi { (Profile.WifiRadio.standard : Profile.WifiRadio Rat) with
      powerActive := 1, alphaUp := 0, alphaDown := 1 } }

/-- A burst of two packets, a megabit each. -/
def twoMegabits : Trace Rat :=
  ⟨⟨[.data 0 .downlink 125000, .data 1 .downlink 125000]⟩, 1, .wifi, .empty⟩

/-- The law on a burst of two packets. -/
theorem run_active_energy_twoMegabits : ∃ report up down,
    (⟨oneWatt⟩ : Analyser Rat).run twoMegabits = .ok report ∧
      oneWatt.radio.throughputPower? .wifiActive = some (up, down) ∧
      report.statistics.energy .wifiActive =
        oneWatt.power .wifiActive * (report.bursts.bursts.map (·.duration)).sum +
          8 / 1000000 *
            (up * (Packet.bytesTowards .uplink
                (Burst.carriedInside twoMegabits.timeline report.bursts.bursts) : ℕ) +
              down * (Packet.bytesTowards .downlink
                (Burst.carriedInside twoMegabits.timeline report.bursts.bursts) : ℕ)) := by
  have hp : ofProfile oneWatt = .ok ⟨oneWatt⟩ :=
    ofProfile_eq_ok_iff.mpr ⟨by decide +kernel, rfl⟩
  have hv : twoMegabits.validate = .ok () := by decide +kernel
  exact run_active_energy hp (by decide) rfl hv

/-- The last packet of a burst is not charged for. -/
theorem exists_active_energy_lt : ¬ ∀ (profile : Profile Rat) (analyser : Analyser Rat)
    (trace : Trace Rat) (report : Report Rat) (up down : Rat), ofProfile profile = .ok analyser →
      profile.family ≠ .cellular3G → trace.family = profile.family → trace.validate = .ok () →
        analyser.run trace = .ok report →
          profile.radio.throughputPower? profile.family.activeState = some (up, down) →
            report.statistics.energy profile.family.activeState =
              profile.power profile.family.activeState *
                  (report.bursts.bursts.map (·.duration)).sum +
                8 / 1000000 *
                  (up * (Packet.bytesTowards .uplink
                      (Burst.carried trace.timeline report.bursts.bursts) : ℕ) +
                    down * (Packet.bytesTowards .downlink
                      (Burst.carried trace.timeline report.bursts.bursts) : ℕ)) := by
  intro h
  have hp : ofProfile oneWatt = .ok ⟨oneWatt⟩ :=
    ofProfile_eq_ok_iff.mpr ⟨by decide +kernel, rfl⟩
  have hv : twoMegabits.validate = .ok () := by decide +kernel
  have hall :=
    h oneWatt ⟨oneWatt⟩ twoMegabits _ 0 1 hp (by decide) rfl hv (run_eq_report rfl hv) rfl
  revert hall
  decide +kernel

end Exact
end Analyser
end BurstEnergy
