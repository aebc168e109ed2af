import BurstEnergy.Profile
import BurstEnergy.Proofs.Profile.Validation
import BurstEnergy.Proofs.Traffic.Timeline

/-!
# Energy is additive over time

In exact arithmetic the energy of a span is its steady power times its length, plus an amount for
every byte it carries. The length of the span cancels out of the throughput, so a span split in two
costs what its parts cost, wherever it is split. For a validated profile no span costs less than
nothing.
-/
namespace BurstEnergy
open Radio (State)
open Traffic (Packet Timeline)

/-- An energy model that charges nothing for spans without length, and the same for a span of a
timeline as for its two parts. -/
structure EnergyModel.Additive (model : EnergyModel Rat) (timeline : Timeline Rat) : Prop where
  empty {start stop : Rat} (h : stop ≤ start) (state : State) (packets : List (Packet Rat)) :
    model start stop state packets = 0
  split {start mid stop : Rat} (hs : start ≤ mid) (hm : mid ≤ stop) (state : State) :
    model start stop state (timeline.between start stop) =
      model start mid state (timeline.between start mid) +
        model mid stop state (timeline.between mid stop)

namespace Profile
variable (profile : Profile Rat) (state : State)

/-- What the bytes of a span cost, whatever its length. -/
def byteEnergy (packets : List (Packet Rat)) : Rat :=
  match profile.radio.throughputPower? state with
  | some (up, down) =>
    8 / 1000000 * (up * (Packet.bytesTowards .uplink packets : ℕ)
      + down * (Packet.bytesTowards .downlink packets : ℕ))
  | none => 0

theorem bytesTowards_append (direction : Traffic.Direction) (front back : List (Packet Rat)) :
    Packet.bytesTowards direction (front ++ back) =
      Packet.bytesTowards direction front + Packet.bytesTowards direction back := by
  simp [Packet.bytesTowards]

theorem byteEnergy_append (front back : List (Packet Rat)) :
    profile.byteEnergy state (front ++ back) =
      profile.byteEnergy state front + profile.byteEnergy state back := by
  unfold byteEnergy
  split
  · simp only [bytesTowards_append, Nat.cast_add]
    ring
  · ring

theorem energy_of_le {start stop : Rat} (h : stop ≤ start) (packets : List (Packet Rat)) :
    profile.energy start stop state packets = 0 :=
  profile.energy_of_no_length (sub_nonpos.mpr h) state packets

theorem megabitRate_mul (bytes : ℕ) {seconds : Rat} (h : 0 < seconds) :
    megabitRate bytes seconds * seconds = 8 / 1000000 * bytes := by
  have hne : seconds ≠ 0 := ne_of_gt h
  have hbits : (8.0 : Rat) = 8 := by decide +kernel
  have hmega : (1000000.0 : Rat) = 1000000 := by decide +kernel
  have hform : megabitRate bytes seconds = (bytes : Rat) * 8 / 1000000 / seconds := by
    rw [← hbits, ← hmega]
    rfl
  rw [hform, div_mul_cancel₀ _ hne]
  ring

/-- The length cancels out of the throughput. -/
theorem energy_of_lt {start stop : Rat} (h : start < stop) (packets : List (Packet Rat)) :
    profile.energy start stop state packets =
      profile.power state * (stop - start) + profile.byteEnergy state packets := by
  have hpos : 0 < stop - start := sub_pos.mpr h
  have henergy : profile.energy start stop state packets =
      profile.loadedPower state packets (stop - start) * (stop - start) :=
    if_neg (not_le.mpr hpos)
  have hrate (direction : Traffic.Direction) :=
    megabitRate_mul (Packet.bytesTowards direction packets) hpos
  rw [henergy]
  unfold loadedPower byteEnergy
  cases profile.radio.throughputPower? state with
  | none => exact (add_zero _).symm
  | some weights =>
    obtain ⟨up, down⟩ := weights
    show (profile.power state + (up * _ + down * _)) * (stop - start) = _
    linear_combination up * hrate .uplink + down * hrate .downlink

/-- The energy of a profile is additive on every timeline in order. -/
theorem energy_additive {timeline : Timeline Rat} (h : timeline.Ordered) :
    profile.energy.Additive timeline where
  empty h state packets := profile.energy_of_le state h packets
  split {start mid stop} hs hm state := by
    rcases eq_or_lt_of_le hs with rfl | hs'
    · rw [energy_of_le profile state le_rfl, zero_add]
    rcases eq_or_lt_of_le hm with rfl | hm'
    · rw [energy_of_le profile state le_rfl (timeline.between mid mid), add_zero]
    rw [energy_of_lt profile state (hs'.trans hm'), energy_of_lt profile state hs',
      energy_of_lt profile state hm', h.between_append hs hm, byteEnergy_append]
    ring

section Nonneg
variable {profile}

theorem RadioModel.power_nonneg {radio : RadioModel Rat} (h : radio.validate = .ok ())
    (state : State) : 0 ≤ radio.power state := by
  cases radio with
  | umts r =>
    have hr := Field.checkAll_eq_ok_iff.mp h
    simp only [UmtsRadio.fields, List.forall_mem_cons, Field.check_real_eq_ok_iff] at hr
    obtain ⟨-, -, -, -, hdch, hfach, hidle, hup, hfachUp, -⟩ := hr
    cases state <;> simp [power, hdch.nonneg, hfach.nonneg, hidle.nonneg, hup.nonneg,
      hfachUp.nonneg]
  | lte r =>
    have hr := Field.checkAll_eq_ok_iff.mp h
    simp only [LteRadio.fields, List.forall_mem_cons, Field.check_real_eq_ok_iff] at hr
    obtain ⟨-, -, -, -, hup, hcr, -, -, htail, hshort, hlong, hidle, -⟩ := hr
    cases state <;> simp [power, hup.nonneg, hcr.nonneg, htail.nonneg, hshort.nonneg,
      hlong.nonneg, hidle.nonneg]
  | wifi r =>
    have hr := Field.checkAll_eq_ok_iff.mp h
    simp only [WifiRadio.fields, List.forall_mem_cons, Field.check_real_eq_ok_iff] at hr
    obtain ⟨-, hactive, -, -, htail, hidle, -⟩ := hr
    cases state <;> simp [power, hactive.nonneg, htail.nonneg, hidle.nonneg]

theorem RadioModel.throughputPower_nonneg {radio : RadioModel Rat} (h : radio.validate = .ok ())
    {up down : Rat} (hs : radio.throughputPower? state = some (up, down)) : 0 ≤ up ∧ 0 ≤ down := by
  cases radio with
  | umts r => cases state <;> cases hs
  | lte r =>
    have hr := Field.checkAll_eq_ok_iff.mp h
    simp only [LteRadio.fields, List.forall_mem_cons, Field.check_real_eq_ok_iff] at hr
    obtain ⟨-, -, -, -, -, -, hup, hdown, -⟩ := hr
    cases state <;> cases hs
    exact ⟨hup.nonneg, hdown.nonneg⟩
  | wifi r =>
    have hr := Field.checkAll_eq_ok_iff.mp h
    simp only [WifiRadio.fields, List.forall_mem_cons, Field.check_real_eq_ok_iff] at hr
    obtain ⟨-, -, hup, hdown, -⟩ := hr
    cases state <;> cases hs
    exact ⟨hup.nonneg, hdown.nonneg⟩

theorem byteEnergy_nonneg (h : profile.validate = .ok ()) (packets : List (Packet Rat)) :
    0 ≤ profile.byteEnergy state packets := by
  have hr := (validate_eq_ok_iff.mp h).2
  unfold byteEnergy
  split
  · next up down hs =>
    obtain ⟨hup, hdown⟩ := RadioModel.throughputPower_nonneg state hr hs
    positivity
  · exact le_rfl

theorem energy_nonneg (h : profile.validate = .ok ()) (start stop : Rat)
    (packets : List (Packet Rat)) : 0 ≤ profile.energy start stop state packets := by
  rcases le_or_gt stop start with hle | hlt
  · exact (profile.energy_of_le state hle packets).ge
  · rw [profile.energy_of_lt state hlt]
    have hpower : 0 ≤ profile.power state :=
      RadioModel.power_nonneg (validate_eq_ok_iff.mp h).2 state
    have hlength : 0 ≤ stop - start := sub_nonneg.mpr hlt.le
    exact add_nonneg (mul_nonneg hpower hlength) (byteEnergy_nonneg state h packets)

end Nonneg
end Profile
end BurstEnergy
