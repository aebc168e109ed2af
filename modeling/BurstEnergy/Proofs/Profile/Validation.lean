import Mathlib
import BurstEnergy.Error
import BurstEnergy.Profile
import BurstEnergy.Proofs.Scalar.Lawful
import BurstEnergy.Radio.Simulation

/-!
# Validated profiles

The fields of a section make up its record, and what their checks promise.
-/

/-! ## Fields make up a record

The fields of a section are told apart by their names, each writes its own entry and no other, and
together they are all there is to a record. So a record is known by its entries, and copying some
entries one way is copying the others the other way.
-/
namespace BurstEnergy.Profile
variable {ρ α : Type}

namespace Field
variable {f g : Field ρ α} {fields : List (Field ρ α)} {r s t source target : ρ}
  {chosen : String → Bool}

theorem Agrees.refl (f : Field ρ α) (r : ρ) : f.Agrees r r := by
  unfold Agrees
  split <;> rfl

theorem Agrees.symm (h : f.Agrees r s) : f.Agrees s r := by
  unfold Agrees at h ⊢
  split at h <;> exact h.symm

theorem Agrees.trans (h : f.Agrees r s) (h' : f.Agrees s t) : f.Agrees r t := by
  obtain ⟨name, access⟩ := f
  cases access <;> exact Eq.trans h h'

/-- Fields neither of which writes the entry of the other. -/
def Apart (f g : Field ρ α) : Prop :=
  ∀ source target, f.Agrees (g.copy source target) target ∧ g.Agrees (f.copy source target) target

/-- The fields of a section make up its record. -/
structure MakeUp (fields : List (Field ρ α)) : Prop where
  names : (fields.map (·.name)).Nodup
  copy : ∀ f ∈ fields, ∀ source target, f.Agrees (f.copy source target) source
  apart : fields.Pairwise Apart
  ext : ∀ r s, (∀ f ∈ fields, f.Agrees r s) → r = s

/-- Copy the entries with a chosen name from one record to another. -/
def copyChosen (chosen : String → Bool) (source target : ρ) : List (Field ρ α) → ρ
  | [] => target
  | f :: rest =>
    copyChosen chosen source (if chosen f.name then f.copy source target else target) rest

theorem agrees_copyChosen_of_apart (h : ∀ g ∈ fields, f.Apart g) :
    f.Agrees (copyChosen chosen source target fields) target := by
  induction fields generalizing target with
  | nil => exact .refl f target
  | cons g rest ih =>
    obtain ⟨hg, hrest⟩ := List.forall_mem_cons.mp h
    refine (ih hrest).trans ?_
    split
    · exact (hg source target).1
    · exact .refl f target

/-- Each entry is as in the one record or the other, as its name is chosen or not. -/
theorem agrees_copyChosen (hcopy : ∀ f ∈ fields, ∀ source target,
    f.Agrees (f.copy source target) source) (hapart : fields.Pairwise Apart) (hf : f ∈ fields) :
    f.Agrees (copyChosen chosen source target fields)
      (if chosen f.name then source else target) := by
  induction fields generalizing target with
  | nil => cases hf
  | cons g rest ih =>
    obtain ⟨hg, hrest⟩ := List.forall_mem_cons.mp hcopy
    obtain ⟨hgrest, hapart⟩ := List.pairwise_cons.mp hapart
    rcases List.mem_cons.mp hf with rfl | hf
    · refine (agrees_copyChosen_of_apart hgrest).trans ?_
      split
      · exact hg source target
      · exact .refl f target
    · refine (ih hrest hapart hf).trans ?_
      split
      · exact .refl f source
      · split
        · exact (hgrest f hf source target).2
        · exact .refl f target

namespace MakeUp

theorem agrees_copyChosen (h : MakeUp fields) (hf : f ∈ fields) :
    f.Agrees (copyChosen chosen source target fields) (if chosen f.name then source else target) :=
  Field.agrees_copyChosen h.copy h.apart hf

theorem copyChosen_not (h : MakeUp fields) (chosen : String → Bool) (r s : ρ) :
    copyChosen (fun name => !chosen name) r s fields = copyChosen chosen s r fields := by
  refine h.ext _ _ fun f hf => ?_
  have hback : f.Agrees (copyChosen chosen s r fields) (if chosen f.name then s else r) :=
    h.agrees_copyChosen hf
  refine (h.agrees_copyChosen hf).trans (.symm ?_)
  cases hname : chosen f.name <;> simpa [hname] using hback

theorem copyChosen_false (h : MakeUp fields) (r s : ρ) :
    copyChosen (fun _ => false) r s fields = s :=
  h.ext _ _ fun _ hf => h.agrees_copyChosen hf

end MakeUp
end Field

theorem Thresholds.makeUp : Field.MakeUp (fields : List (Field (Thresholds α) α)) where
  names := by simp [fields, Field.real, Field.count]
  copy := by simp [fields, Field.real, Field.count, Field.Agrees, Field.copy]
  apart := by simp [fields, Field.real, Field.count, Field.Apart, Field.Agrees, Field.copy]
  ext r s h := by
    cases r; cases s
    simpa [fields, Field.real, Field.count, Field.Agrees] using h

theorem UmtsRadio.makeUp : Field.MakeUp (fields : List (Field (UmtsRadio α) α)) where
  names := by simp [fields, Field.real]
  copy := by simp [fields, Field.real, Field.Agrees, Field.copy]
  apart := by simp [fields, Field.real, Field.Apart, Field.Agrees, Field.copy]
  ext r s h := by
    cases r; cases s
    simpa [fields, Field.real, Field.Agrees] using h

theorem LteRadio.makeUp : Field.MakeUp (fields : List (Field (LteRadio α) α)) where
  names := by simp [fields, Field.real]
  copy := by simp [fields, Field.real, Field.Agrees, Field.copy]
  apart := by simp [fields, Field.real, Field.Apart, Field.Agrees, Field.copy]
  ext r s h := by
    cases r; cases s
    simpa [fields, Field.real, Field.Agrees] using h

theorem WifiRadio.makeUp : Field.MakeUp (fields : List (Field (WifiRadio α) α)) where
  names := by simp [fields, Field.real]
  copy := by simp [fields, Field.real, Field.Agrees, Field.copy]
  apart := by simp [fields, Field.real, Field.Apart, Field.Agrees, Field.copy]
  ext r s h := by
    cases r; cases s
    simpa [fields, Field.real, Field.Agrees] using h

end BurstEnergy.Profile

/-! ## What a validated profile promises

A check passes exactly when every measured value of the section is finite and not below zero. For
the radio section this makes a ladder whose timers and promotion delays can be counted with.
-/
namespace BurstEnergy
open Scalar (IsAmount)
variable {α ρ : Type}

namespace Radio

/-- Every state a ladder names is of one family. -/
structure Ladder.Homogeneous (ladder : Ladder α) (family : Family) : Prop where
  active : ladder.active.family = family
  idle : ladder.idle.family = family
  rung : ∀ rung ∈ ladder.rungs, rung.state.family = family
  promotion : ∀ rung ∈ ladder.rungs, ∀ p, rung.promotion = some p → p.state.family = family
  idlePromotion : ∀ p, ladder.idlePromotion = some p → p.state.family = family

theorem Ladder.homogeneous_ofRadio (radio : Profile.RadioModel α) :
    (Ladder.ofRadio radio).Homogeneous radio.family := by
  cases radio <;> constructor <;> simp [ofRadio, State.family, Profile.RadioModel.family]

theorem Ladder.homogeneous_ofProfile (profile : Profile α) :
    (Ladder.ofProfile profile).Homogeneous profile.family := homogeneous_ofRadio profile.radio

end Radio

variable [Scalar α]

namespace Profile
namespace Field

theorem checkValue_eq_ok_iff {name : String} {value : α} :
    checkValue name value = (.ok () : Except (Error α) Unit) ↔ IsAmount value := by
  unfold checkValue IsAmount
  split
  · next h => simp [h]
  · next h =>
    split
    · next h' => simp [h']
    · next h' => simp [h, h']

theorem check_real_eq_ok_iff {name : String} {get : ρ → α} {set : α → ρ → ρ} {record : ρ} :
    (Field.real name get set).check record = .ok () ↔ IsAmount (get record) :=
  checkValue_eq_ok_iff

/-- The fields of a record are checked one by one, and all of them have to pass. -/
theorem checkAll_eq_ok_iff {fields : List (Field ρ α)} {record : ρ} :
    checkAll fields record = .ok () ↔ ∀ f ∈ fields, f.check record = .ok () := by
  induction fields with
  | nil => exact ⟨fun _ _ hf => absurd hf List.not_mem_nil, fun _ => rfl⟩
  | cons f rest ih =>
    rw [List.forall_mem_cons, ← ih]
    exact check_bind_eq_ok_iff

end Field

theorem validate_eq_ok_iff {profile : Profile α} :
    profile.validate = .ok () ↔
      profile.thresholds.validate = .ok () ∧ profile.radio.validate = .ok () :=
  check_bind_eq_ok_iff

/-- Thresholds that can be counted with: no measured value is below zero, and neither the samples
of a cycle nor the bursts of a cluster can be none. -/
structure Thresholds.Usable (t : Thresholds α) : Prop where
  burstGap : IsAmount t.burstGap
  longBurstDuration : IsAmount t.longBurstDuration
  periodMinCycle : IsAmount t.periodMinCycle
  periodCycleTolerance : IsAmount t.periodCycleTolerance
  userInputWindow : IsAmount t.userInputWindow
  screenRotationWindow : IsAmount t.screenRotationWindow
  tcpClusterWindow : IsAmount t.tcpClusterWindow
  periodMinSamples : 0 < t.periodMinSamples
  tcpClusterSize : 0 < t.tcpClusterSize

theorem Thresholds.validate_eq_ok_iff {t : Thresholds α} : t.validate = .ok () ↔
    (∀ f ∈ fields, f.check t = .ok ()) ∧ t.periodMinSamples ≠ 0 ∧ t.tcpClusterSize ≠ 0 ∧
      ¬ Scalar.Agree t.tcpClusterWindow 0 := by
  refine check_bind_eq_ok_iff.trans (and_congr Field.checkAll_eq_ok_iff ?_)
  by_cases hsamples : t.periodMinSamples = 0
  · simp [hsamples]
  · by_cases hsize : t.tcpClusterSize = 0 <;> simp [hsamples, hsize]

theorem Thresholds.usable_of_validate {t : Thresholds α} (h : t.validate = .ok ()) : t.Usable := by
  obtain ⟨hreal, hsamples, hsize, -⟩ := validate_eq_ok_iff.mp h
  simp only [fields, List.forall_mem_cons, Field.check_real_eq_ok_iff] at hreal
  obtain ⟨hgap, hlong, -, hcycle, htolerance, -, hinput, hrotation, hcluster, -⟩ := hreal
  exact ⟨hgap, hlong, hcycle, htolerance, hinput, hrotation, hcluster,
    Nat.pos_of_ne_zero hsamples, Nat.pos_of_ne_zero hsize⟩

theorem Thresholds.isAmount_burstGap {t : Thresholds α} (h : t.validate = .ok ()) :
    IsAmount t.burstGap :=
  (usable_of_validate h).burstGap

end Profile

namespace Radio

/-- A promotion whose delay can be counted with, if there is one. -/
def UsablePromotion (promotion : Option (Promotion α)) : Prop :=
  ∀ p, promotion = some p → IsAmount p.delay

/-- Timers and delays are finite and not below zero. -/
structure Ladder.Usable (ladder : Ladder α) : Prop where
  timer : ∀ rung ∈ ladder.rungs, IsAmount rung.timer
  promotion : ∀ rung ∈ ladder.rungs, UsablePromotion rung.promotion
  idlePromotion : UsablePromotion ladder.idlePromotion

open Profile in
theorem Ladder.usable_ofRadio {radio : Profile.RadioModel α} (h : radio.validate = .ok ()) :
    (Ladder.ofRadio radio).Usable := by
  cases radio with
  | umts r =>
    have hr := Field.checkAll_eq_ok_iff.mp h
    simp only [UmtsRadio.fields, List.forall_mem_cons, Field.check_real_eq_ok_iff] at hr
    obtain ⟨hdch, hfach, hidleUp, hfachUp, -⟩ := hr
    constructor <;> simp [ofRadio, UsablePromotion, *]
  | lte r =>
    have hr := Field.checkAll_eq_ok_iff.mp h
    simp only [LteRadio.fields, List.forall_mem_cons, Field.check_real_eq_ok_iff] at hr
    obtain ⟨hcr, hshort, hlong, hup, -⟩ := hr
    constructor <;> simp [ofRadio, UsablePromotion, *]
  | wifi r =>
    have hr := Field.checkAll_eq_ok_iff.mp h
    simp only [WifiRadio.fields, List.forall_mem_cons, Field.check_real_eq_ok_iff] at hr
    obtain ⟨htail, -⟩ := hr
    constructor <;> simp [ofRadio, UsablePromotion, *]

theorem Ladder.usable_ofProfile {profile : Profile α} (h : profile.validate = .ok ()) :
    (Ladder.ofProfile profile).Usable :=
  usable_ofRadio (Profile.validate_eq_ok_iff.mp h).2

end Radio
end BurstEnergy
