import BurstEnergy.Burst.Collection
import BurstEnergy.Proofs.Radio.Rows
import BurstEnergy.Proofs.Scalar.Binary64Share

/-!
# What the figures behind the verdicts say

Both passes for a greatest figure compare strictly, so of equal figures the first one stays. One
starts from the first burst, the other from a figure of zero that only a burst above zero takes the
place of. The energy of connection control is a sum over part of the bursts, so it is no more than
the energy of all bursts, rounded or not, and their quotient is a share.
-/
namespace BurstEnergy
open Scalar (Agree IsAmount Lawful)

namespace Burst
variable {α : Type} [Scalar α] {figure : Burst α → α} {bursts : List (Burst α)} {b c : Burst α}

/-- No burst of the list has a greater figure than this one, and those before it do not reach its
figure. -/
structure IsFirstGreatest (figure : Burst α → α) (bursts : List (Burst α)) (b : Burst α) :
    Prop where
  greatest : ∀ c ∈ bursts, ¬ figure b < figure c
  first : ∃ before after, bursts = before ++ b :: after ∧ ∀ c ∈ before, ¬ figure b ≤ figure c

namespace IsFirstGreatest

/-- A burst that follows all others does not take the place without a greater figure. -/
theorem concat (h : IsFirstGreatest figure bursts b) (hc : ¬ figure b < figure c) :
    IsFirstGreatest figure (bursts ++ [c]) b where
  greatest := List.forall_mem_append.mpr ⟨h.greatest, List.forall_mem_singleton.mpr hc⟩
  first := by
    obtain ⟨before, after, rfl, hbefore⟩ := h.first
    exact ⟨before, after ++ [c], List.append_assoc .., hbefore⟩

variable [Lawful α]

theorem head (h : ∀ c ∈ bursts, ¬ figure b < figure c) :
    IsFirstGreatest figure (b :: bursts) b where
  greatest := List.forall_mem_cons.mpr ⟨Scalar.not_lt_self _, h⟩
  first := ⟨[], bursts, rfl, nofun⟩

theorem cons (h : IsFirstGreatest figure bursts b) (hlt : figure c < figure b) :
    IsFirstGreatest figure (c :: bursts) b where
  greatest := List.forall_mem_cons.mpr ⟨Scalar.not_lt_of_le (Scalar.le_of_lt hlt), h.greatest⟩
  first := by
    obtain ⟨before, after, rfl, hbefore⟩ := h.first
    exact ⟨c :: before, after, rfl,
      List.forall_mem_cons.mpr ⟨Scalar.not_le_of_lt hlt, hbefore⟩⟩

/-- A burst that follows all others takes the place if its figure is above a bound that none of the
others is above. -/
theorem last {bound : α} (hnone : ∀ c ∈ bursts, ¬ bound < figure c) (hb : bound < figure b) :
    IsFirstGreatest figure (bursts ++ [b]) b where
  greatest := by
    refine List.forall_mem_append.mpr
      ⟨fun c hc hlt => ?_, List.forall_mem_singleton.mpr (Scalar.not_lt_self _)⟩
    exact hnone c hc (Scalar.lt_of_lt_of_le hb (Scalar.le_of_lt hlt))
  first := ⟨bursts, [], rfl, fun c hc hle => hnone c hc (Scalar.lt_of_lt_of_le hb hle)⟩

end IsFirstGreatest
end Burst

namespace Practices
open Burst (IsFirstGreatest inCategory)
variable {α : Type} [Scalar α]

/-- The figures behind the verdicts are right for a collection. -/
structure Faithful (p : Practices α) (c : Collection α) : Prop where
  /-- The longest burst is the first one of greatest duration. -/
  largestBurstTime : (c.bursts = [] ∧ p.largestBurstTime = 0) ∨
    ∃ b, IsFirstGreatest (·.duration) c.bursts b ∧ p.largestBurstTime = b.beginTime
  /-- The costliest burst of connection control is the first one of greatest energy, if that is
  above zero. -/
  largestTcpEnergyTime :
    ((∀ b ∈ inCategory .tcpProtocolOnly c.bursts, ¬ 0 < b.energy) ∧
      p.largestTcpEnergyTime = 0) ∨
    ∃ b, IsFirstGreatest (·.energy) (inCategory .tcpProtocolOnly c.bursts) b ∧ 0 < b.energy ∧
      p.largestTcpEnergyTime = b.beginTime
  tcpControlEnergy : Agree p.tcpControlEnergy (c.energyOf .tcpProtocolOnly)
  tcpControlEnergy_le : p.tcpControlEnergy ≤ c.totalEnergy
  /-- The share of connection control is between none and all of the energy. -/
  tcpControlEnergyRatio : p.tcpControlEnergyRatio = Scalar.share p.tcpControlEnergy c.totalEnergy ∧
    0 ≤ p.tcpControlEnergyRatio ∧ p.tcpControlEnergyRatio ≤ 1.0
  /-- Every burst has one category. -/
  counts : (c.summary.map (·.count)).sum = c.bursts.length
  longBurstCount : c.longBurstCount = c.count .longBurst

section Greatest
variable [Lawful α] (figure : Burst α → α) (bursts : List (Burst α))

/-- A pass over bursts ends with the champion it started from, if none has a greater figure, or else
with the first burst of greatest figure. -/
theorem foldl_meet (champion : Champion α) :
    (bursts.foldl (fun champion b => champion.meet ⟨figure b, b.beginTime⟩) champion = champion ∧
      ∀ b ∈ bursts, ¬ champion.figure < figure b) ∨
    ∃ b, bursts.foldl (fun champion b => champion.meet ⟨figure b, b.beginTime⟩) champion =
        ⟨figure b, b.beginTime⟩ ∧
      IsFirstGreatest figure bursts b ∧ champion.figure < figure b := by
  induction bursts using List.reverseRecOn with
  | nil => exact .inl ⟨rfl, nofun⟩
  | append_singleton bursts c ih =>
    rw [List.foldl_append, List.foldl_cons, List.foldl_nil]
    rcases ih with ⟨hfold, hnone⟩ | ⟨b, hfold, hb, hgreater⟩
    · rw [hfold, Champion.meet]
      split
      · next hlt => exact .inr ⟨c, rfl, .last hnone hlt, hlt⟩
      · next hc =>
        exact .inl ⟨rfl,
          List.forall_mem_append.mpr ⟨hnone, List.forall_mem_singleton.mpr hc⟩⟩
    · rw [hfold, Champion.meet]
      split
      · next hlt =>
        exact .inr ⟨c, rfl, .last hb.greatest hlt,
          Scalar.lt_of_lt_of_le hgreater (Scalar.le_of_lt hlt)⟩
      · next hc => exact .inr ⟨b, rfl, hb.concat hc, hgreater⟩

theorem longest?_eq_some (h : bursts ≠ []) :
    ∃ b, longest? bursts = some ⟨b.duration, b.beginTime⟩ ∧
      IsFirstGreatest (·.duration) bursts b := by
  obtain ⟨burst, rest, rfl⟩ := List.exists_cons_of_ne_nil h
  rcases foldl_meet (·.duration) rest ⟨burst.duration, burst.beginTime⟩ with
    ⟨hfold, hnone⟩ | ⟨b, hfold, hb, hgreater⟩
  · exact ⟨burst, congrArg some hfold, .head hnone⟩
  · exact ⟨b, congrArg some hfold, hb.cons hgreater⟩

end Greatest

section Times
variable [Lawful α] (c : Collection α)

theorem largestBurstTime_evaluate : (c.bursts = [] ∧ (evaluate c).largestBurstTime = 0) ∨
    ∃ b, IsFirstGreatest (·.duration) c.bursts b ∧
      (evaluate c).largestBurstTime = b.beginTime := by
  rcases eq_or_ne c.bursts [] with hempty | hsome
  · refine .inl ⟨hempty, ?_⟩
    simp only [evaluate, hempty]
    rfl
  · obtain ⟨b, hlongest, hb⟩ := longest?_eq_some c.bursts hsome
    refine .inr ⟨b, hb, ?_⟩
    simp only [evaluate, hlongest]
    rfl

theorem largestTcpEnergyTime_evaluate :
    ((∀ b ∈ inCategory .tcpProtocolOnly c.bursts, ¬ 0 < b.energy) ∧
      (evaluate c).largestTcpEnergyTime = 0) ∨
    ∃ b, IsFirstGreatest (·.energy) (inCategory .tcpProtocolOnly c.bursts) b ∧ 0 < b.energy ∧
      (evaluate c).largestTcpEnergyTime = b.beginTime := by
  rcases foldl_meet (·.energy) (inCategory .tcpProtocolOnly c.bursts) ⟨0, 0⟩ with
    ⟨hfold, hnone⟩ | ⟨b, hfold, hb, hpos⟩
  · exact .inl ⟨hnone, congrArg (·.beginTime) hfold⟩
  · exact .inr ⟨b, hb, hpos, congrArg (·.beginTime) hfold⟩

end Times

/-- A summary counts every burst in the line of its category. -/
theorem sum_count_summary (c : Collection α) :
    (c.summary.map (·.count)).sum = c.bursts.length := by
  have hgroups := Radio.sum_groups Category.all_nodup (fun b : Burst α => b.category)
    (fun _ => 1) c.bursts
  simp only [Category.mem_all, decide_true, List.filter_true, List.map_const', List.sum_replicate,
    smul_eq_mul, mul_one] at hgroups
  rw [Collection.summary, List.map_map]
  exact hgroups

/-- The figures of an assembled collection are right, whatever was classified. -/
theorem evaluate_assemble_faithful [Lawful α] [Scalar.Additive α] [Scalar.Proportional α]
    (t : Profile.Thresholds α) (classified : Classification.Result α)
    (henergy : ∀ b ∈ classified.bursts, IsAmount b.energy)
    (htotal : Scalar.isFinite (Collection.assemble t classified).totalEnergy = true) :
    (evaluate (Collection.assemble t classified)).Faithful (.assemble t classified) := by
  set control := inCategory .tcpProtocolOnly classified.bursts with hcontrol
  have hamounts : ∀ e ∈ classified.bursts.map (·.energy), IsAmount e :=
    List.forall_mem_map.mpr henergy
  have hpart : (control.map (·.energy)).Sublist (classified.bursts.map (·.energy)) :=
    List.filter_sublist.map _
  have hcontrolAmounts : ∀ e ∈ control.map (·.energy), IsAmount e :=
    fun e he => hamounts e (hpart.subset he)
  have hle : Scalar.tally (control.map (·.energy)) ≤ Collection.energyOfAll classified.bursts :=
    Scalar.tally_le_sum hpart hamounts
  exact
    { largestBurstTime := largestBurstTime_evaluate _
      largestTcpEnergyTime := largestTcpEnergyTime_evaluate _
      tcpControlEnergy := Scalar.agree_tally_sum hcontrolAmounts
      tcpControlEnergy_le := hle
      tcpControlEnergyRatio :=
        ⟨rfl, Scalar.share_bounds (Scalar.tally_nonneg hcontrolAmounts) hle htotal⟩
      counts := sum_count_summary _
      longBurstCount := rfl }

/-- Of three control bursts the last two drew the same, and the last one is as long as the long
burst. -/
def tiedControl : Classification.Result Float where
  bursts :=
    [⟨0.5, 1, .tcpProtocolOnly, 0.1, ⟨0, 1⟩, 0⟩, ⟨5, 12, .longBurst, 0.6, ⟨1, 2⟩, 100⟩,
      ⟨20, 20.5, .tcpProtocolOnly, 0.3, ⟨2, 3⟩, 0⟩, ⟨30, 37, .tcpProtocolOnly, 0.3, ⟨3, 4⟩, 0⟩]
  periodicity := ⟨[none, none, none, none], 0⟩
  history := .start

/-- Of the bursts that tie, the first one of each kind stays. -/
theorem evaluate_assemble_faithful_tied :
    (∀ b ∈ tiedControl.bursts, IsAmount b.energy) ∧
    (evaluate (Collection.assemble .standard tiedControl)).Faithful
      (.assemble .standard tiedControl) ∧
    (evaluate (Collection.assemble .standard tiedControl)).largestTcpEnergyTime = 20 ∧
    (evaluate (Collection.assemble .standard tiedControl)).largestBurstTime = 5 := by
  have henergy : ∀ b ∈ tiedControl.bursts, IsAmount b.energy := by
    unfold IsAmount
    decide +kernel
  exact ⟨henergy, evaluate_assemble_faithful .standard tiedControl henergy (by decide +kernel),
    by decide +kernel, by decide +kernel⟩

end Practices
end BurstEnergy
