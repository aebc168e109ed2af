import Mathlib
import BurstEnergy.Proofs.Radio.Rows
import BurstEnergy.Proofs.Radio.Tiling
import BurstEnergy.Proofs.Radio.Waking

/-!
# How long transfers and promotions take

A burst arrives at a position: on a rung of the way down or in idle, and since when. From these
arrivals alone one can tell what the statistics say about waking up: each arrival spends on its
promotion the end of the time since, up to the delay. Transfers are reported as they are, and
joining promotions does not change the time they take together, so the times add up to those of the
rows.
-/
namespace BurstEnergy.Radio
open StateInterval (joined joins_joined withMode)

theorem StateInterval.Joins.sum_duration {planned reported : List (StateInterval Rat)}
    (hj : Joins planned reported) (h : ∀ i ∈ planned, i.start ≤ i.stop) :
    (reported.map (·.duration)).sum = (planned.map (·.duration)).sum := by
  induction hj with
  | nil => rfl
  | @empty i planned reported hempty hrest ih =>
    obtain ⟨hle, hlater⟩ := List.forall_mem_cons.mp h
    have hnone : i.duration = 0 := sub_eq_zero.mpr (le_antisymm hempty hle)
    rw [List.map_cons, List.sum_cons, hnone, zero_add, ih hlater]
  | apart htime hnext hrest ih =>
    rw [List.map_cons, List.sum_cons, List.map_cons, List.sum_cons,
      ih (List.forall_mem_cons.mp h).2]
  | @merged i j planned reported htime hnext hrest ih =>
    have hmeet : i.stop = j.start := Scalar.agree_iff_eq.mp hnext.2.2
    have hsum := ih (List.forall_mem_cons.mp h).2
    rw [List.map_cons, List.sum_cons] at hsum
    rw [List.map_cons, List.sum_cons, List.map_cons, List.sum_cons, ← hsum]
    simp only [StateInterval.duration, hmeet]
    ring

/-- A burst as it arrives: when it begins, and where it finds the radio. -/
structure Arrival where
  beginTime : Rat
  position : Position Rat

namespace Ladder

def arrivalsAfter (ladder : Ladder Rat) (released : Rat) : List (Burst Rat) → List Arrival
  | [] => []
  | burst :: rest =>
    ⟨burst.beginTime, ladder.position released burst.beginTime⟩
      :: ladder.arrivalsAfter burst.endTime rest

/-- The arrivals of the bursts of a trace, of which the first finds the radio idle since zero. -/
def arrivals (ladder : Ladder Rat) : List (Burst Rat) → List Arrival
  | [] => []
  | burst :: rest => ⟨burst.beginTime, .idle 0⟩ :: ladder.arrivalsAfter burst.endTime rest

/-- The time that an arrival spends on its promotion, of which no more fits than it spent in its
position. -/
def promotionSecondsAt (ladder : Ladder Rat) (arrival : Arrival) : Rat :=
  match ladder.promotionAt arrival.position with
  | some p => arrival.beginTime - max (arrival.beginTime - p.delay) arrival.position.since
  | none => 0

section Arrivals
variable {ladder : Ladder Rat} {released duration : Rat} {bursts : List (Burst Rat)}

theorem map_beginTime_arrivals :
    (ladder.arrivals bursts).map (·.beginTime) = bursts.map (·.beginTime) := by
  have hafter (released : Rat) (bursts : List (Burst Rat)) :
      (ladder.arrivalsAfter released bursts).map (·.beginTime) = bursts.map (·.beginTime) := by
    induction bursts generalizing released with
    | nil => rfl
    | cons burst rest ih => rw [arrivalsAfter, List.map_cons, List.map_cons, ih]
  cases bursts with
  | nil => rfl
  | cons burst rest => rw [arrivals, List.map_cons, List.map_cons, hafter]

/-- What wakes the radio for a burst depends on its arrival only. -/
theorem wakings_eq_map_arrivals :
    ladder.wakings bursts =
      (ladder.arrivals bursts).map fun a => ladder.wakingAt a.position a.beginTime := by
  have hafter (released : Rat) (bursts : List (Burst Rat)) :
      ladder.wakingsAfter released bursts =
        (ladder.arrivalsAfter released bursts).map fun a =>
          ladder.wakingAt a.position a.beginTime := by
    induction bursts generalizing released with
    | nil => rfl
    | cons burst rest ih => rw [wakingsAfter, arrivalsAfter, ih, List.map_cons]
  cases bursts with
  | nil => rfl
  | cons burst rest => rw [wakings, arrivals, hafter, List.map_cons]

theorem since_position_le (hl : ladder.Usable) (h0 : 0 ≤ released) {time : Rat}
    (h : released ≤ time) : (ladder.position released time).since ≤ time := by
  rcases ladder.position_spec released time with ⟨k, rung, -, hpos, -, hpast⟩ | ⟨hpos, hpast⟩
  · rw [hpos]
    exact deadline_le_of_passed hl.timer h0 h hpast
  · rw [hpos]
    exact deadline_le_of_passed hl.timer h0 h hpast

theorem since_le_of_mem_arrivalsAfter (hl : ladder.Usable) (h0 : 0 ≤ released)
    (h : Burst.Follow duration released bursts) {a : Arrival}
    (ha : a ∈ ladder.arrivalsAfter released bursts) : a.position.since ≤ a.beginTime := by
  induction bursts generalizing released with
  | nil => exact absurd ha List.not_mem_nil
  | cons burst rest ih =>
    obtain ⟨hlt, hle, hrest⟩ := h
    rcases List.mem_cons.mp ha with rfl | ha
    · exact since_position_le hl h0 hlt.le
    · exact ih (h0.trans (hlt.le.trans hle)) hrest ha

theorem since_le_of_mem_arrivals (hl : ladder.Usable) (h : Burst.InSequence duration bursts)
    {a : Arrival} (ha : a ∈ ladder.arrivals bursts) : a.position.since ≤ a.beginTime := by
  cases bursts with
  | nil => exact absurd ha List.not_mem_nil
  | cons burst rest =>
    obtain ⟨h0, hle, hrest⟩ := h
    rcases List.mem_cons.mp ha with rfl | ha
    · exact h0
    · exact since_le_of_mem_arrivalsAfter hl (h0.trans hle) hrest ha

/-- The promotion planned for an arrival takes the time that it spends on it. -/
theorem sum_duration_paid (hl : ladder.Usable) {a : Arrival}
    (h : a.position.since ≤ a.beginTime) :
    ((ladder.wakingAt a.position a.beginTime).paid.toList.map (·.duration)).sum =
      ladder.promotionSecondsAt a := by
  unfold wakingAt promotionSecondsAt
  cases hp : ladder.promotionAt a.position with
  | none => rfl
  | some p =>
    have hdelay : 0 ≤ p.delay := (hl.promotionAt a.position p hp).nonneg
    have hstart : max (a.beginTime - p.delay) a.position.since ≤ a.beginTime :=
      max_le (sub_le_self _ hdelay) h
    rw [Option.bind_some, Promotion.paid]
    dsimp only
    split
    · simp [StateInterval.duration]
    · next hge =>
      rw [le_antisymm hstart (not_lt.mp hge), sub_self]
      rfl

/-- The reported promotions are those that the wakings pay, joined. -/
theorem promotions_simulate (hl : ladder.Usable) (ha : ladder.PromotionsApart)
    (h : Burst.InSequence duration bursts) :
    (ladder.simulate bursts duration).filter (·.state.isPromotion) =
      joined ((ladder.wakings bursts).filterMap (·.paid)) := by
  have hplan : withMode (·.1.isPromotion) (ladder.schedule duration bursts) =
      withMode (·.1.isPromotion) (ladder.plan duration bursts) := by
    cases bursts with
    | nil => exact StateInterval.withMode_cons_of_neg ha.idle
    | cons burst rest => rfl
  have hlength : ∀ i ∈ withMode (·.1.isPromotion) (ladder.plan duration bursts),
      decide (i.start < i.stop) = false → i.stop ≤ i.start :=
    fun i _ hempty => not_lt.mp (of_decide_eq_false hempty)
  have hreported : withMode (·.1.isPromotion) (ladder.simulate bursts duration) =
      joined (withMode (·.1.isPromotion) (ladder.schedule duration bursts)) :=
    withMode_simulate hl h ha.idle
  calc (ladder.simulate bursts duration).filter (·.state.isPromotion)
      = joined (withMode (·.1.isPromotion) (ladder.plan duration bursts)) := by
        rw [← hplan, ← hreported]
        rfl
    _ = joined (promotionsIn (ladder.plan duration bursts)) := by
        rw [← StateInterval.joined_filter hlength, withMode, List.filter_filter, promotionsIn]
        simp only [StateInterval.mode, Bool.and_comm]
    _ = joined ((ladder.wakings bursts).filterMap (·.paid)) := by rw [promotionsIn_plan hl ha h]

/-- The reported promotions take the time that the arrivals spend on them. -/
theorem sum_duration_promotions (hl : ladder.Usable) (ha : ladder.PromotionsApart)
    (h : Burst.InSequence duration bursts) :
    (((ladder.simulate bursts duration).filter (·.state.isPromotion)).map (·.duration)).sum =
      ((ladder.arrivals bursts).map ladder.promotionSecondsAt).sum := by
  have hle : ∀ i ∈ (ladder.wakings bursts).filterMap (·.paid), i.start ≤ i.stop := by
    rw [← promotionsIn_plan hl ha h]
    intro i hi
    have hi' := (List.mem_filter.mp hi).2
    simp only [Bool.and_eq_true, decide_eq_true_eq] at hi'
    exact hi'.2.le
  have hsum (arrivals : List Arrival) (hs : ∀ a ∈ arrivals, a.position.since ≤ a.beginTime) :
      (((arrivals.map fun a => ladder.wakingAt a.position a.beginTime).filterMap
        (·.paid)).map (·.duration)).sum = (arrivals.map ladder.promotionSecondsAt).sum := by
    induction arrivals with
    | nil => rfl
    | cons a rest ih =>
      obtain ⟨ha', hrest⟩ := List.forall_mem_cons.mp hs
      rw [List.map_cons, List.map_cons, List.sum_cons, ← sum_duration_paid hl ha', ← ih hrest,
        List.filterMap_cons]
      cases (ladder.wakingAt a.position a.beginTime).paid <;> simp
  rw [promotions_simulate hl ha h, (joins_joined _).sum_duration hle, wakings_eq_map_arrivals]
  exact hsum _ fun a ha' => since_le_of_mem_arrivals hl h ha'

end Arrivals

/-- Traffic holds a state that nothing else holds without a tail. -/
theorem picksTransfers_ofProfile {α : Type} (profile : Profile α) :
    (Ladder.ofProfile profile).PicksTransfers
      (· = ((profile.family.activeState, false) : Mode)) := by
  unfold ofProfile Profile.family
  cases profile.radio <;> constructor <;>
    simp [ofRadio, waitingModes, promotions, Profile.RadioModel.family, Family.activeState]

end Ladder

section Profile
open Ladder (ofProfile)

/-- The transfers of a profile's radio are those of the bursts that take time. -/
theorem transfers_ofProfile {α : Type} [Scalar α] [Scalar.Lawful α] {profile : Profile α}
    {duration : α} {bursts : List (Burst α)} {p : Mode → Bool} (hp : profile.validate = .ok ())
    (hb : Burst.InSequence duration bursts) (hpick : (ofProfile profile).PicksTransfers p) :
    withMode p ((ofProfile profile).simulate bursts duration) =
      (bursts.filter fun b => b.beginTime < b.endTime).map fun b =>
        ⟨b.beginTime, b.endTime, profile.family.activeState, false⟩ := by
  have hactive : (ofProfile profile).active = profile.family.activeState :=
    Ladder.active_ofRadio profile.radio
  rw [← hactive]
  exact Ladder.transfers_simulate (Ladder.usable_ofProfile hp) hb hpick

/-- A burst that takes time is reported as one transfer, whatever the arithmetic, and nothing else
is. In exact arithmetic the active row without its tail holds the time of the bursts, and the
promotion rows hold the time that the arrivals spend on their promotions. -/
theorem simulate_accounts_for_bursts :
    (∀ {α : Type} [Scalar α] [Scalar.Lawful α] {profile : Profile α} {duration : α}
      {bursts : List (Burst α)}, profile.validate = .ok () → Burst.InSequence duration bursts →
        withMode (· = (profile.family.activeState, false))
            ((ofProfile profile).simulate bursts duration) =
          (bursts.filter fun b => b.beginTime < b.endTime).map fun b =>
            ⟨b.beginTime, b.endTime, profile.family.activeState, false⟩) ∧
    ∀ {profile : Profile Rat} {duration : Rat} {bursts : List (Burst Rat)}
      (model : EnergyModel Rat) (timeline : Traffic.Timeline Rat),
      profile.validate = .ok () → Burst.InSequence duration bursts →
        (∃ row, (Statistics.reduce (ofProfile profile) model
              ((ofProfile profile).simulate bursts duration) timeline duration).row?
            profile.family.activeState = some row ∧
          row.seconds - row.tailSeconds = (bursts.map (·.duration)).sum) ∧
        (Statistics.reduce (ofProfile profile) model
              ((ofProfile profile).simulate bursts duration) timeline duration).promotionSeconds =
          (((ofProfile profile).arrivals bursts).map
            (ofProfile profile).promotionSecondsAt).sum := by
  refine ⟨fun {α _ _ profile duration bursts} hp hb => transfers_ofProfile hp hb
      (Ladder.picksTransfers_ofProfile profile),
    fun {profile duration bursts} model timeline hp hb => ⟨?_, ?_⟩⟩
  · have hfamily : profile.family.activeState.family = (ofProfile profile).family := by
      rw [ofProfile, Ladder.family_ofRadio]
      exact Family.family_activeState _
    refine ⟨_, Statistics.row?_reduce hfamily, ?_⟩
    rw [StateTotals.seconds_sub_tailSeconds,
      transfers_ofProfile hp hb (Ladder.picksTransfers_ofProfile profile), List.map_map,
      ← hb.sum_duration_filter]
    rfl
  · have hpromotions := Ladder.sum_duration_promotions (Ladder.usable_ofProfile hp)
      (Ladder.promotionsApart_ofProfile profile) hb
    rw [Statistics.promotionSeconds, StateTotals.promotionSeconds, Scalar.sum_eq_sum,
      Statistics.sum_rows (Ladder.family_simulate_ofProfile hp hb) State.isPromotion
        fun _ => StateTotals.seconds_ofIntervals, ← hpromotions]

/-- Two transfers of the standard profile, the second without length: in binary64 one is reported,
and in exact arithmetic the times add up. -/
theorem simulate_accounts_for_bursts_standard :
    withMode (· = (.dch, false)) ((ofProfile (.standard : Profile Float)).simulate
      [.fresh 1 1.5 ⟨0, 2⟩ 0, .fresh 4 4 ⟨2, 3⟩ 0] 30) = [⟨1, 1.5, .dch, false⟩] ∧
    (Statistics.reduce (ofProfile (.standard : Profile Rat)) (Profile.standard : Profile Rat).energy
      ((ofProfile (.standard : Profile Rat)).simulate
        [.fresh 1 1.5 ⟨0, 2⟩ 0, .fresh 14 14 ⟨2, 3⟩ 0] 30) ⟨[]⟩ 30).promotionSeconds = 2.5 := by
  have hfloat : (Profile.standard : Profile Float).validate = .ok () := by decide +kernel
  have hrat : (Profile.standard : Profile Rat).validate = .ok () := by decide +kernel
  constructor
  · refine (simulate_accounts_for_bursts.1 hfloat (by decide +kernel)).trans ?_
    decide +kernel
  · refine (simulate_accounts_for_bursts.2 _ _ hrat (by decide +kernel)).2.trans ?_
    decide +kernel

end Profile
end BurstEnergy.Radio
