import BurstEnergy.Proofs.Conservation
import BurstEnergy.Proofs.Radio.Arrivals

/-!
# Visits to promotions

An arrival pays a promotion when it comes with a delay and the position has been held for some time.
The statistics count one visit for each, unless the next promotion takes it up: then both are
reported as one interval, with the begin of a burst inside. `Reported` follows the wakings and says
what becomes of the promotion of each. No promotion is taken up when the first timer takes time.
-/
namespace BurstEnergy.Radio
open StateInterval (Joins joins_joined)

/-- A joined interval takes time and starts with one of those that it was joined from. -/
theorem StateInterval.Joins.exists_start {planned reported : List (StateInterval Rat)}
    (hj : Joins planned reported) {i : StateInterval Rat} (hi : i ∈ reported) :
    i.start < i.stop ∧ ∃ j ∈ planned, j.start = i.start := by
  induction hj generalizing i with
  | nil => exact absurd hi List.not_mem_nil
  | empty hempty hrest ih =>
    obtain ⟨hlt, j, hj, hstart⟩ := ih hi
    exact ⟨hlt, j, List.mem_cons_of_mem _ hj, hstart⟩
  | apart htime hnext hrest ih =>
    rcases List.mem_cons.mp hi with rfl | hi
    · exact ⟨not_le.mp htime, i, List.mem_cons_self, rfl⟩
    · obtain ⟨hlt, j, hj, hstart⟩ := ih hi
      exact ⟨hlt, j, List.mem_cons_of_mem _ hj, hstart⟩
  | @merged i j planned reported htime hnext hrest ih =>
    rcases List.mem_cons.mp hi with rfl | hi
    · have hmeet : i.stop = j.start := Scalar.agree_iff_eq.mp hnext.2.2
      have hlong : j.start < j.stop := (ih List.mem_cons_self).1
      exact ⟨(not_le.mp htime).trans (hmeet.trans_lt hlong), i, List.mem_cons_self, rfl⟩
    · obtain ⟨hlt, k, hk, hstart⟩ := ih (List.mem_cons_of_mem j hi)
      exact ⟨hlt, k, List.mem_cons_of_mem _ hk, hstart⟩

/-- What becomes of the promotions that the wakings pay: each is reported on its own, or as the
first part of the next one. -/
inductive Reported : List Waking → List (StateInterval Rat) → Prop
  | nil : Reported [] []
  | free {waking : Waking} {rest : List Waking} {reported : List (StateInterval Rat)}
      (hpaid : waking.paid = none) (hrest : Reported rest reported) :
      Reported (waking :: rest) reported
  | apart {waking : Waking} {rest : List Waking} {p : StateInterval Rat}
      {reported : List (StateInterval Rat)} (hpaid : waking.paid = some p)
      (hruns : ¬ runsOn p (nextPaid rest) = true) (hrest : Reported rest reported) :
      Reported (waking :: rest) (p :: reported)
  | taken {waking : Waking} {rest : List Waking} {p next : StateInterval Rat}
      {reported : List (StateInterval Rat)} (hpaid : waking.paid = some p)
      (hruns : runsOn p (nextPaid rest) = true) (hlt : p.stop < next.stop)
      (hrest : Reported rest (next :: reported)) :
      Reported (waking :: rest) ({ p with stop := next.stop } :: reported)

section Wakings
variable {duration lo : Rat} {waking : Waking} {wakings rest : List Waking}
  {reported : List (StateInterval Rat)} {i p : StateInterval Rat}

theorem Waking.Follow.of_mem (h : Waking.Follow duration lo wakings) (hw : waking ∈ wakings) :
    lo ≤ waking.lead ∧ waking.Sound := by
  induction wakings generalizing lo with
  | nil => exact absurd hw List.not_mem_nil
  | cons first rest ih =>
    obtain ⟨hlead, hsound, hrest⟩ := h
    rcases List.mem_cons.mp hw with rfl | hw
    · exact ⟨hlead, hsound⟩
    · obtain ⟨hle, hs⟩ := ih hrest hw
      exact ⟨hlead.trans (hsound.lead_le.trans hle), hs⟩

theorem Waking.Follow.beginTime_le (h : Waking.Follow duration lo wakings) {other : Waking}
    (hw : waking ∈ wakings) (ho : other ∈ wakings) :
    other.beginTime ≤ waking.lead ∨ waking.beginTime ≤ other.beginTime := by
  induction wakings generalizing lo with
  | nil => exact absurd hw List.not_mem_nil
  | cons first rest ih =>
    obtain ⟨-, -, hrest⟩ := h
    rcases List.mem_cons.mp hw with rfl | hlater
    · rcases List.mem_cons.mp ho with rfl | ho
      · exact .inr le_rfl
      · obtain ⟨hle, hs⟩ := hrest.of_mem ho
        exact .inr (hle.trans hs.lead_le)
    · rcases List.mem_cons.mp ho with rfl | ho
      · exact .inl (hrest.of_mem hlater).1
      · exact ih hrest hlater ho

/-- The next promotion takes up one that the next reported one continues, and no other. -/
theorem runsOn_iff_continues (hsound : waking.Sound) (hp : waking.paid = some p)
    (hrest : Waking.Follow duration waking.beginTime rest)
    (hlater : ∀ next ∈ rest, waking.beginTime < next.beginTime)
    (hj : Joins (rest.filterMap (·.paid)) reported) :
    runsOn p (nextPaid rest) = true ↔ ∃ j ∈ reported.head?, p.Continues j := by
  cases rest with
  | nil =>
    cases hj
    simp [runsOn_iff, nextPaid]
  | cons next later =>
    obtain ⟨-, hnext, hfollow⟩ := hrest
    cases hq : next.paid with
    | some q =>
      have hlt : q.start < q.stop := (hnext q hq).1
      rw [List.filterMap_cons_some hq] at hj
      obtain ⟨stop, tail, rfl⟩ := hj.exists_head hlt.not_ge
      have hcontinues : p.Continues { q with stop := stop } ↔ p.Continues q := Iff.rfl
      simp [runsOn_iff, nextPaid, hq, hcontinues]
    | none =>
      -- The next promotion comes after a burst without one, which begins later.
      rw [List.filterMap_cons_none hq] at hj
      have hfar : ∀ j ∈ reported.head?, ¬ p.Continues j := by
        intro j hmem hc
        obtain ⟨-, q, hmem, hstart⟩ := hj.exists_start (List.mem_of_mem_head? hmem)
        obtain ⟨w, hw, hwq⟩ := List.mem_filterMap.mp hmem
        have hle : next.beginTime ≤ j.start :=
          ((hfollow.of_mem hw).1.trans_eq (Waking.lead_of_paid hwq)).trans_eq hstart
        have hmeet : waking.beginTime = j.start :=
          (hsound p hp).2.symm.trans (Scalar.agree_iff_eq.mp hc.2.2)
        exact (hlater next List.mem_cons_self).not_ge (hle.trans_eq hmeet.symm)
      simpa [runsOn_iff, nextPaid, hq] using hfar

/-- Joining the promotions that are paid leaves those that are reported. -/
theorem Reported.of_joins (h : Waking.Follow duration lo wakings)
    (hlater : wakings.Pairwise fun w next => w.beginTime < next.beginTime)
    (hj : Joins (wakings.filterMap (·.paid)) reported) : Reported wakings reported := by
  induction wakings generalizing lo reported with
  | nil =>
    cases hj
    exact .nil
  | cons waking rest ih =>
    obtain ⟨-, hsound, hrest⟩ := h
    obtain ⟨hnext, hlater⟩ := List.pairwise_cons.mp hlater
    cases hp : waking.paid with
    | none =>
      rw [List.filterMap_cons_none hp] at hj
      exact .free hp (ih hrest hlater hj)
    | some p =>
      have hlt : p.start < p.stop := (hsound p hp).1
      rw [List.filterMap_cons_some hp] at hj
      cases hj with
      | empty hempty hj => exact absurd hempty hlt.not_ge
      | apart _ hfar hj =>
        refine .apart hp (fun hruns => ?_) (ih hrest hlater hj)
        obtain ⟨j, hmem, hc⟩ := (runsOn_iff_continues hsound hp hrest hnext hj).mp hruns
        exact hfar j hmem hc
      | @merged _ j _ _ _ hc hj =>
        have hruns := (runsOn_iff_continues hsound hp hrest hnext hj).mpr ⟨j, rfl, hc⟩
        have hmeet : p.stop = j.start := Scalar.agree_iff_eq.mp hc.2.2
        have hlong : j.start < j.stop := (hj.exists_start List.mem_cons_self).1
        exact .taken hp hruns (hmeet.trans_lt hlong) (ih hrest hlater hj)

namespace Reported

/-- Each promotion that is taken up is one visit less. -/
theorem length_add_takenUp (h : Reported wakings reported) :
    reported.length + (takenUp none wakings).length = (wakings.filterMap (·.paid)).length := by
  induction h with
  | nil => rfl
  | free hpaid hrest ih =>
    rw [takenUp_cons_of_carry_none (Waking.carry_of_free hpaid), List.filterMap_cons_none hpaid, ih]
  | @apart waking rest p reported hpaid hruns hrest ih =>
    have hcons : (waking :: rest).filterMap (·.paid) = p :: rest.filterMap (·.paid) :=
      List.filterMap_cons_some hpaid
    rw [takenUp_cons_of_carry_none (Waking.carry_of_not_runsOn hpaid hruns), hcons,
      List.length_cons, List.length_cons, ← ih]
    omega
  | @taken waking rest p next reported hpaid hruns hlt hrest ih =>
    have hcons : (waking :: rest).filterMap (·.paid) = p :: rest.filterMap (·.paid) :=
      List.filterMap_cons_some hpaid
    rw [takenUp_cons_of_carry (Waking.carry_of_runsOn hpaid hruns), hcons, List.length_cons,
      List.length_cons, List.length_cons, ← ih, List.length_cons]
    omega

/-- Promotions of which none is taken up are reported as they are paid. -/
theorem eq_of_takenUp_eq_nil (h : Reported wakings reported) (hnone : takenUp none wakings = []) :
    reported = wakings.filterMap (·.paid) := by
  induction h with
  | nil => rfl
  | free hpaid hrest ih =>
    rw [List.filterMap_cons_none hpaid]
    exact ih (takenUp_cons_eq_nil_iff.mp hnone).2
  | apart hpaid hruns hrest ih =>
    rw [List.filterMap_cons_some hpaid, ih (takenUp_cons_eq_nil_iff.mp hnone).2]
  | taken hpaid hruns hlt hrest ih =>
    have hcarry := (takenUp_cons_eq_nil_iff.mp hnone).1
    rw [Waking.carry_of_runsOn hpaid hruns] at hcarry
    cases hcarry

/-- A promotion is reported until a burst begins. -/
theorem exists_stop (h : Reported wakings reported) (hs : ∀ w ∈ wakings, w.Sound)
    (hi : i ∈ reported) : ∃ w ∈ wakings, i.stop = w.beginTime := by
  induction h generalizing i with
  | nil => exact absurd hi List.not_mem_nil
  | free hpaid hrest ih =>
    obtain ⟨w, hw, hstop⟩ := ih (List.forall_mem_cons.mp hs).2 hi
    exact ⟨w, List.mem_cons_of_mem _ hw, hstop⟩
  | @apart waking rest p reported hpaid hruns hrest ih =>
    obtain ⟨hsound, hs⟩ := List.forall_mem_cons.mp hs
    rcases List.mem_cons.mp hi with rfl | hi
    · exact ⟨waking, List.mem_cons_self, (hsound i hpaid).2⟩
    · obtain ⟨w, hw, hstop⟩ := ih hs hi
      exact ⟨w, List.mem_cons_of_mem _ hw, hstop⟩
  | taken hpaid hruns hlt hrest ih =>
    have hrest {j : StateInterval Rat} (hj : j ∈ _ :: _) := ih (List.forall_mem_cons.mp hs).2 hj
    rcases List.mem_cons.mp hi with rfl | hi
    · obtain ⟨w, hw, hstop⟩ := hrest List.mem_cons_self
      exact ⟨w, List.mem_cons_of_mem _ hw, hstop⟩
    · obtain ⟨w, hw, hstop⟩ := hrest (List.mem_cons_of_mem _ hi)
      exact ⟨w, List.mem_cons_of_mem _ hw, hstop⟩

/-- A burst begins inside a promotion that takes up another one. -/
theorem exists_inside (h : Reported wakings reported) (hs : ∀ w ∈ wakings, w.Sound)
    (htaken : takenUp none wakings ≠ []) :
    ∃ i ∈ reported, ∃ w ∈ wakings, i.start < w.beginTime ∧ w.beginTime < i.stop := by
  induction h with
  | nil => exact absurd rfl htaken
  | free hpaid hrest ih =>
    rw [takenUp_cons_of_carry_none (Waking.carry_of_free hpaid)] at htaken
    obtain ⟨i, hi, w, hw, hinside⟩ := ih (List.forall_mem_cons.mp hs).2 htaken
    exact ⟨i, hi, w, List.mem_cons_of_mem _ hw, hinside⟩
  | apart hpaid hruns hrest ih =>
    rw [takenUp_cons_of_carry_none (Waking.carry_of_not_runsOn hpaid hruns)] at htaken
    obtain ⟨i, hi, w, hw, hinside⟩ := ih (List.forall_mem_cons.mp hs).2 htaken
    exact ⟨i, List.mem_cons_of_mem _ hi, w, List.mem_cons_of_mem _ hw, hinside⟩
  | @taken waking rest p next reported hpaid hruns hlt hrest ih =>
    obtain ⟨hstart, hstop⟩ := (List.forall_mem_cons.mp hs).1 p hpaid
    exact ⟨_, List.mem_cons_self, waking, List.mem_cons_self, hstop ▸ hstart, hstop ▸ hlt⟩

/-- When none is taken up, no burst begins inside a reported promotion. -/
theorem not_inside (h : Reported wakings reported) (hf : Waking.Follow duration lo wakings)
    (hnone : takenUp none wakings = []) (hi : i ∈ reported) {other : Waking}
    (ho : other ∈ wakings) : ¬ (i.start < other.beginTime ∧ other.beginTime < i.stop) := by
  rw [h.eq_of_takenUp_eq_nil hnone] at hi
  obtain ⟨w, hw, hpaid⟩ := List.mem_filterMap.mp hi
  have hstart : w.lead = i.start := Waking.lead_of_paid hpaid
  have hstop : i.stop = w.beginTime := ((hf.of_mem hw).2 i hpaid).2
  rw [← hstart, hstop]
  rintro ⟨hlead, hbegin⟩
  rcases hf.beginTime_le hw ho with hle | hle
  · exact hlead.not_ge hle
  · exact hbegin.not_ge hle

end Reported

end Wakings

namespace Ladder
variable {ladder : Ladder Rat} {duration : Rat} {bursts : List (Burst Rat)}

/-- An arrival pays for its promotion when it has a delay and the position was held for some time.
-/
def Pays (ladder : Ladder Rat) (arrival : Arrival) : Prop :=
  arrival.position.since < arrival.beginTime ∧
    ∃ p ∈ ladder.promotionAt arrival.position, 0 < p.delay

instance (ladder : Ladder Rat) (arrival : Arrival) : Decidable (ladder.Pays arrival) :=
  inferInstanceAs (Decidable (_ ∧ _))

theorem isSome_paid_iff {a : Arrival} :
    (ladder.wakingAt a.position a.beginTime).paid.isSome = true ↔ ladder.Pays a := by
  have hpaid (p : Promotion Rat) : (p.paid a.position.since a.beginTime).isSome = true ↔
      0 < p.delay ∧ a.position.since < a.beginTime := by
    unfold Promotion.paid
    dsimp only
    split <;> simp_all
  unfold Pays wakingAt
  cases hp : ladder.promotionAt a.position with
  | none => simp
  | some p => simp [hpaid, and_comm]

theorem map_beginTime_wakings :
    (ladder.wakings bursts).map (·.beginTime) = bursts.map (·.beginTime) := by
  rw [wakings_eq_map_arrivals, List.map_map, ← map_beginTime_arrivals]
  rfl

theorem exists_burst_of_mem_wakings {waking : Waking} (hw : waking ∈ ladder.wakings bursts) :
    ∃ b ∈ bursts, b.beginTime = waking.beginTime := by
  have hmem : waking.beginTime ∈ (ladder.wakings bursts).map (·.beginTime) :=
    List.mem_map_of_mem hw
  rw [map_beginTime_wakings] at hmem
  exact List.mem_map.mp hmem

theorem exists_waking_of_mem (ladder : Ladder Rat) {burst : Burst Rat} (hb : burst ∈ bursts) :
    ∃ w ∈ ladder.wakings bursts, w.beginTime = burst.beginTime := by
  have hmem : burst.beginTime ∈ bursts.map (·.beginTime) := List.mem_map_of_mem hb
  rw [← map_beginTime_wakings] at hmem
  exact List.mem_map.mp hmem

theorem promotion_mem_of_promotionAt {position : Position Rat} {p : Promotion Rat}
    (hp : ladder.promotionAt position = some p) : p ∈ ladder.promotions := by
  cases position with
  | rung stage since =>
    obtain ⟨rung, hrung, hp⟩ := Option.bind_eq_some_iff.mp hp
    exact promotion_mem_of_rung (List.mem_of_getElem? hrung) hp
  | idle since => exact promotion_mem_of_idle hp

/-- The promotions that are paid are as many as the arrivals that pay. -/
theorem length_paid :
    ((ladder.wakings bursts).filterMap (·.paid)).length =
      (ladder.arrivals bursts).countP fun a => ladder.Pays a := by
  rw [List.length_filterMap_eq_countP, wakings_eq_map_arrivals, List.countP_map]
  refine List.countP_congr fun a _ => ?_
  simpa using isSome_paid_iff

/-- A promotion that is paid lasts no longer than the delay that the ladder names. -/
theorem exists_promotion_of_paid {i : StateInterval Rat}
    (hi : i ∈ (ladder.wakings bursts).filterMap (·.paid)) :
    ∃ p ∈ ladder.promotions, p.state = i.state ∧ i.duration ≤ p.delay := by
  rw [wakings_eq_map_arrivals] at hi
  obtain ⟨waking, hw, hpaid⟩ := List.mem_filterMap.mp hi
  obtain ⟨a, -, rfl⟩ := List.mem_map.mp hw
  obtain ⟨p, hp, hpaid⟩ := Option.bind_eq_some_iff.mp hpaid
  refine ⟨p, promotion_mem_of_promotionAt hp, ?_⟩
  unfold Promotion.paid at hpaid
  dsimp only at hpaid
  split at hpaid
  · obtain rfl := Option.some.inj hpaid
    have hstart : a.beginTime - p.delay ≤ max (a.beginTime - p.delay) a.position.since :=
      le_max_left _ _
    exact ⟨rfl, sub_le_comm.mp hstart⟩
  · cases hpaid

/-- The wakings of bursts in order report the promotions of the simulation. -/
theorem reported_simulate (hl : ladder.Usable) (ha : ladder.PromotionsApart)
    (h : Burst.InSequence duration bursts) :
    Reported (ladder.wakings bursts)
      ((ladder.simulate bursts duration).filter (·.state.isPromotion)) := by
  rw [promotions_simulate hl ha h]
  refine .of_joins (follow_wakings hl ha h) ?_ (joins_joined _)
  have hbegin : (bursts.map (·.beginTime)).Pairwise (· < ·) := by
    refine List.pairwise_map.mpr (h.pairwise.imp_of_mem fun hb _ hlt => ?_)
    exact (h.begin_le_end hb).trans_lt hlt
  rw [← map_beginTime_wakings] at hbegin
  exact List.pairwise_map.mp hbegin

end Ladder

open Ladder (ofProfile)

/-- Every promotion is reported until a burst begins, and each visit to a promotion state is one
arrival that pays, but for the promotions that the next one takes up. Bursts begin inside a reported
promotion exactly when there are such; when there are none, promotions last no longer than their
delays. A first timer that takes time leaves none. -/
theorem promotions_belong_to_bursts_iff {profile : Profile Rat} {duration : Rat}
    {bursts : List (Burst Rat)} (hp : profile.validate = .ok ())
    (hb : Burst.InSequence duration bursts) (model : EnergyModel Rat)
    (timeline : Traffic.Timeline Rat) :
    let ladder := ofProfile profile
    let intervals := ladder.simulate bursts duration
    let reported := intervals.filter (·.state.isPromotion)
    let rows := (Statistics.reduce ladder model intervals timeline duration).states
    let taken := takenUp none (ladder.wakings bursts)
    (∀ i ∈ reported, ∃ b ∈ bursts, i.stop = b.beginTime) ∧
    ((rows.filter (·.state.isPromotion)).map (·.intervals)).sum + taken.length =
      (ladder.arrivals bursts).countP (fun a => ladder.Pays a) ∧
    ((∀ i ∈ reported, ∀ b ∈ bursts, ¬ (i.start < b.beginTime ∧ b.beginTime < i.stop)) ↔
      taken = []) ∧
    (taken = [] → ∀ i ∈ reported, ∃ p ∈ ladder.promotions,
      p.state = i.state ∧ i.duration ≤ p.delay) ∧
    (0 < profile.radio.firstTimer → taken = []) := by
  intro ladder intervals reported rows taken
  have hl : ladder.Usable := Ladder.usable_ofProfile hp
  have ha : ladder.PromotionsApart := Ladder.promotionsApart_ofProfile profile
  have hreported : Reported (ladder.wakings bursts) reported := Ladder.reported_simulate hl ha hb
  have hfollow := Ladder.follow_wakings hl ha hb
  have hsound : ∀ w ∈ ladder.wakings bursts, w.Sound := fun w hw => (hfollow.of_mem hw).2
  have hrows : ((rows.filter (·.state.isPromotion)).map (·.intervals)).sum = reported.length := by
    rw [Statistics.sum_rows (Ladder.family_simulate_ofProfile hp hb) State.isPromotion
      fun _ => StateTotals.intervals_ofIntervals]
    simp [reported, intervals, ladder]
  refine ⟨?_, ?_, ⟨fun hinside => ?_, fun hnone => ?_⟩, fun hnone i hi => ?_, fun htimer => ?_⟩
  · intro i hi
    obtain ⟨w, hw, hstop⟩ := hreported.exists_stop hsound hi
    obtain ⟨b, hmem, hbegin⟩ := Ladder.exists_burst_of_mem_wakings hw
    exact ⟨b, hmem, hstop.trans hbegin.symm⟩
  · rw [hrows, hreported.length_add_takenUp, Ladder.length_paid]
  · by_contra htaken
    obtain ⟨i, hi, w, hw, hlt⟩ := hreported.exists_inside hsound htaken
    obtain ⟨b, hmem, hbegin⟩ := Ladder.exists_burst_of_mem_wakings hw
    exact hinside i hi b hmem (hbegin ▸ hlt)
  · intro i hi b hmem
    obtain ⟨w, hw, hbegin⟩ := ladder.exists_waking_of_mem hmem
    exact hbegin ▸ hreported.not_inside hfollow hnone hi hw
  · rw [hreported.eq_of_takenUp_eq_nil hnone] at hi
    exact Ladder.exists_promotion_of_paid hi
  · obtain ⟨first, below, hrungs, hfirst, hfree⟩ := Ladder.exists_first_rung profile
    exact (startsFrom_of_apart hfollow
      (Ladder.apart_wakings hl hrungs (hfirst ▸ htimer) hfree hb)).2

/-- Without tail timers the third of three lone bursts takes up the promotion of the second, and two
arrivals pay for one visit; with the standard timers no promotion is taken up. -/
theorem promotions_belong_to_bursts_tailless :
    (((Statistics.reduce (ofProfile Analyser.tailless) Analyser.tailless.energy
        ((ofProfile Analyser.tailless).simulate
          [.fresh 0 0 ⟨0, 1⟩ 0, .fresh 10 10 ⟨1, 2⟩ 0, .fresh 12 12 ⟨2, 3⟩ 0] 12)
        ⟨[]⟩ 12).states.filter (·.state.isPromotion)).map (·.intervals)).sum +
      (takenUp none ((ofProfile Analyser.tailless).wakings
        [.fresh 0 0 ⟨0, 1⟩ 0, .fresh 10 10 ⟨1, 2⟩ 0, .fresh 12 12 ⟨2, 3⟩ 0])).length = 2 ∧
    takenUp none ((ofProfile (.standard : Profile Rat)).wakings
      [.fresh 0 0 ⟨0, 1⟩ 0, .fresh 10 10 ⟨1, 2⟩ 0, .fresh 12 12 ⟨2, 3⟩ 0]) = [] := by
  have hp : Analyser.tailless.validate = .ok () := by decide +kernel
  have hp' : (Profile.standard : Profile Rat).validate = .ok () := by decide +kernel
  have hb : Burst.InSequence (12 : Rat)
      [.fresh 0 0 ⟨0, 1⟩ 0, .fresh 10 10 ⟨1, 2⟩ 0, .fresh 12 12 ⟨2, 3⟩ 0] := by decide +kernel
  obtain ⟨-, hcount, -⟩ :=
    promotions_belong_to_bursts_iff hp hb Analyser.tailless.energy ⟨[]⟩
  obtain ⟨-, -, -, -, htimer⟩ :=
    promotions_belong_to_bursts_iff hp' hb (Profile.standard : Profile Rat).energy ⟨[]⟩
  exact ⟨hcount.trans (by decide +kernel), htimer (by decide +kernel)⟩

/-- On validated profiles and valid traces a promotion does not always belong to one burst, and the
visits do not always count the arrivals that pay. -/
theorem exists_promotion_of_two_bursts : ¬ ∀ (profile : Profile Rat) (trace : Traffic.Trace Rat),
    profile.validate = .ok () → trace.family = profile.family → trace.validate = .ok () →
      let ladder := ofProfile profile
      let bursts := Segmentation.segment profile.thresholds.burstGap trace.timeline
      let intervals := ladder.simulate bursts trace.duration
      let rows := (Statistics.reduce ladder profile.energy intervals trace.timeline
        trace.duration).states
      (∀ i ∈ intervals, i.state.isPromotion = true →
        (∃ b ∈ bursts, i.stop = b.beginTime) ∧
        (∀ b ∈ bursts, ¬ (i.start < b.beginTime ∧ b.beginTime < i.stop)) ∧
        ∃ p ∈ ladder.promotions, p.state = i.state ∧ i.duration ≤ p.delay) ∧
      ((rows.filter (·.state.isPromotion)).map (·.intervals)).sum =
        (ladder.arrivals bursts).countP (fun a => ladder.Pays a) := by
  intro h
  have hp : Analyser.tailless.validate = .ok () := by decide +kernel
  have hv : Analyser.lonePackets.validate = .ok () := by decide +kernel
  obtain ⟨-, hcount⟩ := h Analyser.tailless Analyser.lonePackets hp rfl hv
  revert hcount
  decide +kernel

end BurstEnergy.Radio
