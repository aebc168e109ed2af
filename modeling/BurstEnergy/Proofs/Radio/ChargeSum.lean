import BurstEnergy.Proofs.Radio.ChargeStart
import BurstEnergy.Proofs.Radio.EnergyWithin

/-!
# What charges add up to

The spans of charges meet, so their energies telescope, unless a charge starts earlier than the one
before it. This happens at the end of a run of promotions that are reported as one: the promotions
before the last are then charged a second time. A first timer that takes time keeps promotions
apart, and the charges start where the wakings lead.
-/
namespace BurstEnergy.Radio
open Attribution (spans)

/-- Wakings in order of time: none leads from before the begin of the last one. -/
def Waking.Follow (duration since : Rat) : List Waking → Prop
  | [] => since ≤ duration
  | waking :: rest =>
    since ≤ waking.lead ∧ waking.Sound ∧ Waking.Follow duration waking.beginTime rest

/-- Wakings that even lead from after the begin of the last one. -/
def Waking.Apart (wakings : List Waking) : Prop :=
  wakings.IsChain fun waking next => waking.beginTime < next.lead

/-- The spans of promotions that the next one takes up, the first promotion being reported from
`since` on. -/
def takenUp (since : Option Rat) : List Waking → List (Rat × Rat)
  | [] => []
  | waking :: rest =>
    ((waking.carry since (nextPaid rest)).map fun start => (start, waking.beginTime)).toList
      ++ takenUp none rest

/-- The energy of several spans. -/
def energyOver (model : EnergyModel Rat) (timeline : Traffic.Timeline Rat)
    (intervals : List (StateInterval Rat)) (spans : List (Rat × Rat)) : Rat :=
  (spans.map fun (start, stop) => energyWithin model timeline intervals start stop).sum

variable {model : EnergyModel Rat} {timeline : Traffic.Timeline Rat}
  {intervals : List (StateInterval Rat)} {duration lo : Rat} {since : Option Rat}
  {waking : Waking} {wakings rest : List Waking}

@[simp] theorem energyOver_nil : energyOver model timeline intervals [] = 0 := rfl

@[simp] theorem energyOver_cons (start stop : Rat) (l : List (Rat × Rat)) :
    energyOver model timeline intervals ((start, stop) :: l) =
      energyWithin model timeline intervals start stop +
        energyOver model timeline intervals l := by
  simp [energyOver]

theorem takenUp_cons_of_carry {start : Rat} (h : waking.carry since (nextPaid rest) = some start) :
    takenUp since (waking :: rest) = (start, waking.beginTime) :: takenUp none rest := by
  rw [takenUp, h]
  rfl

theorem takenUp_cons_of_carry_none (h : waking.carry since (nextPaid rest) = none) :
    takenUp since (waking :: rest) = takenUp none rest := by
  rw [takenUp, h]
  rfl

namespace Waking

theorem Follow.of_le {since : Rat} (h : Follow duration since wakings) (hle : lo ≤ since) :
    Follow duration lo wakings := by
  cases wakings with
  | nil => exact hle.trans h
  | cons waking rest => exact ⟨hle.trans h.1, h.2⟩

/-- When a promotion runs on, the next burst pays one that starts where it stops. -/
theorem exists_of_runsOn {p : StateInterval Rat} (h : waking.Sound) (hp : waking.paid = some p)
    (hruns : runsOn p (nextPaid rest) = true) : ∃ next later q, rest = next :: later ∧
      next.paid = some q ∧ q.start = waking.beginTime := by
  obtain ⟨q, hq, hc⟩ := runsOn_iff.mp hruns
  cases rest with
  | nil => cases hq
  | cons next later =>
    have hmeet : p.stop = q.start := Scalar.agree_iff_eq.mp hc.2.2
    exact ⟨next, later, q, rfl, hq, hmeet.symm.trans (h p hp).2⟩

end Waking

/-- The first charge starts no earlier than the wakings lead and the pending promotion starts. -/
theorem le_head_startsFrom {bound : Rat} (h : Waking.Follow duration lo wakings) (hlo : bound ≤ lo)
    (hs : ∀ start, since = some start → bound ≤ start) :
    bound ≤ (startsFrom since wakings).head?.getD duration := by
  cases wakings with
  | nil => exact hlo.trans h
  | cons waking rest =>
    obtain ⟨hlead, hsound, -⟩ := h
    show bound ≤ waking.startFrom since (nextPaid rest)
    unfold Waking.startFrom
    split
    · exact hlo.trans (hlead.trans hsound.lead_le)
    · next p hp =>
      split
      · exact hlo.trans (hlead.trans hsound.lead_le)
      · cases since with
        | none => exact hlo.trans (hlead.trans_eq (Waking.lead_of_paid hp))
        | some start => exact hs start rfl

/-- Going to a time directly, or beyond it and back. -/
theorem energyWithin_turn (intervals : List (StateInterval Rat)) (hm : model.Additive timeline)
    {s t : Rat} (hs : 0 ≤ s) (ht : 0 ≤ t) :
    energyWithin model timeline intervals 0 s + energyWithin model timeline intervals s t =
      energyWithin model timeline intervals 0 t + energyWithin model timeline intervals t s := by
  rcases le_total s t with h | h
  · rw [← energyWithin_add hm hs h, energyWithin_of_le hm h, add_zero]
  · rw [← energyWithin_add hm ht h, energyWithin_of_le hm h, add_zero]

theorem getD_le_lead {p : StateInterval Rat} (hp : waking.paid = some p)
    (hs : ∀ start, since = some start → start ≤ waking.lead) :
    since.getD p.start ≤ waking.lead := by
  cases since with
  | none => exact (Waking.lead_of_paid hp).ge
  | some start => exact hs start rfl

theorem Waking.carry_le {next : Option (StateInterval Rat)} {start : Rat} (h : waking.Sound)
    (hs : ∀ start, since = some start → start ≤ waking.lead)
    (hc : waking.carry since next = some start) : start ≤ waking.beginTime := by
  obtain ⟨p, hp, -, rfl⟩ := exists_of_carry hc
  exact (getD_le_lead hp hs).trans h.lead_le

theorem startFrom_le (h : waking.Sound) (hs : ∀ start, since = some start → start ≤ waking.lead)
    (next : Option (StateInterval Rat)) : waking.startFrom since next ≤ waking.beginTime := by
  unfold Waking.startFrom
  split
  · exact le_rfl
  · next p hp =>
    split
    · exact le_rfl
    · exact (getD_le_lead hp hs).trans h.lead_le

/-- One waking: what its charge goes back over is the run of promotions that ends with the next. -/
theorem energyOver_takenUp_step (intervals : List (StateInterval Rat))
    (hm : model.Additive timeline) (hsound : waking.Sound)
    (hs : ∀ start, since = some start → start ≤ waking.lead)
    (hrest : Waking.Follow duration waking.beginTime rest) :
    energyOver model timeline intervals (takenUp (waking.carry since (nextPaid rest)) rest) +
        energyWithin model timeline intervals
          ((startsFrom (waking.carry since (nextPaid rest)) rest).head?.getD duration)
          (waking.startFrom since (nextPaid rest)) =
      energyOver model timeline intervals (takenUp since (waking :: rest)) := by
  cases hcarry : waking.carry since (nextPaid rest) with
  | none =>
    have hnext : waking.beginTime ≤ (startsFrom none rest).head?.getD duration :=
      le_head_startsFrom hrest le_rfl nofun
    have hforward := (startFrom_le hsound hs (nextPaid rest)).trans hnext
    rw [energyWithin_of_le hm hforward, add_zero, takenUp_cons_of_carry_none hcarry]
  | some start =>
    obtain ⟨p, hp, hruns, -⟩ := Waking.exists_of_carry hcarry
    have hstart : start ≤ waking.beginTime := Waking.carry_le hsound hs hcarry
    have hfirst : waking.startFrom since (nextPaid rest) = waking.beginTime :=
      Waking.startFrom_of_runsOn hp hruns
    rw [hfirst, takenUp_cons_of_carry hcarry, energyOver_cons]
    obtain ⟨next, later, q, rfl, hq, hqstart⟩ := Waking.exists_of_runsOn hsound hp hruns
    obtain ⟨-, hsound', -⟩ := hrest
    by_cases hon : runsOn q (nextPaid later) = true
    · have hlate : waking.beginTime ≤ next.beginTime := by
        rw [← hqstart, ← (hsound' q hq).2]
        exact (hsound' q hq).1.le
      have hsome : takenUp (some start) (next :: later) =
          (start, next.beginTime) :: takenUp none later :=
        takenUp_cons_of_carry (Waking.carry_of_runsOn hq hon)
      have hnone : takenUp none (next :: later) =
          (waking.beginTime, next.beginTime) :: takenUp none later :=
        hqstart ▸ takenUp_cons_of_carry (Waking.carry_of_runsOn hq hon)
      have hnext : (startsFrom (some start) (next :: later)).head?.getD duration =
          next.beginTime := Waking.startFrom_of_runsOn hq hon
      rw [hsome, hnone, hnext, energyOver_cons, energyOver_cons, energyWithin_of_le hm hlate,
        energyWithin_add hm hstart hlate]
      ring
    · have hsame : takenUp (some start) (next :: later) = takenUp none (next :: later) := by
        rw [takenUp_cons_of_carry_none (Waking.carry_of_not_runsOn hq hon),
          takenUp_cons_of_carry_none (Waking.carry_of_not_runsOn hq hon)]
      have hnext : (startsFrom (some start) (next :: later)).head?.getD duration = start :=
        Waking.startFrom_of_not_runsOn hq hon
      rw [hsame, hnext, add_comm]

/-- The charges and what lies before them make up the whole trace, and on top of it every promotion
that the next one takes up. -/
theorem energyOver_spans_startsFrom (intervals : List (StateInterval Rat))
    (hm : model.Additive timeline) (h : Waking.Follow duration lo wakings) (h0 : 0 ≤ lo)
    (hs : ∀ start, since = some start → 0 ≤ start ∧ start ≤ lo) :
    energyWithin model timeline intervals 0 ((startsFrom since wakings).head?.getD duration) +
        energyOver model timeline intervals (spans duration (startsFrom since wakings)) =
      energyWithin model timeline intervals 0 duration +
        energyOver model timeline intervals (takenUp since wakings) := by
  induction wakings generalizing since lo with
  | nil => rfl
  | cons waking rest ih =>
    have hall := h
    obtain ⟨hlead, hsound, hrest⟩ := h
    have hbegin : 0 ≤ waking.beginTime := h0.trans (hlead.trans hsound.lead_le)
    have hback : ∀ start, since = some start → start ≤ waking.lead :=
      fun start hsome => (hs start hsome).2.trans hlead
    have hcarry : ∀ start, waking.carry since (nextPaid rest) = some start →
        0 ≤ start ∧ start ≤ waking.beginTime := by
      intro start hsome
      refine ⟨?_, Waking.carry_le hsound hback hsome⟩
      obtain ⟨p, hp, -, rfl⟩ := Waking.exists_of_carry hsome
      cases since with
      | none => exact h0.trans (hlead.trans_eq (Waking.lead_of_paid hp))
      | some start => exact (hs start rfl).1
    have hih := ih hrest hbegin hcarry
    have hfirst : 0 ≤ waking.startFrom since (nextPaid rest) :=
      le_head_startsFrom hall h0 fun start hsome => (hs start hsome).1
    have hnext := le_head_startsFrom hrest hbegin fun start hsome => (hcarry start hsome).1
    have hturn := energyWithin_turn intervals hm hfirst hnext
    have hstep := energyOver_takenUp_step intervals hm hsound hback hrest
    have hspans : spans duration (startsFrom since (waking :: rest)) =
        (waking.startFrom since (nextPaid rest),
          (startsFrom (waking.carry since (nextPaid rest)) rest).head?.getD duration)
          :: spans duration (startsFrom (waking.carry since (nextPaid rest)) rest) := rfl
    change energyWithin model timeline intervals 0 (waking.startFrom since (nextPaid rest)) + _ = _
    rw [hspans, energyOver_cons, ← hstep, ← add_assoc, hturn, ← add_assoc, ← hih]
    ring

theorem Waking.startFrom_of_carry_none {next : Option (StateInterval Rat)}
    (h : waking.carry none next = none) : waking.startFrom none next = waking.lead := by
  cases hp : waking.paid with
  | none => simp [startFrom, lead, hp]
  | some p =>
    have hruns : ¬ runsOn p next = true := by
      intro hruns
      rw [carry_of_runsOn hp hruns] at h
      cases h
    rw [startFrom_of_not_runsOn hp hruns, lead_of_paid hp]
    rfl

/-- Measured from where the first waking leads, only the promotions after it are charged twice. -/
theorem energyOver_spans_add_lead (intervals : List (StateInterval Rat))
    (hm : model.Additive timeline) (h : Waking.Follow duration 0 wakings) :
    energyOver model timeline intervals (spans duration (startsFrom none wakings)) +
        energyWithin model timeline intervals 0 ((wakings.head?.map Waking.lead).getD duration) =
      energyWithin model timeline intervals 0 duration +
        energyOver model timeline intervals (takenUp none wakings.tail) := by
  have hnone : ∀ start, (none : Option Rat) = some start → 0 ≤ start ∧ start ≤ 0 := nofun
  have hall := energyOver_spans_startsFrom intervals hm h le_rfl hnone
  rw [add_comm]
  cases wakings with
  | nil => exact hall
  | cons waking rest =>
    obtain ⟨hlead, hsound, -⟩ := h
    change energyWithin model timeline intervals 0 (waking.startFrom none (nextPaid rest)) + _ = _
      at hall
    change energyWithin model timeline intervals 0 waking.lead + _ = _
    cases hcarry : waking.carry none (nextPaid rest) with
    | none =>
      rw [Waking.startFrom_of_carry_none hcarry, takenUp, hcarry] at hall
      exact hall
    | some start =>
      obtain ⟨p, hp, hruns, hstart⟩ := Waking.exists_of_carry hcarry
      have hfirst : waking.startFrom none (nextPaid rest) = waking.beginTime :=
        Waking.startFrom_of_runsOn hp hruns
      have hstart' : start = waking.lead := by
        rw [hstart, Waking.lead_of_paid hp]
        rfl
      have hhere : takenUp none (waking :: rest) =
          (waking.lead, waking.beginTime) :: takenUp none rest := by
        rw [takenUp, hcarry, hstart']
        rfl
      rw [hfirst, hhere, energyOver_cons, energyWithin_add hm hlead hsound.lead_le] at hall
      change _ = _ + energyOver model timeline intervals (takenUp none rest)
      linear_combination hall

theorem carry_eq_none (hsound : waking.Sound) (h : Waking.Apart (waking :: rest)) :
    waking.carry since (nextPaid rest) = none := by
  cases hcarry : waking.carry since (nextPaid rest) with
  | none => rfl
  | some start =>
    obtain ⟨p, hp, hruns, -⟩ := Waking.exists_of_carry hcarry
    obtain ⟨next, later, q, rfl, hq, hstart⟩ := Waking.exists_of_runsOn hsound hp hruns
    have hlt : waking.beginTime < next.lead := (List.isChain_cons_cons.mp h).1
    rw [Waking.lead_of_paid hq, hstart] at hlt
    exact absurd hlt (lt_irrefl _)

/-- Wakings that are apart are charged from where they lead, and none takes up another. -/
theorem startsFrom_of_apart (h : Waking.Follow duration lo wakings) (ha : Waking.Apart wakings) :
    startsFrom none wakings = wakings.map Waking.lead ∧ takenUp none wakings = [] := by
  induction wakings generalizing lo with
  | nil => exact ⟨rfl, rfl⟩
  | cons waking rest ih =>
    obtain ⟨-, hsound, hrest⟩ := h
    have hcarry : waking.carry none (nextPaid rest) = none := carry_eq_none hsound ha
    obtain ⟨hstarts, htaken⟩ := ih hrest ha.tail
    constructor
    · rw [startsFrom, hcarry, hstarts, Waking.startFrom_of_carry_none hcarry, List.map_cons]
    · rw [takenUp, hcarry, htaken]
      rfl

theorem pairwise_lead (h : Waking.Follow duration lo wakings) (ha : Waking.Apart wakings) :
    (wakings.map Waking.lead).Pairwise (· < ·) := by
  rw [← List.isChain_iff_pairwise, List.isChain_map]
  induction wakings generalizing lo with
  | nil => exact .nil
  | cons waking rest ih =>
    obtain ⟨-, hsound, hrest⟩ := h
    cases rest with
    | nil => exact .singleton waking
    | cons next later =>
      obtain ⟨hlt, ha⟩ := List.isChain_cons_cons.mp ha
      exact List.isChain_cons_cons.mpr ⟨hsound.lead_le.trans_lt hlt, ih hrest ha⟩

namespace Ladder
variable {ladder : Ladder Rat} {released beginTime : Rat} {bursts : List (Burst Rat)}
  {first : Rung Rat} {below : List (Rung Rat)}

theorem follow_wakingsAfter (hl : ladder.Usable) (ha : ladder.PromotionsApart) (h0 : 0 ≤ released)
    (h : Burst.Follow duration released bursts) :
    Waking.Follow duration released (ladder.wakingsAfter released bursts) := by
  induction bursts generalizing released with
  | nil => exact h
  | cons burst rest ih =>
    obtain ⟨hlt, hle, hrest⟩ := h
    have hwake := wakes_wakeAfter hl ha h0 hlt.le
    have hend : 0 ≤ burst.endTime := h0.trans (hlt.le.trans hle)
    exact ⟨hwake.le_lead, hwake.sound, (ih hend hrest).of_le hle⟩

theorem follow_wakings (hl : ladder.Usable) (ha : ladder.PromotionsApart)
    (h : Burst.InSequence duration bursts) :
    Waking.Follow duration 0 (ladder.wakings bursts) := by
  cases bursts with
  | nil => exact h
  | cons burst rest =>
    obtain ⟨h0, hle, hrest⟩ := h
    have hwake := wakes_wakeFirst hl ha h0
    have hafter := follow_wakingsAfter hl ha (h0.trans hle) hrest
    exact ⟨hwake.le_lead, hwake.sound, hafter.of_le hle⟩

theorem since_le_lead_wakingAt {position : Position Rat} (h : position.since ≤ beginTime) :
    position.since ≤ (ladder.wakingAt position beginTime).lead := by
  unfold Waking.lead
  split
  · next p hp =>
    obtain ⟨promotion, -, hpaid⟩ := Option.bind_eq_some_iff.mp hp
    exact promotion.since_le_of_paid hpaid
  · exact h

/-- After a first rung that takes time, and that traffic leaves without a promotion, no waking
leads from the release itself. -/
theorem lt_lead_wakingAt (hl : ladder.Usable) (hr : ladder.rungs = first :: below)
    (htimer : 0 < first.timer) (hfree : first.promotion = none) (h0 : 0 ≤ released)
    (h : released < beginTime) :
    released < (ladder.wakingAt (ladder.position released beginTime) beginTime).lead := by
  have hreached (k : ℕ) : released < deadline ladder.rungs released (k + 1) := by
    have hone : deadline ladder.rungs released 1 = released + first.timer := by
      rw [hr, deadline_cons, deadline_zero]
    have hmono := deadline_mono hl.timer h0 (show 1 ≤ k + 1 by omega)
    exact (hone ▸ lt_add_of_pos_right released htimer).trans_le hmono
  rcases ladder.position_spec released beginTime with
    ⟨k, rung, hk, hpos, -, hpast⟩ | ⟨hpos, hpast⟩
  · have hsince := deadline_le_of_passed hl.timer h0 h.le hpast
    rw [hpos]
    cases k with
    | zero =>
      obtain rfl : first = rung := by simpa [hr] using hk
      have hpaid : (ladder.wakingAt (.rung 0 (deadline ladder.rungs released 0)) beginTime).paid =
          none := by
        rw [wakingAt, promotionAt_rung hk, hfree]
        rfl
      rw [Waking.lead, hpaid]
      exact h
    | succ k => exact (hreached k).trans_le (since_le_lead_wakingAt hsince)
  · have hsince := deadline_le_of_passed hl.timer h0 h.le hpast
    rw [hpos]
    have hlength : ladder.rungs.length = below.length + 1 := by rw [hr, List.length_cons]
    refine lt_of_lt_of_le ?_ (since_le_lead_wakingAt hsince)
    rw [Position.since, hlength]
    exact hreached below.length

/-- A first rung that takes time keeps wakings apart. -/
theorem apart_cons_wakingsAfter (hl : ladder.Usable) (hr : ladder.rungs = first :: below)
    (htimer : 0 < first.timer) (hfree : first.promotion = none) (h0 : 0 ≤ released)
    (h : Burst.Follow duration released bursts) (hle : waking.beginTime ≤ released) :
    Waking.Apart (waking :: ladder.wakingsAfter released bursts) := by
  induction bursts generalizing released waking with
  | nil => exact .singleton waking
  | cons burst rest ih =>
    obtain ⟨hlt, hle', hrest⟩ := h
    have hend : 0 ≤ burst.endTime := h0.trans (hlt.le.trans hle')
    have hlead := lt_lead_wakingAt hl hr htimer hfree h0 hlt
    exact List.isChain_cons_cons.mpr ⟨hle.trans_lt hlead, ih hend hrest hle'⟩

theorem apart_wakings (hl : ladder.Usable) (hr : ladder.rungs = first :: below)
    (htimer : 0 < first.timer) (hfree : first.promotion = none)
    (h : Burst.InSequence duration bursts) : Waking.Apart (ladder.wakings bursts) := by
  cases bursts with
  | nil => exact .nil
  | cons burst rest =>
    obtain ⟨h0, hle, hrest⟩ := h
    exact apart_cons_wakingsAfter hl hr htimer hfree (h0.trans hle) hrest hle

end Ladder
end BurstEnergy.Radio
