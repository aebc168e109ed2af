import BurstEnergy.Proofs.Radio.Descent
import BurstEnergy.Proofs.Radio.Plan
import BurstEnergy.Proofs.Scalar.Binary64

/-!
# The radio at one moment

What state the radio is in at a time, told without any list of intervals: the active state during
a burst, the way down after it, and before the next one the promotion that the position of that
burst calls for. The simulation shows exactly this at every moment of the trace. Dropping empty
intervals and joining neighbours never changes what a moment shows.
-/
namespace BurstEnergy.Radio
open Scalar (Lawful IsAmount)
variable {α : Type} [Scalar α]

/-- What low-power time shows: the promotion once it has begun, and `low` otherwise. -/
def waiting (promotion : Option (Promotion α)) (since beginTime t : α) (low : Mode) : Mode :=
  match promotion with
  | some p => if Scalar.larger (beginTime - p.delay) since ≤ t then (p.state, false) else low
  | none => low

namespace Ladder

/-- The active state during a burst, and something else before it and after it. -/
def around (ladder : Ladder α) (burst : Burst α) (t : α) (before after : Mode) : Mode :=
  if t < burst.beginTime then before
  else if t < burst.endTime then (ladder.active, false)
  else after

/-- What the radio shows at a time after a release, with these bursts still to come. -/
def phaseAfter (ladder : Ladder α) (t released : α) : List (Burst α) → Mode
  | [] => ladder.descent released t
  | burst :: rest =>
    let position := ladder.position released burst.beginTime
    ladder.around burst t
      (waiting (ladder.promotionAt position) position.since burst.beginTime t
        (ladder.descent released t))
      (ladder.phaseAfter t burst.endTime rest)

/-- What the radio shows at a time of a trace with these bursts. -/
def phase (ladder : Ladder α) (t : α) : List (Burst α) → Mode
  | [] => (ladder.idle, false)
  | burst :: rest =>
    ladder.around burst t
      (waiting ladder.idlePromotion 0 burst.beginTime t (ladder.idle, false))
      (ladder.phaseAfter t burst.endTime rest)

section Phase
variable [Lawful α] {ladder : Ladder α} {since released beginTime duration t : α}
  {bursts : List (Burst α)} {i : StateInterval α}

/-- Before its low-power time begins, a promotion does not show. -/
theorem waiting_of_lt {promotion : Option (Promotion α)} {low : Mode}
    (hp : UsablePromotion promotion) (h0 : 0 ≤ since) (hb : 0 ≤ beginTime) (ht : t < since) :
    waiting promotion since beginTime t low = low := by
  cases promotion with
  | none => rfl
  | some p =>
    have hd : IsAmount p.delay := hp p rfl
    have hself := Scalar.le_self_left (Lawful.sub_le hb hd.nonneg hd.1)
    have hlow : since ≤ Scalar.larger (beginTime - p.delay) since :=
      Scalar.le_larger_right hself (Scalar.le_self_right h0)
    exact if_neg (Scalar.not_le_of_lt (Scalar.lt_of_lt_of_le ht hlow))

theorem mode_of_mem_resume {state : State} {tail : Bool} {promotion : Option (Promotion α)}
    (hi : i ∈ resume state tail promotion since beginTime) (ht : i.Covers t) :
    i.mode = waiting promotion since beginTime t (state, tail) := by
  cases promotion with
  | none =>
    obtain rfl := List.mem_singleton.mp hi
    rfl
  | some p =>
    rcases List.mem_cons.mp hi with rfl | hi
    · exact (if_neg (Scalar.not_le_of_lt ht.2)).symm
    · obtain rfl := List.mem_singleton.mp hi
      exact (if_pos ht.1).symm

theorem covers_bounds {lo hi : α} {l : List (StateInterval α)} (hpath : StateInterval.Path lo hi l)
    (hi' : i ∈ l) (ht : i.Covers t) : lo ≤ t ∧ t < hi := by
  obtain ⟨hlo, -, hhi⟩ := hpath.bounds hi'
  exact ⟨Lawful.le_trans hlo ht.1, Scalar.lt_of_lt_of_le ht.2 hhi⟩

/-- A rung passed on the way shows the way down, and no promotion yet. -/
theorem mode_of_mem_passed (hl : ladder.Usable) (h0 : 0 ≤ released) (hb : 0 ≤ beginTime) {n : ℕ}
    {promotion : Option (Promotion α)} (hp : UsablePromotion promotion)
    (hi : i ∈ passed released (ladder.rungs.take n)) (ht : i.Covers t) :
    i.mode = waiting promotion (deadline ladder.rungs released n) beginTime t
      (ladder.descent released t) := by
  obtain ⟨k, hk, rung, hrung, rfl⟩ := exists_rung_of_mem_passed hi
  have hlow := le_deadline hl.timer h0 n
  have hlater := deadline_mono hl.timer h0 (show k + 1 ≤ n by omega)
  rw [waiting_of_lt hp (Lawful.le_trans h0 hlow) hb (Scalar.lt_of_lt_of_le ht.2 hlater),
    descent_of_window hl h0 hrung ht.1 ht.2]
  rfl

/-- Between a release and a burst, every planned interval shows the way down or the promotion. -/
theorem mode_of_mem_wakeAfter (hl : ladder.Usable) (h0 : 0 ≤ released) (h : released ≤ beginTime)
    (hi : i ∈ ladder.wakeAfter released beginTime) (ht : i.Covers t) :
    i.mode = waiting (ladder.promotionAt (ladder.position released beginTime))
      (ladder.position released beginTime).since beginTime t (ladder.descent released t) := by
  have hb : 0 ≤ beginTime := Lawful.le_trans h0 h
  have hreach (k : ℕ) : 0 ≤ deadline ladder.rungs released k :=
    Lawful.le_trans h0 (le_deadline hl.timer h0 k)
  rcases ladder.position_spec released beginTime with
    ⟨k, rung, hk, hpos, hle, hpast⟩ | ⟨hpos, hpast⟩
  · have husable := hl.promotion rung (List.mem_of_getElem? hk)
    rw [wakeAfter_of_rung hpos hk] at hi
    rw [hpos, promotionAt_rung hk]
    rcases List.mem_append.mp hi with hi | hi
    · exact mode_of_mem_passed hl h0 hb husable hi ht
    · have hsince := deadline_le_of_passed hl.timer h0 h hpast
      obtain ⟨hlo, hhi⟩ := covers_bounds (path_resume husable (hreach k) hsince) hi ht
      have hrung : ladder.descent released t = (rung.state, true) :=
        descent_of_window hl h0 hk hlo (Scalar.lt_of_lt_of_le hhi hle)
      rw [hrung]
      exact mode_of_mem_resume hi ht
  · rw [wakeAfter_of_idle hpos] at hi
    rw [hpos]
    rcases List.mem_append.mp hi with hi | hi
    · rw [← ladder.rungs.take_length] at hi
      exact mode_of_mem_passed hl h0 hb hl.idlePromotion hi ht
    · have hsince := deadline_le_of_passed hl.timer h0 h hpast
      obtain ⟨hlo, -⟩ := covers_bounds (path_resume hl.idlePromotion (hreach _) hsince) hi ht
      have hidle : ladder.descent released t = (ladder.idle, false) :=
        descent_of_expired hl h0 hlo
      rw [hidle]
      exact mode_of_mem_resume hi ht

theorem mode_of_mem_settle (hl : ladder.Usable) (h0 : 0 ≤ released)
    (hi : i ∈ ladder.settle released duration) (ht : i.Covers t) :
    i.mode = ladder.descent released t := by
  rcases exists_rung_of_mem_settleFrom hl.timer h0 hi with ⟨k, rung, hk, hstart, hstop, hmode⟩ | rfl
  · have hlo : deadline ladder.rungs released k ≤ t := hstart ▸ ht.1
    rw [hmode, descent_of_window hl h0 hk hlo (Scalar.lt_of_lt_of_le ht.2 hstop)]
  · exact (descent_of_expired hl h0 ht.1).symm

/-- A plan shows a burst where it lies, and its parts before and after it. -/
theorem mode_of_mem_around {burst : Burst α} {front back : List (StateInterval α)} {lo hi : α}
    {before after : Mode} (hle : burst.beginTime ≤ burst.endTime)
    (hfront : StateInterval.Path lo burst.beginTime front)
    (hback : StateInterval.Path burst.endTime hi back)
    (hbefore : i ∈ front → i.mode = before) (hafter : i ∈ back → i.mode = after)
    (hi' : i ∈ front ++ ladder.transfer burst :: back) (ht : i.Covers t) :
    i.mode = ladder.around burst t before after := by
  rw [around]
  rcases List.mem_append.mp hi' with hi' | hi'
  · rw [if_pos (covers_bounds hfront hi' ht).2]
    exact hbefore hi'
  · rcases List.mem_cons.mp hi' with hi' | hi'
    · have hactive : burst.beginTime ≤ t ∧ t < burst.endTime := by
        rw [hi'] at ht
        exact ht
      rw [if_neg (Scalar.not_lt_of_le hactive.1), if_pos hactive.2, hi']
      rfl
    · have hreached := (covers_bounds hback hi' ht).1
      rw [if_neg (Scalar.not_lt_of_le (Lawful.le_trans hle hreached)),
        if_neg (Scalar.not_lt_of_le hreached)]
      exact hafter hi'

/-- After a release, every planned interval shows the phase. -/
theorem mode_of_mem_planAfter (hl : ladder.Usable) (h0 : 0 ≤ released)
    (hb : Burst.Follow duration released bursts)
    (hi : i ∈ ladder.planAfter duration released bursts) (ht : i.Covers t) :
    i.mode = ladder.phaseAfter t released bursts := by
  induction bursts generalizing released with
  | nil => exact mode_of_mem_settle hl h0 hi ht
  | cons burst rest ih =>
    obtain ⟨hlt, hle, hrest⟩ := hb
    have hbegin : released ≤ burst.beginTime := Scalar.le_of_lt hlt
    have hend : 0 ≤ burst.endTime := Lawful.le_trans h0 (Lawful.le_trans hbegin hle)
    exact mode_of_mem_around hle (path_wakeAfter hl h0 hbegin) (path_planAfter hl hend hrest)
      (fun hi => mode_of_mem_wakeAfter hl h0 hbegin hi ht) (fun hi => ih hend hrest hi) hi ht

/-- Every planned interval shows the phase. -/
theorem mode_of_mem_schedule (hl : ladder.Usable) (hb : Burst.InSequence duration bursts)
    (hi : i ∈ ladder.schedule duration bursts) (ht : i.Covers t) :
    i.mode = ladder.phase t bursts := by
  cases bursts with
  | nil =>
    obtain rfl := List.mem_singleton.mp hi
    rfl
  | cons burst rest =>
    obtain ⟨h0, hle, hrest⟩ := hb
    have hend : 0 ≤ burst.endTime := Lawful.le_trans h0 hle
    have hwake : StateInterval.Path 0 burst.beginTime (ladder.wakeFirst burst.beginTime) :=
      path_resume hl.idlePromotion Lawful.zero_le_zero h0
    exact mode_of_mem_around hle hwake (path_planAfter hl hend hrest)
      (fun hi => mode_of_mem_resume hi ht)
      (fun hi => mode_of_mem_planAfter hl hend hrest hi ht) hi ht

end Phase
end Ladder

/-- At every moment of the trace the simulation shows the phase of that moment: some interval
covers it, and every interval that does has its mode. A burst that begins just at a deadline finds
the radio on the first rung with this deadline: the timer has not fired. -/
theorem simulate_refines_phase [Lawful α] {profile : Profile α} (hp : profile.validate = .ok ())
    {duration : α} {bursts : List (Burst α)} (hb : Burst.InSequence duration bursts) :
    let ladder := Ladder.ofProfile profile
    let deadline := Ladder.deadline ladder.rungs
    (∀ t, 0 ≤ t → t < duration →
      (∃ i ∈ ladder.simulate bursts duration, i.Covers t) ∧
      ∀ i ∈ ladder.simulate bursts duration, i.Covers t → i.mode = ladder.phase t bursts) ∧
    ∀ released k, 0 ≤ released → k < ladder.rungs.length →
      ∃ j ≤ k,
        ladder.position released (deadline released (k + 1)) = .rung j (deadline released j) ∧
        Scalar.Agree (deadline released (j + 1)) (deadline released (k + 1)) ∧
        ∀ i < j, deadline released (i + 1) < deadline released (k + 1) := by
  intro ladder deadline
  have hl : ladder.Usable := Ladder.usable_ofProfile hp
  constructor
  · intro t h0 ht
    have hd : 0 < duration := Scalar.lt_of_le_of_lt h0 ht
    have hpath := Ladder.path_schedule hl hb
    rw [Ladder.simulate_eq_joined hl hb hd]
    refine ⟨hpath.joined.exists_covers h0 ht, fun i hi hcovers => ?_⟩
    obtain ⟨p, hp, hpcovers, hmode⟩ := StateInterval.exists_covers_of_mem_joined hi hcovers
    rw [← hmode]
    exact Ladder.mode_of_mem_schedule hl hb hp hpcovers
  · intro released k h0 hk
    exact Ladder.position_of_deadline hl h0 hk

/-- The standard profile shows what its phases say, exactly and in binary64. -/
theorem simulate_refines_phase_standard :
    (∀ i ∈ (Ladder.ofProfile (.standard : Profile Rat)).simulate
        [.fresh 1 1.5 ⟨0, 2⟩ 0, .fresh 6.5 6.5 ⟨2, 3⟩ 0] 30, i.Covers 6 →
      i.mode = (.dch, true)) ∧
    (∀ i ∈ (Ladder.ofProfile (.standard : Profile Float)).simulate
        [.fresh 1 1.5 ⟨0, 2⟩ 0, .fresh 6.5 6.5 ⟨2, 3⟩ 0] 30, i.Covers 6 →
      i.mode = (.dch, true)) := by
  have hp : (Profile.standard : Profile Rat).validate = .ok () := by decide +kernel
  have hp' : (Profile.standard : Profile Float).validate = .ok () := by decide +kernel
  constructor
  · intro i hi ht
    rw [((simulate_refines_phase hp (by decide +kernel)).1 6 (by decide +kernel)
      (by decide +kernel)).2 i hi ht]
    decide +kernel
  · intro i hi ht
    rw [((simulate_refines_phase hp' (by decide +kernel)).1 6 (by decide +kernel)
      (by decide +kernel)).2 i hi ht]
    decide +kernel

end BurstEnergy.Radio
