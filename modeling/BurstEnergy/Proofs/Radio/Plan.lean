import BurstEnergy.Proofs.Burst.Segments
import BurstEnergy.Proofs.Profile.Validation
import BurstEnergy.Proofs.Radio.Coalescing
import BurstEnergy.Radio.Simulation

/-!
# The planned intervals

Bursts in order of time are planned as one path from zero to the end of the trace, whatever the
timers and delays are and wherever the arithmetic rounds to. The simulation reports this path
joined; a trace without length is one idle interval.
-/
namespace BurstEnergy.Radio.Ladder
open Scalar (Agree Lawful IsAmount)
open StateInterval (Path joined)
variable {α : Type} [Scalar α]

/-- What lies between `since` and a burst when these rungs are left to pass. -/
def wakeFrom (ladder : Ladder α) (since beginTime : α) : List (Rung α) → List (StateInterval α)
  | [] => resume ladder.idle false ladder.idlePromotion since beginTime
  | rung :: rest =>
    if beginTime ≤ since + rung.timer then resume rung.state true rung.promotion since beginTime
    else ⟨since, since + rung.timer, rung.state, true⟩
      :: ladder.wakeFrom (since + rung.timer) beginTime rest

/-- The planned intervals, the idle one of a trace without bursts included. -/
def schedule (ladder : Ladder α) (duration : α) : List (Burst α) → List (StateInterval α)
  | [] => [⟨0, duration, ladder.idle, false⟩]
  | burst :: rest => ladder.plan duration (burst :: rest)

/-- Finding the position among the rungs below `stage` and passing those above it is one walk
down. -/
theorem match_positionFrom (ladder : Ladder α) (stage : Nat) (since beginTime : α)
    (rungs : List (Rung α)) :
    (match positionFrom stage since beginTime rungs with
      | .rung k at_ => passed since (rungs.take (k - stage))
          ++ (rungs[k - stage]?.toList.flatMap fun rung =>
                resume rung.state true rung.promotion at_ beginTime)
      | .idle at_ => passed since rungs
          ++ resume ladder.idle false ladder.idlePromotion at_ beginTime)
      = ladder.wakeFrom since beginTime rungs := by
  induction rungs generalizing stage since with
  | nil => rfl
  | cons rung rest ih =>
    rw [positionFrom, wakeFrom]
    by_cases hd : beginTime ≤ since + rung.timer
    · simp [hd, passed]
    · rw [if_neg hd, if_neg hd, ← ih (stage + 1) (since + rung.timer)]
      cases hp : positionFrom (stage + 1) (since + rung.timer) beginTime rest with
      | idle at_ => rfl
      | rung k at_ =>
        have hk := (stage_lt_of_positionFrom hp).1
        have hs : k - stage = k - (stage + 1) + 1 := by omega
        simp only [hs, List.take_succ_cons, List.getElem?_cons_succ, passed, List.cons_append]

theorem wakeAfter_eq_wakeFrom (ladder : Ladder α) (released beginTime : α) :
    ladder.wakeAfter released beginTime = ladder.wakeFrom released beginTime ladder.rungs :=
  ladder.match_positionFrom 0 released beginTime ladder.rungs

section Path
variable [Lawful α] {ladder : Ladder α} {since released beginTime duration : α}

theorem path_resume {state : State} {tail : Bool} {promotion : Option (Promotion α)}
    (hp : UsablePromotion promotion) (h0 : 0 ≤ since) (h : since ≤ beginTime) :
    Path since beginTime (resume state tail promotion since beginTime) := by
  cases promotion with
  | none => exact StateInterval.path_singleton h
  | some p =>
    have hd : IsAmount p.delay := hp p rfl
    have hb : 0 ≤ beginTime := Lawful.le_trans h0 h
    have hsub : beginTime - p.delay ≤ beginTime := Lawful.sub_le hb hd.nonneg hd.1
    have hlow : since ≤ Scalar.larger (beginTime - p.delay) since :=
      Scalar.le_larger_right (Scalar.le_self_left hsub) (Scalar.le_self_right h0)
    have hhigh : Scalar.larger (beginTime - p.delay) since ≤ beginTime :=
      Scalar.larger_le hsub h
    exact StateInterval.path_cons hlow (StateInterval.path_singleton hhigh)

theorem path_wakeFrom (hidle : UsablePromotion ladder.idlePromotion) {rungs : List (Rung α)}
    (ht : ∀ rung ∈ rungs, IsAmount rung.timer)
    (hp : ∀ rung ∈ rungs, UsablePromotion rung.promotion) (h0 : 0 ≤ since)
    (h : since ≤ beginTime) : Path since beginTime (ladder.wakeFrom since beginTime rungs) := by
  induction rungs generalizing since with
  | nil => exact path_resume hidle h0 h
  | cons rung rest ih =>
    rw [List.forall_mem_cons] at ht hp
    have hd : since ≤ since + rung.timer := Lawful.le_add h0 ht.1.nonneg
    rw [wakeFrom]
    split
    · exact path_resume hp.1 h0 h
    · next hlate =>
      have hpast : since + rung.timer ≤ beginTime :=
        Scalar.le_of_lt (Scalar.lt_of_not_le (Scalar.le_self_right h) (Scalar.le_self_right hd)
          hlate)
      exact StateInterval.path_cons hd (ih ht.2 hp.2 (Lawful.le_trans h0 hd) hpast)

theorem path_wakeAfter (hl : ladder.Usable) (h0 : 0 ≤ released) (h : released ≤ beginTime) :
    Path released beginTime (ladder.wakeAfter released beginTime) := by
  rw [wakeAfter_eq_wakeFrom]
  exact path_wakeFrom hl.idlePromotion hl.timer hl.promotion h0 h

theorem path_settleFrom {lowest : State} {rungs : List (Rung α)}
    (ht : ∀ rung ∈ rungs, IsAmount rung.timer) (h0 : 0 ≤ since) (h : since ≤ duration) :
    Path since duration (settleFrom lowest since duration rungs) := by
  induction rungs generalizing since with
  | nil => exact StateInterval.path_singleton h
  | cons rung rest ih =>
    rw [List.forall_mem_cons] at ht
    have hd : since ≤ since + rung.timer := Lawful.le_add h0 ht.1.nonneg
    unfold settleFrom
    dsimp only
    split
    · exact StateInterval.path_singleton h
    · next hlate =>
      have hpast : since + rung.timer ≤ duration :=
        Scalar.le_of_lt (Scalar.lt_of_not_le (Scalar.le_self_right h) (Scalar.le_self_right hd)
          hlate)
      exact StateInterval.path_cons hd (ih ht.2 (Lawful.le_trans h0 hd) hpast)

theorem path_planAfter (hl : ladder.Usable) {bursts : List (Burst α)} (h0 : 0 ≤ released)
    (h : Burst.Follow duration released bursts) :
    Path released duration (ladder.planAfter duration released bursts) := by
  induction bursts generalizing released with
  | nil => exact path_settleFrom hl.timer h0 h
  | cons burst rest ih =>
    obtain ⟨hlt, hle, hrest⟩ := h
    have hwake := path_wakeAfter hl h0 (Scalar.le_of_lt hlt)
    have hend : 0 ≤ burst.endTime :=
      Lawful.le_trans h0 (Lawful.le_trans (Scalar.le_of_lt hlt) hle)
    exact hwake.append (StateInterval.path_cons hle (ih hend hrest))

/-- Bursts in order of time are planned as one path through the whole trace. -/
theorem path_schedule (hl : ladder.Usable) {bursts : List (Burst α)}
    (h : Burst.InSequence duration bursts) :
    Path 0 duration (ladder.schedule duration bursts) := by
  cases bursts with
  | nil => exact StateInterval.path_singleton h
  | cons burst rest =>
    obtain ⟨h0, hle, hrest⟩ := h
    have hwake : Path 0 burst.beginTime (ladder.wakeFirst burst.beginTime) :=
      path_resume hl.idlePromotion Lawful.zero_le_zero h0
    have hafter := path_planAfter hl (Lawful.le_trans h0 hle) hrest
    exact hwake.append (StateInterval.path_cons hle hafter)

/-- The simulation reports the planned path joined. -/
theorem simulate_eq_joined (hl : ladder.Usable) {bursts : List (Burst α)}
    (h : Burst.InSequence duration bursts) (hd : 0 < duration) :
    ladder.simulate bursts duration = joined (ladder.schedule duration bursts) := by
  cases bursts with
  | nil =>
    have hne : ¬ duration ≤ 0 := Scalar.not_le_of_lt hd
    simp [simulate, plan, padLatest, schedule, joined, hne, StateInterval.attach]
  | cons burst rest =>
    have hpath := (path_schedule hl h).joined
    unfold simulate
    have hrev := StateInterval.reverse_foldl_extend (ladder.plan duration (burst :: rest)) []
    cases hacc : (ladder.plan duration (burst :: rest)).foldl StateInterval.extend [] with
    | nil =>
      rw [hacc] at hrev
      change [] = joined (ladder.schedule duration (burst :: rest)) at hrev
      rw [← hrev] at hpath
      exact absurd hpath.2 (Scalar.not_le_of_lt hd)
    | cons latest earlier =>
      rw [hacc] at hrev
      change (latest :: earlier).reverse = joined (ladder.schedule duration (burst :: rest)) at hrev
      have hstop : Agree latest.stop duration := hpath.agree_last (by rw [← hrev]; simp)
      rw [padLatest, if_neg (Scalar.not_lt_of_le hstop.2), hrev]

/-- A trace without length is one idle interval. -/
theorem simulate_of_no_length (hl : ladder.Usable) {bursts : List (Burst α)}
    (h : Burst.InSequence duration bursts) (hd : duration ≤ 0) :
    ladder.simulate bursts duration = [⟨0, duration, ladder.idle, false⟩] := by
  cases bursts with
  | nil => rfl
  | cons burst rest =>
    have hnone : joined (ladder.schedule duration (burst :: rest)) = [] :=
      (path_schedule hl h).joined_eq_nil hd
    have hrev := StateInterval.reverse_foldl_extend (ladder.plan duration (burst :: rest)) []
    have hacc : (ladder.plan duration (burst :: rest)).foldl StateInterval.extend [] = [] :=
      List.reverse_eq_nil_iff.mp (hrev.trans hnone)
    rw [simulate, hacc]
    rfl

/-- The simulation reports one path through the whole trace. -/
theorem path_simulate (hl : ladder.Usable) {bursts : List (Burst α)}
    (h : Burst.InSequence duration bursts) :
    Path 0 duration (ladder.simulate bursts duration) := by
  have hpath := path_schedule hl h
  by_cases hd : 0 < duration
  · rw [simulate_eq_joined hl h hd]
    exact hpath.joined
  · have h0 : duration ≤ 0 :=
      Scalar.le_of_not_lt Lawful.zero_le_zero (Scalar.le_self_right hpath.le) hd
    rw [simulate_of_no_length hl h h0]
    exact StateInterval.path_singleton hpath.le

end Path
end BurstEnergy.Radio.Ladder
