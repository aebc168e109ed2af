import BurstEnergy.Burst.Segmentation
import BurstEnergy.Profile
import BurstEnergy.Radio.State

/-!
# Simulation

The ways between the states of a family, and what bursts make of them.
-/
namespace BurstEnergy.Radio

/-! ## Demotion ladders

All radio families share one shape. Traffic holds the active state; silence walks down a ladder
of rungs, one inactivity timer after the other, until the radio is idle; traffic that arrives on
a low rung or in idle may first pay a promotion. A `Ladder` holds what differs: the rungs, their
timers and the promotions.
-/
section Ladders
variable {α : Type}

/-- A delay, spent in a state of its own, before the active state resumes. -/
structure Promotion (α : Type) where
  state : State
  /-- Seconds. -/
  delay : α
  deriving DecidableEq

/-- One rung of the way down. -/
structure Rung (α : Type) where
  state : State
  /-- Seconds spent here before the next rung. -/
  timer : α
  /-- What traffic pays that resumes from here. -/
  promotion : Option (Promotion α)
  deriving DecidableEq

/-- Where the radio is when traffic resumes: on a rung, or idle, and since when. -/
inductive Position (α : Type) where
  | rung (stage : Nat) (since : α)
  | idle (since : α)
  deriving DecidableEq

/-- The states of one family and the ways between them. -/
structure Ladder (α : Type) where
  family : Family
  /-- Held while traffic flows. -/
  active : State
  rungs : List (Rung α)
  idle : State
  /-- What traffic pays that resumes from idle. -/
  idlePromotion : Option (Promotion α)
  deriving DecidableEq

namespace Ladder

def ofRadio : Profile.RadioModel α → Ladder α
  | .umts r =>
    { family := .cellular3G
      active := .dch
      rungs :=
        [⟨.dch, r.dchTail, none⟩,
         ⟨.fach, r.fachTail, some ⟨.fachToDchPromotion, r.fachToDchPromotion⟩⟩]
      idle := .idle
      idlePromotion := some ⟨.idleToDchPromotion, r.idleToDchPromotion⟩ }
  | .lte r =>
    { family := .cellularLte
      active := .continuousReception
      rungs :=
        [⟨.continuousReceptionTail, r.crTail, none⟩, ⟨.shortDrx, r.shortDrx, none⟩,
         ⟨.longDrx, r.longDrx, none⟩]
      idle := .lteIdle
      idlePromotion := some ⟨.idleToCrPromotion, r.promotion⟩ }
  | .wifi r =>
    { family := .wifi
      active := .wifiActive
      rungs := [⟨.wifiTail, r.wifiTail, none⟩]
      idle := .wifiIdle
      idlePromotion := none }

def ofProfile (profile : Profile α) : Ladder α := ofRadio profile.radio

/-- The state of the rung that directly follows traffic. -/
def firstTail (ladder : Ladder α) : Option State := ladder.rungs.head?.map (·.state)

@[simp] theorem family_ofRadio (r : Profile.RadioModel α) : (ofRadio r).family = r.family := by
  cases r <;> rfl

@[simp] theorem active_ofRadio (r : Profile.RadioModel α) :
    (ofRadio r).active = r.family.activeState := by
  cases r <;> rfl

@[simp] theorem idle_ofRadio (r : Profile.RadioModel α) :
    (ofRadio r).idle = r.family.idleState := by
  cases r <;> rfl

variable [Scalar α]

/-- The silence it takes to become idle. -/
def totalTail (ladder : Ladder α) : α := Scalar.sum (ladder.rungs.map (·.timer))

/-- The position at a time, among the rungs left to pass: the first of them is number `stage` and
began at `since`. A timer that runs out just then has not fired. -/
def positionFrom (stage : Nat) (since time : α) : List (Rung α) → Position α
  | [] => .idle since
  | rung :: rest =>
    if time ≤ since + rung.timer then .rung stage since
    else positionFrom (stage + 1) (since + rung.timer) time rest

def position (ladder : Ladder α) (released time : α) : Position α :=
  positionFrom 0 released time ladder.rungs

theorem stage_lt_of_positionFrom {stage : Nat} {since time : α} {rungs : List (Rung α)}
    {k : Nat} {t : α} (h : positionFrom stage since time rungs = .rung k t) :
    stage ≤ k ∧ k < stage + rungs.length := by
  induction rungs generalizing stage since with
  | nil => simp [positionFrom] at h
  | cons rung rest ih =>
    unfold positionFrom at h
    split at h
    · cases h
      simp
    · have := ih h
      simp only [List.length_cons]
      omega

theorem stage_lt_of_position {ladder : Ladder α} {released time : α} {k : Nat} {t : α}
    (h : ladder.position released time = .rung k t) : k < ladder.rungs.length := by
  have := stage_lt_of_positionFrom h
  omega

end Ladder

end Ladders

/-! ## Simulation of the radio

`simulate` replays bursts against a ladder and tells which state the radio was in when. Each
burst adds the rungs passed since the last one, the rung or idle time it interrupts, the
promotion it pays, and its own transfer. A promotion is cut out of the low-power time before the
burst, so that the active state starts just when the burst begins. The planned intervals are
coalesced, and the last one is brought to the end of the trace.
-/
section Plans
variable {α : Type} [Scalar α]

namespace Ladder

/-- The tail intervals of rungs passed from `since` on. -/
def passed (since : α) : List (Rung α) → List (StateInterval α)
  | [] => []
  | rung :: rest =>
    ⟨since, since + rung.timer, rung.state, true⟩ :: passed (since + rung.timer) rest

/-- The low-power time from `since` to `begin`, the end of it taken by the promotion if there is
one: no more than there is. -/
def resume (state : State) (tail : Bool) (promotion : Option (Promotion α))
    (since beginTime : α) : List (StateInterval α) :=
  match promotion with
  | none => [⟨since, beginTime, state, tail⟩]
  | some p =>
    let lowEnd := Scalar.larger (beginTime - p.delay) since
    [⟨since, lowEnd, state, tail⟩, ⟨lowEnd, beginTime, p.state, false⟩]

/-- What lies between the release at `released` and a burst, which finds the radio on a rung or
in idle. -/
def wakeAfter (ladder : Ladder α) (released beginTime : α) : List (StateInterval α) :=
  match ladder.position released beginTime with
  | .rung stage since =>
    passed released (ladder.rungs.take stage)
      ++ (ladder.rungs[stage]?.toList.flatMap fun rung =>
            resume rung.state true rung.promotion since beginTime)
  | .idle since =>
    passed released ladder.rungs
      ++ resume ladder.idle false ladder.idlePromotion since beginTime

/-- What lies before the first burst: the radio is idle from time zero. -/
def wakeFirst (ladder : Ladder α) (beginTime : α) : List (StateInterval α) :=
  resume ladder.idle false ladder.idlePromotion 0 beginTime

def transfer (ladder : Ladder α) (burst : Burst α) : StateInterval α :=
  ⟨burst.beginTime, burst.endTime, ladder.active, false⟩

/-- The way down that is left, from `since` until the end of the trace. -/
def settleFrom (lowest : State) (since duration : α) : List (Rung α) → List (StateInterval α)
  | [] => [⟨since, duration, lowest, false⟩]
  | rung :: rest =>
    let deadline := since + rung.timer
    if duration ≤ deadline then [⟨since, duration, rung.state, true⟩]
    else ⟨since, deadline, rung.state, true⟩ :: settleFrom lowest deadline duration rest

/-- What lies between the last release and the end of the trace. -/
def settle (ladder : Ladder α) (released duration : α) : List (StateInterval α) :=
  settleFrom ladder.idle released duration ladder.rungs

def planAfter (ladder : Ladder α) (duration released : α) : List (Burst α) → List (StateInterval α)
  | [] => ladder.settle released duration
  | burst :: rest =>
    ladder.wakeAfter released burst.beginTime ++ ladder.transfer burst
      :: planAfter ladder duration burst.endTime rest

/-- The planned intervals of a trace. Without bursts there are none. -/
def plan (ladder : Ladder α) (duration : α) : List (Burst α) → List (StateInterval α)
  | [] => []
  | burst :: rest =>
    ladder.wakeFirst burst.beginTime ++ ladder.transfer burst
      :: planAfter ladder duration burst.endTime rest

/-- Bring intervals to the end of the trace: one idle interval if there is none, and idle time
after the last if it ends early. The list is kept latest first. -/
def padLatest (lowest : State) (duration : α) : List (StateInterval α) → List (StateInterval α)
  | [] => [⟨0, duration, lowest, false⟩]
  | latest :: earlier =>
    if latest.stop < duration then
      StateInterval.extend (latest :: earlier) ⟨latest.stop, duration, lowest, false⟩
    else latest :: earlier

/-- The state intervals of the radio over a trace, for bursts in order of time that do not
overlap and end within it. -/
def simulate (ladder : Ladder α) (bursts : List (Burst α)) (duration : α) :
    List (StateInterval α) :=
  (padLatest ladder.idle duration
    ((ladder.plan duration bursts).foldl StateInterval.extend [])).reverse

end Ladder

end Plans

end BurstEnergy.Radio
