import BurstEnergy.Proofs.Radio.Descent
import BurstEnergy.Proofs.Radio.Plan

/-!
# What bursts pay to wake the radio

The times after a release fall into low-power time, in states that are no promotions, and the
promotion that the next burst pays, when it pays one that takes time. `wakings` lists the bursts
with these promotions, computed from positions and delays alone.
-/
namespace BurstEnergy.Radio
open StateInterval (Path)

/-- A burst as the radio sees it coming: when it begins, and the promotion planned for it. -/
structure Waking where
  beginTime : Rat
  /-- The promotion that the burst pays, if it takes any time. -/
  paid : Option (StateInterval Rat)

/-- When the radio starts to wake for a burst: with its promotion, or just with the burst. -/
def Waking.lead (waking : Waking) : Rat :=
  match waking.paid with
  | some p => p.start
  | none => waking.beginTime

/-- The promotion of a waking takes time and stops with its burst. -/
def Waking.Sound (waking : Waking) : Prop :=
  ∀ p, waking.paid = some p → p.start < p.stop ∧ p.stop = waking.beginTime

namespace Waking
variable {waking : Waking}

theorem Sound.lead_le (h : waking.Sound) : waking.lead ≤ waking.beginTime := by
  unfold lead
  split
  · next p hp => exact (h p hp).2 ▸ (h p hp).1.le
  · exact le_rfl

theorem lead_of_paid {p : StateInterval Rat} (hp : waking.paid = some p) :
    waking.lead = p.start := by
  rw [lead, hp]

end Waking

/-- The promotion cut out of the low-power time since `since`, if it takes any time. -/
def Promotion.paid (promotion : Promotion Rat) (since beginTime : Rat) :
    Option (StateInterval Rat) :=
  let start := max (beginTime - promotion.delay) since
  if start < beginTime then some ⟨start, beginTime, promotion.state, false⟩ else none

theorem Promotion.since_le_of_paid (promotion : Promotion Rat) {since beginTime : Rat}
    {p : StateInterval Rat} (h : promotion.paid since beginTime = some p) : since ≤ p.start := by
  unfold paid at h
  dsimp only at h
  split at h
  · obtain rfl := Option.some.inj h
    exact le_max_right _ _
  · cases h

namespace Ladder
variable {ladder : Ladder Rat} {since released beginTime duration : Rat}

/-- A burst that finds the radio at a position. -/
def wakingAt (ladder : Ladder Rat) (position : Position Rat) (beginTime : Rat) : Waking :=
  ⟨beginTime, (ladder.promotionAt position).bind (·.paid position.since beginTime)⟩

def wakingsAfter (ladder : Ladder Rat) (released : Rat) : List (Burst Rat) → List Waking
  | [] => []
  | burst :: rest =>
    ladder.wakingAt (ladder.position released burst.beginTime) burst.beginTime
      :: ladder.wakingsAfter burst.endTime rest

/-- The wakings of the bursts of a trace, of which the first finds the radio idle since zero. -/
def wakings (ladder : Ladder Rat) : List (Burst Rat) → List Waking
  | [] => []
  | burst :: rest =>
    ladder.wakingAt (.idle 0) burst.beginTime :: ladder.wakingsAfter burst.endTime rest

/-- Promotions are spent in states of their own. -/
structure PromotionsApart (ladder : Ladder Rat) : Prop where
  active : ladder.active.isPromotion = false
  idle : ladder.idle.isPromotion = false
  rung : ∀ rung ∈ ladder.rungs, rung.state.isPromotion = false
  promotion : ∀ rung ∈ ladder.rungs, ∀ p, rung.promotion = some p → p.state.isPromotion = true
  idlePromotion : ∀ p, ladder.idlePromotion = some p → p.state.isPromotion = true

theorem promotionsApart_ofProfile (profile : Profile Rat) :
    (Ladder.ofProfile profile).PromotionsApart := by
  unfold ofProfile
  cases profile.radio <;> constructor <;> simp [ofRadio, State.isPromotion]

end Ladder

/-- No interval is a promotion. -/
def Plain (intervals : List (StateInterval Rat)) : Prop :=
  ∀ i ∈ intervals, i.state.isPromotion = false

theorem Plain.singleton {i : StateInterval Rat} (h : i.state.isPromotion = false) :
    Plain [i] := by
  intro j hj
  obtain rfl := List.mem_singleton.mp hj
  exact h

theorem Plain.append {front back : List (StateInterval Rat)} (hf : Plain front)
    (hb : Plain back) : Plain (front ++ back) := by
  intro i hi
  rcases List.mem_append.mp hi with hi | hi
  · exact hf i hi
  · exact hb i hi

/-- Planned intervals between a release and a burst: plain time up to the lead of its waking, and
then its promotion. -/
inductive Wakes (released : Rat) : Waking → List (StateInterval Rat) → Prop
  | free {beginTime : Rat} {low rest : List (StateInterval Rat)} (hlow : Plain low)
      (hpath : Path released beginTime low) (hrest : Path beginTime beginTime rest) :
      Wakes released ⟨beginTime, none⟩ (low ++ rest)
  | paid {beginTime start : Rat} {state : State} {low : List (StateInterval Rat)}
      (hlow : Plain low) (hpath : Path released start low) (hstate : state.isPromotion = true)
      (hlt : start < beginTime) :
      Wakes released ⟨beginTime, some ⟨start, beginTime, state, false⟩⟩
        (low ++ [⟨start, beginTime, state, false⟩])

/-- The promotions among planned intervals that take any time. -/
def promotionsIn (planned : List (StateInterval Rat)) : List (StateInterval Rat) :=
  planned.filter fun i => i.state.isPromotion && decide (i.start < i.stop)

@[simp] theorem promotionsIn_append (front back : List (StateInterval Rat)) :
    promotionsIn (front ++ back) = promotionsIn front ++ promotionsIn back :=
  List.filter_append _ _

theorem Plain.promotionsIn_eq_nil {intervals : List (StateInterval Rat)} (h : Plain intervals) :
    promotionsIn intervals = [] := by
  refine List.filter_eq_nil_iff.mpr fun i hi => ?_
  simp [h i hi]

namespace Wakes
variable {released since : Rat} {waking : Waking} {wake front : List (StateInterval Rat)}

theorem prepend (h : Wakes since waking wake) (hfront : Plain front)
    (hpath : Path released since front) : Wakes released waking (front ++ wake) := by
  cases h with
  | free hlow hpath' hrest =>
    rw [← List.append_assoc]
    exact .free (hfront.append hlow) (hpath.append hpath') hrest
  | paid hlow hpath' hstate hlt =>
    rw [← List.append_assoc]
    exact .paid (hfront.append hlow) (hpath.append hpath') hstate hlt

/-- The promotion of the waking is the one that is planned. -/
theorem promotionsIn_eq (h : Wakes released waking wake) :
    promotionsIn wake = waking.paid.toList := by
  cases h with
  | @free beginTime low rest hlow hpath hrest =>
    have hempty : promotionsIn rest = [] := by
      refine List.filter_eq_nil_iff.mpr fun i hi => ?_
      have hb := hrest.bounds hi
      have hle : i.stop ≤ i.start := hb.2.2.trans hb.1
      simp [hle.not_gt]
    rw [promotionsIn_append, hlow.promotionsIn_eq_nil, hempty]
    rfl
  | paid hlow hpath hstate hlt =>
    rw [promotionsIn_append, hlow.promotionsIn_eq_nil]
    simp [promotionsIn, hstate, hlt]

theorem path (h : Wakes released waking wake) : Path released waking.beginTime wake := by
  cases h with
  | free hlow hpath hrest => exact hpath.append hrest
  | paid hlow hpath hstate hlt => exact hpath.append (StateInterval.path_singleton hlt.le)

theorem sound (h : Wakes released waking wake) : waking.Sound := by
  intro p hp
  cases h with
  | free hlow hpath hrest => cases hp
  | paid hlow hpath hstate hlt =>
    obtain rfl := Option.some.inj hp
    exact ⟨hlt, rfl⟩

theorem le_lead (h : Wakes released waking wake) : released ≤ waking.lead := by
  cases h with
  | free hlow hpath hrest => exact hpath.le
  | paid hlow hpath hstate hlt => exact hpath.le

end Wakes

namespace Ladder
variable {ladder : Ladder Rat} {since released beginTime : Rat}

/-- Low-power time and the promotion cut out of it. -/
theorem wakes_resume {state : State} {tail : Bool} {promotion : Option (Promotion Rat)}
    (hs : state.isPromotion = false)
    (hp : ∀ p, promotion = some p → p.state.isPromotion = true)
    (hd : UsablePromotion promotion) (h : since ≤ beginTime) :
    Wakes since ⟨beginTime, promotion.bind (·.paid since beginTime)⟩
      (resume state tail promotion since beginTime) := by
  have hplain {start stop : Rat} : Plain [⟨start, stop, state, tail⟩] := Plain.singleton hs
  cases promotion with
  | none =>
    have hnil : Path beginTime beginTime [] := ⟨le_rfl, le_rfl⟩
    have hfree := Wakes.free hplain (StateInterval.path_singleton h) hnil
    exact hfree
  | some p =>
    have hdelay : 0 ≤ p.delay := (hd p rfl).nonneg
    have hlow : since ≤ max (beginTime - p.delay) since := le_max_right _ _
    have hhigh : max (beginTime - p.delay) since ≤ beginTime :=
      max_le (sub_le_self _ hdelay) h
    have hresume : resume state tail (some p) since beginTime =
        [⟨since, max (beginTime - p.delay) since, state, tail⟩] ++
          [⟨max (beginTime - p.delay) since, beginTime, p.state, false⟩] := by
      simp only [resume, Scalar.larger_eq_max]
      rfl
    rw [hresume, Option.bind_some, Promotion.paid]
    split
    · next hlt => exact .paid hplain (StateInterval.path_singleton hlow) (hp p rfl) hlt
    · next hge =>
      have heq : max (beginTime - p.delay) since = beginTime :=
        le_antisymm hhigh (not_lt.mp hge)
      rw [heq]
      exact .free hplain (StateInterval.path_singleton h) (StateInterval.path_singleton le_rfl)

theorem plain_passed (ha : ladder.PromotionsApart) (n : ℕ) :
    Plain (passed released (ladder.rungs.take n)) := by
  intro i hi
  obtain ⟨k, -, rung, hk, rfl⟩ := exists_rung_of_mem_passed hi
  exact ha.rung rung (List.mem_of_getElem? hk)

/-- What is planned between a release and a burst wakes the radio for it. -/
theorem wakes_wakeAfter (hl : ladder.Usable) (ha : ladder.PromotionsApart) (h0 : 0 ≤ released)
    (h : released ≤ beginTime) :
    Wakes released (ladder.wakingAt (ladder.position released beginTime) beginTime)
      (ladder.wakeAfter released beginTime) := by
  rcases ladder.position_spec released beginTime with
    ⟨k, rung, hk, hpos, -, hpast⟩ | ⟨hpos, hpast⟩
  · have hmem := List.mem_of_getElem? hk
    have hsince := deadline_le_of_passed hl.timer h0 h hpast
    rw [wakeAfter_of_rung hpos hk, hpos, wakingAt, promotionAt_rung hk]
    exact (wakes_resume (ha.rung rung hmem) (ha.promotion rung hmem) (hl.promotion rung hmem)
      hsince).prepend (plain_passed ha k) (path_passed hl.timer h0 k)
  · have hsince := deadline_le_of_passed hl.timer h0 h hpast
    have hpath := path_passed hl.timer h0 ladder.rungs.length
    have hplain : Plain (passed released (ladder.rungs.take ladder.rungs.length)) :=
      plain_passed ha _
    rw [List.take_length] at hpath hplain
    rw [wakeAfter_of_idle hpos, hpos, wakingAt]
    exact (wakes_resume ha.idle ha.idlePromotion hl.idlePromotion hsince).prepend hplain hpath

theorem wakes_wakeFirst (hl : ladder.Usable) (ha : ladder.PromotionsApart) (h : 0 ≤ beginTime) :
    Wakes 0 (ladder.wakingAt (.idle 0) beginTime) (ladder.wakeFirst beginTime) :=
  wakes_resume ha.idle ha.idlePromotion hl.idlePromotion h

/-- Nothing wakes the radio after the last burst. -/
theorem plain_settle (hl : ladder.Usable) (ha : ladder.PromotionsApart) (h0 : 0 ≤ released)
    {duration : Rat} : Plain (ladder.settle released duration) := by
  intro i hi
  rcases exists_rung_of_mem_settleFrom hl.timer h0 hi with ⟨k, rung, hk, -, -, hmode⟩ | rfl
  · have hstate : i.state = rung.state := congrArg Prod.fst hmode
    rw [hstate]
    exact ha.rung rung (List.mem_of_getElem? hk)
  · exact ha.idle

section Promotions
variable {duration : Rat} {burst : Burst Rat} {bursts : List (Burst Rat)}

theorem promotionsIn_transfer (ha : ladder.PromotionsApart) (rest : List (StateInterval Rat)) :
    promotionsIn (ladder.transfer burst :: rest) = promotionsIn rest := by
  simp [promotionsIn, transfer, ha.active]

theorem promotionsIn_planAfter (hl : ladder.Usable) (ha : ladder.PromotionsApart)
    (h0 : 0 ≤ released) (h : Burst.Follow duration released bursts) :
    promotionsIn (ladder.planAfter duration released bursts) =
      (ladder.wakingsAfter released bursts).filterMap (·.paid) := by
  induction bursts generalizing released with
  | nil => exact (plain_settle hl ha h0).promotionsIn_eq_nil
  | cons burst rest ih =>
    obtain ⟨hlt, hle, hrest⟩ := h
    have hend : 0 ≤ burst.endTime := h0.trans (hlt.le.trans hle)
    rw [planAfter, promotionsIn_append, promotionsIn_transfer ha, ih hend hrest,
      (wakes_wakeAfter hl ha h0 hlt.le).promotionsIn_eq, wakingsAfter, List.filterMap_cons]
    cases (ladder.wakingAt (ladder.position released burst.beginTime) burst.beginTime).paid <;> rfl

/-- The wakings pay the promotions that the simulation plans, and no others. -/
theorem promotionsIn_plan (hl : ladder.Usable) (ha : ladder.PromotionsApart)
    (h : Burst.InSequence duration bursts) :
    promotionsIn (ladder.plan duration bursts) =
      (ladder.wakings bursts).filterMap (·.paid) := by
  cases bursts with
  | nil => rfl
  | cons burst rest =>
    obtain ⟨h0, hle, hrest⟩ := h
    rw [plan, promotionsIn_append, promotionsIn_transfer ha,
      promotionsIn_planAfter hl ha (h0.trans hle) hrest,
      (wakes_wakeFirst hl ha h0).promotionsIn_eq, wakings, List.filterMap_cons]
    cases (ladder.wakingAt (.idle 0) burst.beginTime).paid <;> rfl

end Promotions
end Ladder
end BurstEnergy.Radio
