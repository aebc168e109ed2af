import BurstEnergy.Proofs.Radio.Plan

/-!
# Intervals picked out by their mode

Reported intervals of some modes are the planned intervals of these modes, joined among themselves:
on a path, what lies between two of them keeps them apart unless it takes no time. All that is
planned between transfers is idle time, a rung of the way down or a promotion, so a choice of modes
that leaves these out picks just the transfers, and bursts in order are too far apart to be joined.
-/
namespace BurstEnergy.Radio
open Scalar (Agree Lawful)
variable {α : Type}

namespace StateInterval

/-- The intervals whose mode has a property. -/
def withMode (p : Mode → Bool) (l : List (StateInterval α)) : List (StateInterval α) :=
  l.filter fun i => p i.mode

section Filter
variable {p : Mode → Bool} {i : StateInterval α} {l front back : List (StateInterval α)}

@[simp] theorem withMode_nil : withMode p ([] : List (StateInterval α)) = [] := rfl

theorem withMode_cons_of_pos (h : p i.mode = true) : withMode p (i :: l) = i :: withMode p l :=
  List.filter_cons_of_pos h

theorem withMode_cons_of_neg (h : p i.mode = false) : withMode p (i :: l) = withMode p l :=
  List.filter_cons_of_neg (by simp [h])

@[simp] theorem withMode_append :
    withMode p (front ++ back) = withMode p front ++ withMode p back :=
  List.filter_append _ _

theorem mem_withMode : i ∈ withMode p l ↔ i ∈ l ∧ p i.mode = true := List.mem_filter

theorem withMode_eq_nil (h : ∀ i ∈ l, p i.mode = false) : withMode p l = [] :=
  List.filter_eq_nil_iff.mpr fun i hi => by simp [h i hi]

end Filter

variable [Scalar α]

section Joined
variable {p : Mode → Bool} {i : StateInterval α} {l : List (StateInterval α)} {lo hi : α}

theorem joined_eq_self (hpos : ∀ i ∈ l, ¬ i.stop ≤ i.start)
    (hapart : l.Pairwise fun i j => ¬ i.Continues j) : joined l = l := by
  have hjoins : Joins l l := by
    induction l with
    | nil => exact .nil
    | cons i rest ih =>
      obtain ⟨hi, hpos⟩ := List.forall_mem_cons.mp hpos
      obtain ⟨hfar, hapart⟩ := List.pairwise_cons.mp hapart
      exact .apart hi (fun j hj => hfar j (List.mem_of_mem_head? hj)) (ih hpos hapart)
  exact hjoins.eq_joined.symm

/-- What takes no time can be left out before joining. -/
theorem joined_filter {q : StateInterval α → Bool}
    (h : ∀ i ∈ l, q i = false → i.stop ≤ i.start) : joined (l.filter q) = joined l := by
  induction l with
  | nil => rfl
  | cons i rest ih =>
    obtain ⟨hi, hrest⟩ := List.forall_mem_cons.mp h
    by_cases hq : q i = true
    · rw [List.filter_cons_of_pos hq]
      by_cases he : i.stop ≤ i.start
      · rw [joined_cons_of_empty he, joined_cons_of_empty he, ih hrest]
      · rw [joined_cons_of_not_empty he, joined_cons_of_not_empty he, ih hrest]
    · rw [List.filter_cons_of_neg hq, ih hrest, joined_cons_of_empty (hi (by simpa using hq))]

variable [Lawful α]

/-- On a path, what the next interval does not continue the next picked one does not either: time
of another mode lies between. -/
theorem not_continues_withMode (hl : Path i.stop hi l) (hpos : ∀ j ∈ l, j.start < j.stop)
    (hnext : ∀ j ∈ l.head?, ¬ i.Continues j) : ∀ j ∈ (withMode p l).head?, ¬ i.Continues j := by
  cases l with
  | nil => exact hnext
  | cons j rest =>
    by_cases hj : p j.mode = true
    · rw [withMode_cons_of_pos hj]
      exact hnext
    · rw [withMode_cons_of_neg (by simpa using hj)]
      intro k hk hc
      have hmem : k ∈ rest := (mem_withMode.mp (List.mem_of_mem_head? hk)).1
      have hlater : j.stop ≤ k.start := (hl.2.2.bounds hmem).1
      have hmeet : k.start ≤ j.start := Lawful.le_trans hc.2.2.2 hl.1.1
      exact Scalar.not_le_of_lt (hpos j List.mem_cons_self) (Lawful.le_trans hlater hmeet)

/-- Picking modes and joining can change places on a path. -/
theorem Joins.withMode {planned reported : List (StateInterval α)} (hj : Joins planned reported)
    (h : Path lo hi planned) : Joins (withMode p planned) (withMode p reported) := by
  induction hj generalizing lo with
  | nil => exact .nil
  | @empty i planned reported hempty hrest ih =>
    have hpicked := ih h.2.2
    by_cases hp : p i.mode = true
    · rw [withMode_cons_of_pos hp]
      exact .empty hempty hpicked
    · rwa [withMode_cons_of_neg (by simpa using hp)]
  | @apart i planned reported htime hnext hrest ih =>
    have hpicked := ih h.2.2
    by_cases hp : p i.mode = true
    · rw [withMode_cons_of_pos hp, withMode_cons_of_pos hp]
      refine .apart htime (not_continues_withMode (hrest.path h.2.2) ?_ hnext) hpicked
      exact fun j hj => hrest.start_lt_stop h.2.2 hj
    · have hp : p i.mode = false := by simpa using hp
      rwa [withMode_cons_of_neg hp, withMode_cons_of_neg hp]
  | @merged i j planned reported htime hnext hrest ih =>
    have hpicked := ih h.2.2
    have hmode : ({ i with stop := j.stop } : StateInterval α).mode = i.mode := rfl
    by_cases hp : p i.mode = true
    · rw [withMode_cons_of_pos (hnext.mode_eq ▸ hp)] at hpicked
      rw [withMode_cons_of_pos hp, withMode_cons_of_pos (hmode ▸ hp)]
      exact .merged htime hnext hpicked
    · have hp : p i.mode = false := by simpa using hp
      rw [withMode_cons_of_neg (hnext.mode_eq ▸ hp)] at hpicked
      rwa [withMode_cons_of_neg hp, withMode_cons_of_neg (hmode ▸ hp)]

theorem Path.withMode_joined (h : Path lo hi l) :
    withMode p (StateInterval.joined l) = StateInterval.joined (withMode p l) :=
  ((joins_joined l).withMode h).eq_joined

end Joined
end StateInterval

open StateInterval (withMode joined)

namespace Ladder

/-- The promotions that the rungs and the idle state name. -/
def promotions (ladder : Ladder α) : List (Promotion α) :=
  ladder.rungs.filterMap (·.promotion) ++ ladder.idlePromotion.toList

/-- The modes of the time between transfers: idle, a rung of the way down, or a promotion. -/
def waitingModes (ladder : Ladder α) : List Mode :=
  (ladder.idle, false) :: (ladder.rungs.map (fun rung => (rung.state, true))
    ++ ladder.promotions.map fun p => (p.state, false))

/-- All modes of the radio: that of a transfer, and those between transfers. -/
def modes (ladder : Ladder α) : List Mode := (ladder.active, false) :: ladder.waitingModes

section Members
variable {ladder : Ladder α} {rung : Rung α} {p : Promotion α}

theorem idle_mem_waitingModes : (ladder.idle, false) ∈ ladder.waitingModes := List.mem_cons_self

theorem rung_mem_waitingModes (h : rung ∈ ladder.rungs) :
    (rung.state, true) ∈ ladder.waitingModes :=
  List.mem_cons_of_mem _ (List.mem_append_left _ (List.mem_map_of_mem h))

theorem promotion_mem_waitingModes (h : p ∈ ladder.promotions) :
    (p.state, false) ∈ ladder.waitingModes :=
  List.mem_cons_of_mem _ (List.mem_append_right _ (List.mem_map_of_mem h))

theorem promotion_mem_of_rung (hr : rung ∈ ladder.rungs) (hp : rung.promotion = some p) :
    p ∈ ladder.promotions :=
  List.mem_append_left _ (List.mem_filterMap.mpr ⟨rung, hr, hp⟩)

theorem promotion_mem_of_idle (hp : ladder.idlePromotion = some p) : p ∈ ladder.promotions :=
  List.mem_append_right _ (Option.mem_toList.mpr hp)

end Members

variable [Scalar α]

section Waiting
variable {ladder : Ladder α} {since beginTime duration : α} {i : StateInterval α}

theorem mode_mem_of_mem_resume {state : State} {tail : Bool} {promotion : Option (Promotion α)}
    (hs : (state, tail) ∈ ladder.waitingModes)
    (hp : ∀ p, promotion = some p → p ∈ ladder.promotions)
    (hi : i ∈ resume state tail promotion since beginTime) : i.mode ∈ ladder.waitingModes := by
  cases promotion with
  | none =>
    obtain rfl := List.mem_singleton.mp hi
    exact hs
  | some p =>
    rcases List.mem_cons.mp hi with rfl | hi
    · exact hs
    · obtain rfl := List.mem_singleton.mp hi
      exact promotion_mem_waitingModes (hp p rfl)

theorem mode_mem_of_mem_wakeFrom {rungs : List (Rung α)} (hr : rungs ⊆ ladder.rungs)
    (hi : i ∈ ladder.wakeFrom since beginTime rungs) : i.mode ∈ ladder.waitingModes := by
  induction rungs generalizing since with
  | nil =>
    exact mode_mem_of_mem_resume idle_mem_waitingModes (fun p hp => promotion_mem_of_idle hp) hi
  | cons rung rest ih =>
    obtain ⟨hrung, hrest⟩ := List.cons_subset.mp hr
    rw [wakeFrom] at hi
    split at hi
    · exact mode_mem_of_mem_resume (rung_mem_waitingModes hrung)
        (fun p hp => promotion_mem_of_rung hrung hp) hi
    · rcases List.mem_cons.mp hi with rfl | hi
      · exact rung_mem_waitingModes hrung
      · exact ih hrest hi

theorem mode_mem_of_mem_wakeAfter (hi : i ∈ ladder.wakeAfter since beginTime) :
    i.mode ∈ ladder.waitingModes := by
  rw [wakeAfter_eq_wakeFrom] at hi
  exact mode_mem_of_mem_wakeFrom (List.Subset.refl _) hi

theorem mode_mem_of_mem_wakeFirst (hi : i ∈ ladder.wakeFirst beginTime) :
    i.mode ∈ ladder.waitingModes :=
  mode_mem_of_mem_resume idle_mem_waitingModes (fun _ hp => promotion_mem_of_idle hp) hi

theorem mode_mem_of_mem_settleFrom {rungs : List (Rung α)} (hr : rungs ⊆ ladder.rungs)
    (hi : i ∈ settleFrom ladder.idle since duration rungs) : i.mode ∈ ladder.waitingModes := by
  induction rungs generalizing since with
  | nil =>
    obtain rfl := List.mem_singleton.mp hi
    exact idle_mem_waitingModes
  | cons rung rest ih =>
    obtain ⟨hrung, hrest⟩ := List.cons_subset.mp hr
    unfold settleFrom at hi
    dsimp only at hi
    split at hi
    · obtain rfl := List.mem_singleton.mp hi
      exact rung_mem_waitingModes hrung
    · rcases List.mem_cons.mp hi with rfl | hi
      · exact rung_mem_waitingModes hrung
      · exact ih hrest hi

theorem mode_mem_of_mem_settle (hi : i ∈ ladder.settle since duration) :
    i.mode ∈ ladder.waitingModes :=
  mode_mem_of_mem_settleFrom (List.Subset.refl _) hi

variable {bursts : List (Burst α)}

theorem mode_mem_of_mem_planAfter (hi : i ∈ ladder.planAfter duration since bursts) :
    i.mode ∈ ladder.modes := by
  induction bursts generalizing since with
  | nil => exact List.mem_cons_of_mem _ (mode_mem_of_mem_settle hi)
  | cons burst rest ih =>
    rcases List.mem_append.mp hi with hi | hi
    · exact List.mem_cons_of_mem _ (mode_mem_of_mem_wakeAfter hi)
    · rcases List.mem_cons.mp hi with rfl | hi
      · exact List.mem_cons_self
      · exact ih hi

theorem mode_mem_of_mem_schedule (hi : i ∈ ladder.schedule duration bursts) :
    i.mode ∈ ladder.modes := by
  cases bursts with
  | nil =>
    obtain rfl := List.mem_singleton.mp hi
    exact List.mem_cons_of_mem _ idle_mem_waitingModes
  | cons burst rest =>
    rcases List.mem_append.mp hi with hi | hi
    · exact List.mem_cons_of_mem _ (mode_mem_of_mem_wakeFirst hi)
    · rcases List.mem_cons.mp hi with rfl | hi
      · exact List.mem_cons_self
      · exact mode_mem_of_mem_planAfter hi

theorem mode_mem_of_mem_simulate [Lawful α] (hl : ladder.Usable)
    (hb : Burst.InSequence duration bursts) (hi : i ∈ ladder.simulate bursts duration) :
    i.mode ∈ ladder.modes := by
  have hpath := path_schedule hl hb
  by_cases hd : 0 < duration
  · rw [simulate_eq_joined hl hb hd] at hi
    have hlt := hpath.start_lt_stop hi
    obtain ⟨planned, hplanned, -, hmode⟩ := StateInterval.exists_covers_of_mem_joined hi
      ⟨Scalar.le_self_left (Scalar.le_of_lt hlt), hlt⟩
    rw [← hmode]
    exact mode_mem_of_mem_schedule hplanned
  · have h0 : duration ≤ 0 :=
      Scalar.le_of_not_lt Lawful.zero_le_zero (Scalar.le_self_right hpath.le) hd
    rw [simulate_of_no_length hl hb h0] at hi
    obtain rfl := List.mem_singleton.mp hi
    exact List.mem_cons_of_mem _ idle_mem_waitingModes

end Waiting

section Transfers
variable {ladder : Ladder α} {p : Mode → Bool} {duration released : α} {burst : Burst α}
  {bursts : List (Burst α)}

/-- A choice of modes that picks transfers and nothing else. -/
structure PicksTransfers (ladder : Ladder α) (p : Mode → Bool) : Prop where
  active : p (ladder.active, false) = true
  waiting : ∀ m ∈ ladder.waitingModes, p m = false

theorem withMode_planAfter (h : ladder.PicksTransfers p) :
    withMode p (ladder.planAfter duration released bursts) = bursts.map ladder.transfer := by
  induction bursts generalizing released with
  | nil => exact StateInterval.withMode_eq_nil fun i hi => h.waiting _ (mode_mem_of_mem_settle hi)
  | cons burst rest ih =>
    have hwake : withMode p (ladder.wakeAfter released burst.beginTime) = [] :=
      StateInterval.withMode_eq_nil fun i hi => h.waiting _ (mode_mem_of_mem_wakeAfter hi)
    rw [planAfter, StateInterval.withMode_append, hwake, List.nil_append,
      StateInterval.withMode_cons_of_pos h.active, ih, List.map_cons]

/-- The planned transfers are those of the bursts, in order. -/
theorem withMode_schedule (h : ladder.PicksTransfers p) :
    withMode p (ladder.schedule duration bursts) = bursts.map ladder.transfer := by
  cases bursts with
  | nil => exact StateInterval.withMode_cons_of_neg (h.waiting _ idle_mem_waitingModes)
  | cons burst rest =>
    have hwake : withMode p (ladder.wakeFirst burst.beginTime) = [] :=
      StateInterval.withMode_eq_nil fun i hi => h.waiting _ (mode_mem_of_mem_wakeFirst hi)
    rw [schedule, plan, StateInterval.withMode_append, hwake, List.nil_append,
      StateInterval.withMode_cons_of_pos h.active, withMode_planAfter h, List.map_cons]

variable [Lawful α]

/-- The reported intervals of some modes, not the idle one, are the planned ones joined. -/
theorem withMode_simulate (hl : ladder.Usable) (hb : Burst.InSequence duration bursts)
    (hidle : p (ladder.idle, false) = false) :
    withMode p (ladder.simulate bursts duration) =
      joined (withMode p (ladder.schedule duration bursts)) := by
  have hpath := path_schedule hl hb
  by_cases hd : 0 < duration
  · rw [simulate_eq_joined hl hb hd, hpath.withMode_joined]
  · have h0 : duration ≤ 0 :=
      Scalar.le_of_not_lt Lawful.zero_le_zero (Scalar.le_self_right hpath.le) hd
    rw [simulate_of_no_length hl hb h0, ← hpath.withMode_joined, hpath.joined_eq_nil h0]
    exact StateInterval.withMode_cons_of_neg hidle

/-- The transfers of bursts in order are reported as they are, except those without length. -/
theorem transfers_simulate (hl : ladder.Usable) (hb : Burst.InSequence duration bursts)
    (h : ladder.PicksTransfers p) :
    withMode p (ladder.simulate bursts duration) =
      (bursts.filter fun b => b.beginTime < b.endTime).map ladder.transfer := by
  rw [withMode_simulate hl hb (h.waiting _ idle_mem_waitingModes), withMode_schedule h]
  have hlength : ∀ i ∈ bursts.map ladder.transfer,
      decide (i.start < i.stop) = false → i.stop ≤ i.start := by
    intro i hi hempty
    obtain ⟨b, hb', rfl⟩ := List.mem_map.mp hi
    have hle := hb.begin_le_end hb'
    exact Scalar.le_of_not_lt (Scalar.le_self_left hle) (Scalar.le_self_right hle)
      (of_decide_eq_false hempty)
  have hpos : ∀ i ∈ (bursts.map ladder.transfer).filter fun i => decide (i.start < i.stop),
      ¬ i.stop ≤ i.start :=
    fun i hi => Scalar.not_le_of_lt (of_decide_eq_true (List.mem_filter.mp hi).2)
  have hapart : (bursts.map ladder.transfer).Pairwise fun i j => ¬ i.Continues j := by
    refine List.pairwise_map.mpr (hb.pairwise.imp fun hlt hc => ?_)
    exact Scalar.not_le_of_lt hlt hc.2.2.2
  rw [← StateInterval.joined_filter hlength,
    StateInterval.joined_eq_self hpos (hapart.sublist List.filter_sublist), List.filter_map]
  rfl

end Transfers
end Ladder
end BurstEnergy.Radio
