import BurstEnergy.Proofs.Profile.Validation
import BurstEnergy.Proofs.Radio.Coalescing
import BurstEnergy.Radio.Simulation

/-!
# The way down

After a release every rung of the ladder has a deadline: the release for the first, and one timer
later each time. Three recursions of the engine compute these deadlines on their own, to find the
position of a burst, to list the rungs passed before it and to settle after the last one. This
module says once what each of them finds, in terms of the deadlines.
-/
namespace BurstEnergy.Radio
open Scalar (Lawful IsAmount)
variable {α : Type}

/-- Since when a position is held. -/
def Position.since : Position α → α
  | .rung _ since => since
  | .idle since => since

namespace Ladder

/-- The promotion that traffic pays from a position. -/
def promotionAt (ladder : Ladder α) : Position α → Option (Promotion α)
  | .rung stage _ => ladder.rungs[stage]?.bind (·.promotion)
  | .idle _ => ladder.idlePromotion

theorem promotionAt_rung {ladder : Ladder α} {stage : ℕ} {since : α} {rung : Rung α}
    (h : ladder.rungs[stage]? = some rung) :
    ladder.promotionAt (.rung stage since) = rung.promotion := by
  rw [promotionAt, h]
  rfl

variable [Scalar α]

theorem Usable.promotionAt {ladder : Ladder α} (hl : ladder.Usable) (position : Position α) :
    UsablePromotion (ladder.promotionAt position) := by
  cases position with
  | rung stage since =>
    intro p hp
    obtain ⟨rung, hrung, hp⟩ := Option.bind_eq_some_iff.mp hp
    exact hl.promotion rung (List.mem_of_getElem? hrung) p hp
  | idle since => exact hl.idlePromotion

/-- When the rung of a number is reached: `d₀` is the release, and `dₖ₊₁ = dₖ + timerₖ`. -/
def deadline (rungs : List (Rung α)) (released : α) (stage : ℕ) : α :=
  (rungs.take stage).foldl (fun since rung => since + rung.timer) released

/-- What the way down shows at a time: the rung whose window holds it, or idle. -/
def descent (ladder : Ladder α) (released t : α) : Mode :=
  match ladder.rungs.zipIdx.find? fun (_, k) =>
      deadline ladder.rungs released k ≤ t ∧ t < deadline ladder.rungs released (k + 1) with
  | some (rung, _) => (rung.state, true)
  | none => (ladder.idle, false)

section Deadline
variable {rungs rest : List (Rung α)} {rung : Rung α} {released : α} {j k : ℕ}

@[simp] theorem deadline_zero : deadline rungs released 0 = released := rfl

@[simp] theorem deadline_cons :
    deadline (rung :: rest) released (k + 1) = deadline rest (released + rung.timer) k := rfl

variable [Lawful α]

theorem le_deadline (ht : ∀ rung ∈ rungs, IsAmount rung.timer) (h0 : 0 ≤ released) (k : ℕ) :
    released ≤ deadline rungs released k := by
  induction rungs generalizing released k with
  | nil => simpa [deadline] using Scalar.le_self_right h0
  | cons rung rest ih =>
    cases k with
    | zero => exact Scalar.le_self_right h0
    | succ k =>
      rw [List.forall_mem_cons] at ht
      have hstep : released ≤ released + rung.timer := Lawful.le_add h0 ht.1.nonneg
      exact Lawful.le_trans hstep (ih ht.2 (Lawful.le_trans h0 hstep) k)

theorem deadline_mono (ht : ∀ rung ∈ rungs, IsAmount rung.timer) (h0 : 0 ≤ released)
    (h : j ≤ k) : deadline rungs released j ≤ deadline rungs released k := by
  induction rungs generalizing released j k with
  | nil => simpa [deadline] using Scalar.le_self_right h0
  | cons rung rest ih =>
    have hall := ht
    rw [List.forall_mem_cons] at ht
    have hstep : released ≤ released + rung.timer := Lawful.le_add h0 ht.1.nonneg
    cases j with
    | zero => exact le_deadline hall h0 k
    | succ j =>
      obtain ⟨k, rfl⟩ : ∃ m, k = m + 1 := ⟨k - 1, by omega⟩
      exact ih ht.2 (Lawful.le_trans h0 hstep) (by omega)

theorem deadline_self (ht : ∀ rung ∈ rungs, IsAmount rung.timer) (h0 : 0 ≤ released) (k : ℕ) :
    deadline rungs released k ≤ deadline rungs released k :=
  Scalar.le_self_right (le_deadline ht h0 k)

theorem deadline_le_of_passed {time : α} (ht : ∀ rung ∈ rungs, IsAmount rung.timer)
    (h0 : 0 ≤ released) (h : released ≤ time)
    (hpast : ∀ j < k, ¬ time ≤ deadline rungs released (j + 1)) :
    deadline rungs released k ≤ time := by
  cases k with
  | zero => exact h
  | succ k =>
    have hlt := Scalar.lt_of_not_le (Scalar.le_self_right h) (deadline_self ht h0 (k + 1))
      (hpast k k.lt_succ_self)
    exact Scalar.le_of_lt hlt

end Deadline

section Descent
variable [Lawful α] {ladder : Ladder α} {rung : Rung α} {released t : α} {k : ℕ}

theorem descent_of_window (hl : ladder.Usable) (h0 : 0 ≤ released)
    (hk : ladder.rungs[k]? = some rung) (hlo : deadline ladder.rungs released k ≤ t)
    (hhi : t < deadline ladder.rungs released (k + 1)) :
    ladder.descent released t = (rung.state, true) := by
  unfold descent
  split
  · next other j hfind =>
    have hmem := List.mem_zipIdx_iff_getElem?.mp (List.mem_of_find?_eq_some hfind)
    have hwindow := List.find?_some hfind
    simp only [decide_eq_true_eq] at hwindow
    obtain ⟨hlo', hhi'⟩ := hwindow
    have hjk : j = k := by
      rcases Nat.lt_trichotomy j k with h | h | h
      · have hmono := deadline_mono hl.timer h0 (show j + 1 ≤ k by omega)
        exact absurd (Lawful.le_trans hmono hlo) (Scalar.not_le_of_lt hhi')
      · exact h
      · have hmono := deadline_mono hl.timer h0 (show k + 1 ≤ j by omega)
        exact absurd (Lawful.le_trans hmono hlo') (Scalar.not_le_of_lt hhi)
    subst hjk
    have hrung : other = rung := Option.some.inj (hmem.symm.trans hk)
    rw [hrung]
  · next hnone =>
    have hmem : (rung, k) ∈ ladder.rungs.zipIdx := List.mem_zipIdx_iff_getElem?.mpr hk
    have hno := List.find?_eq_none.mp hnone _ hmem
    exact absurd (decide_eq_true ⟨hlo, hhi⟩) hno

theorem descent_of_expired (hl : ladder.Usable) (h0 : 0 ≤ released)
    (h : deadline ladder.rungs released ladder.rungs.length ≤ t) :
    ladder.descent released t = (ladder.idle, false) := by
  unfold descent
  split
  · next other j hfind =>
    have hmem := List.mem_zipIdx_iff_getElem?.mp (List.mem_of_find?_eq_some hfind)
    have hwindow := List.find?_some hfind
    simp only [decide_eq_true_eq] at hwindow
    have hj : j < ladder.rungs.length := (List.getElem?_eq_some_iff.mp hmem).1
    have hmono := deadline_mono hl.timer h0 (show j + 1 ≤ ladder.rungs.length by omega)
    exact absurd (Lawful.le_trans hmono h) (Scalar.not_le_of_lt hwindow.2)
  · rfl

end Descent

section Position
variable {ladder : Ladder α} {rungs : List (Rung α)} {released time since : α} {stage k : ℕ}

theorem positionFrom_spec (rungs : List (Rung α)) (stage : ℕ) (released time : α) :
    (∃ k rung, rungs[k]? = some rung ∧
      positionFrom stage released time rungs = .rung (stage + k) (deadline rungs released k) ∧
      time ≤ deadline rungs released (k + 1) ∧
      ∀ j < k, ¬ time ≤ deadline rungs released (j + 1)) ∨
    (positionFrom stage released time rungs = .idle (deadline rungs released rungs.length) ∧
      ∀ j < rungs.length, ¬ time ≤ deadline rungs released (j + 1)) := by
  induction rungs generalizing stage released with
  | nil => exact .inr ⟨rfl, fun j hj => absurd hj j.not_lt_zero⟩
  | cons rung rest ih =>
    rw [positionFrom]
    by_cases h : time ≤ released + rung.timer
    · rw [if_pos h]
      exact .inl ⟨0, rung, rfl, rfl, h, fun j hj => absurd hj j.not_lt_zero⟩
    · rw [if_neg h]
      rcases ih (stage + 1) (released + rung.timer) with
        ⟨k, other, hk, hpos, hle, hbefore⟩ | ⟨hpos, hbefore⟩
      · refine .inl ⟨k + 1, other, hk, ?_, hle, ?_⟩
        · rw [hpos, deadline_cons, Nat.add_right_comm, Nat.add_assoc]
        · intro j hj
          cases j with
          | zero => exact h
          | succ j => exact hbefore j (by omega)
      · refine .inr ⟨hpos, ?_⟩
        intro j hj
        cases j with
        | zero => exact h
        | succ j => exact hbefore j (by simpa using hj)

/-- Where a burst finds the radio: on the first rung whose deadline it does not pass, or idle. -/
theorem position_spec (ladder : Ladder α) (released time : α) :
    (∃ k rung, ladder.rungs[k]? = some rung ∧
      ladder.position released time = .rung k (deadline ladder.rungs released k) ∧
      time ≤ deadline ladder.rungs released (k + 1) ∧
      ∀ j < k, ¬ time ≤ deadline ladder.rungs released (j + 1)) ∨
    (ladder.position released time =
        .idle (deadline ladder.rungs released ladder.rungs.length) ∧
      ∀ j < ladder.rungs.length, ¬ time ≤ deadline ladder.rungs released (j + 1)) := by
  simpa only [position, Nat.zero_add] using positionFrom_spec ladder.rungs 0 released time

/-- A timer that runs out just when the burst begins has not fired: the position is the first rung
with this deadline. -/
theorem position_of_deadline [Lawful α] (hl : ladder.Usable) (h0 : 0 ≤ released)
    (hk : k < ladder.rungs.length) :
    ∃ j ≤ k, ladder.position released (deadline ladder.rungs released (k + 1)) =
        .rung j (deadline ladder.rungs released j) ∧
      Scalar.Agree (deadline ladder.rungs released (j + 1))
        (deadline ladder.rungs released (k + 1)) ∧
      ∀ i < j, deadline ladder.rungs released (i + 1) < deadline ladder.rungs released (k + 1) := by
  have hself := deadline_self hl.timer h0
  rcases ladder.position_spec released (deadline ladder.rungs released (k + 1)) with
    ⟨j, rung, hj, hpos, hle, hpast⟩ | ⟨-, hpast⟩
  · have hjk : j ≤ k := by
      by_contra hlt
      exact hpast k (by omega) (hself (k + 1))
    refine ⟨j, hjk, hpos, ⟨deadline_mono hl.timer h0 (by omega), hle⟩, fun i hi => ?_⟩
    exact Scalar.lt_of_not_le (hself (k + 1)) (hself (i + 1)) (hpast i hi)
  · exact absurd (hself (k + 1)) (hpast k hk)

theorem wakeAfter_of_rung {rung : Rung α} (hpos : ladder.position released time = .rung k since)
    (hk : ladder.rungs[k]? = some rung) :
    ladder.wakeAfter released time = passed released (ladder.rungs.take k) ++
      resume rung.state true rung.promotion since time := by
  simp [wakeAfter, hpos, hk]

theorem wakeAfter_of_idle (hpos : ladder.position released time = .idle since) :
    ladder.wakeAfter released time = passed released ladder.rungs ++
      resume ladder.idle false ladder.idlePromotion since time := by
  rw [wakeAfter, hpos]

end Position

section Members
variable {rungs : List (Rung α)} {released duration : α} {lowest : State} {i : StateInterval α}

/-- A passed rung fills its window. -/
theorem exists_rung_of_mem_passed {n : ℕ} (h : i ∈ passed released (rungs.take n)) :
    ∃ k < n, ∃ rung, rungs[k]? = some rung ∧ i = ⟨deadline rungs released k,
      deadline rungs released (k + 1), rung.state, true⟩ := by
  induction rungs generalizing released n with
  | nil => simp [passed] at h
  | cons rung rest ih =>
    cases n with
    | zero => exact absurd h List.not_mem_nil
    | succ n =>
      rcases List.mem_cons.mp h with rfl | h
      · exact ⟨0, by omega, rung, rfl, rfl⟩
      · obtain ⟨k, hk, other, hother, rfl⟩ := ih h
        exact ⟨k + 1, by omega, other, hother, rfl⟩

variable [Lawful α]

/-- The rungs passed lead from the release to the deadline of the last of them. -/
theorem path_passed (ht : ∀ rung ∈ rungs, IsAmount rung.timer) (h0 : 0 ≤ released) (n : ℕ) :
    StateInterval.Path released (deadline rungs released n) (passed released (rungs.take n)) := by
  have hself : released ≤ released := Scalar.le_self_right h0
  induction rungs generalizing released n with
  | nil => simpa [passed, deadline] using ⟨hself, hself⟩
  | cons rung rest ih =>
    cases n with
    | zero => exact ⟨hself, hself⟩
    | succ n =>
      rw [List.forall_mem_cons] at ht
      have hstep : released ≤ released + rung.timer := Lawful.le_add h0 ht.1.nonneg
      have hrest := ih ht.2 (Lawful.le_trans h0 hstep) n (Scalar.le_self_right hstep)
      exact StateInterval.path_cons hstep hrest

/-- After the last burst a rung fills its window up to the end of the trace. -/
theorem exists_rung_of_mem_settleFrom (ht : ∀ rung ∈ rungs, IsAmount rung.timer)
    (h0 : 0 ≤ released) (h : i ∈ settleFrom lowest released duration rungs) :
    (∃ k rung, rungs[k]? = some rung ∧ i.start = deadline rungs released k ∧
      i.stop ≤ deadline rungs released (k + 1) ∧ i.mode = (rung.state, true)) ∨
    i = ⟨deadline rungs released rungs.length, duration, lowest, false⟩ := by
  induction rungs generalizing released with
  | nil => exact .inr (List.mem_singleton.mp h)
  | cons rung rest ih =>
    rw [List.forall_mem_cons] at ht
    have hstep : released ≤ released + rung.timer := Lawful.le_add h0 ht.1.nonneg
    unfold settleFrom at h
    dsimp only at h
    split at h
    · next hlate =>
      obtain rfl := List.mem_singleton.mp h
      exact .inl ⟨0, rung, rfl, rfl, hlate, rfl⟩
    · rcases List.mem_cons.mp h with rfl | h
      · exact .inl ⟨0, rung, rfl, rfl, Scalar.le_self_right hstep, rfl⟩
      · rcases ih ht.2 (Lawful.le_trans h0 hstep) h with ⟨k, other, hk, hi⟩ | hi
        · exact .inl ⟨k + 1, other, hk, hi⟩
        · exact .inr hi

end Members
end Ladder
end BurstEnergy.Radio
