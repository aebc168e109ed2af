import BurstEnergy.Proofs.Scalar.Lawful
import BurstEnergy.Radio.State

/-!
# Coalescing from the front

The reported intervals are built latest first. `joined` builds the same list from the front, by
recursion on the planned intervals, and `Joins` names the cases of it that the proofs go by. A
`Path` is a list of intervals each of which starts where the one before it stops; joining keeps it,
and every moment keeps the mode that was planned for it.
-/
namespace BurstEnergy.Radio
open Scalar (Agree Lawful)
variable {α : Type} [Scalar α]

/-- What a moment of radio time is spent on: a state, and whether it waits for a timer. -/
abbrev Mode : Type := State × Bool

namespace StateInterval

def mode (i : StateInterval α) : Mode := (i.state, i.tail)

/-- The interval contains a moment. Its stop belongs to the next one. -/
def Covers (i : StateInterval α) (t : α) : Prop := i.start ≤ t ∧ t < i.stop

theorem Continues.mode_eq {i j : StateInterval α} (h : i.Continues j) : i.mode = j.mode :=
  Prod.ext h.1 h.2.1

theorem continues_iff {i j : StateInterval α} :
    i.Continues j ↔ i.mode = j.mode ∧ Agree i.stop j.start := by
  simp only [Continues, mode, Prod.mk.injEq, and_assoc]

/-- Put an interval before a list. If the first one there continues it, the two become one. -/
def attach (i : StateInterval α) : List (StateInterval α) → List (StateInterval α)
  | [] => [i]
  | j :: rest => if i.Continues j then { i with stop := j.stop } :: rest else i :: j :: rest

/-- The intervals of positive length, neighbours that continue each other joined. -/
def joined : List (StateInterval α) → List (StateInterval α)
  | [] => []
  | i :: rest => if i.stop ≤ i.start then joined rest else attach i (joined rest)

/-- A list kept latest first, and after it a list in order. -/
def followedBy (later : List (StateInterval α)) : List (StateInterval α) → List (StateInterval α)
  | [] => later
  | latest :: earlier => earlier.reverse ++ attach latest later

@[simp] theorem joined_nil : joined ([] : List (StateInterval α)) = [] := rfl

theorem joined_cons_of_empty {i : StateInterval α} (h : i.stop ≤ i.start)
    (rest : List (StateInterval α)) : joined (i :: rest) = joined rest := by
  rw [joined, if_pos h]

theorem joined_cons_of_not_empty {i : StateInterval α} (h : ¬ i.stop ≤ i.start)
    (rest : List (StateInterval α)) : joined (i :: rest) = attach i (joined rest) := by
  rw [joined, if_neg h]

theorem attach_of_continues {i j : StateInterval α} (h : i.Continues j)
    (rest : List (StateInterval α)) : attach i (j :: rest) = { i with stop := j.stop } :: rest := by
  rw [attach, if_pos h]

theorem attach_of_not_continues {i j : StateInterval α} (h : ¬ i.Continues j)
    (rest : List (StateInterval α)) : attach i (j :: rest) = i :: j :: rest := by
  rw [attach, if_neg h]

theorem attach_eq_cons (i : StateInterval α) (rest : List (StateInterval α)) :
    ∃ stop tail, attach i rest = { i with stop := stop } :: tail := by
  cases rest with
  | nil => exact ⟨i.stop, [], rfl⟩
  | cons j rest =>
    by_cases h : i.Continues j
    · exact ⟨j.stop, rest, attach_of_continues h rest⟩
    · exact ⟨i.stop, j :: rest, attach_of_not_continues h rest⟩

theorem attach_attach_of_continues {i j : StateInterval α} (h : i.Continues j)
    (rest : List (StateInterval α)) :
    attach i (attach j rest) = attach { i with stop := j.stop } rest := by
  cases rest with
  | nil => exact attach_of_continues h []
  | cons k rest =>
    have hmode : Continues { i with stop := j.stop } k ↔ j.Continues k := by
      simp only [Continues, h.1, h.2.1]
    by_cases hk : j.Continues k
    · rw [attach_of_continues hk, attach_of_continues (hmode.mpr hk)]
      exact attach_of_continues (j := { j with stop := k.stop }) h rest
    · rw [attach_of_not_continues hk, attach_of_not_continues (mt hmode.mp hk)]
      exact attach_of_continues h _

theorem attach_attach_of_not_continues {i j : StateInterval α} (h : ¬ i.Continues j)
    (rest : List (StateInterval α)) : attach i (attach j rest) = i :: attach j rest := by
  obtain ⟨stop, tail, hj⟩ := attach_eq_cons j rest
  rw [hj]
  exact attach_of_not_continues (j := { j with stop := stop }) h tail

/-- The list built latest first is the one built from the front. -/
theorem reverse_foldl_extend (planned latestFirst : List (StateInterval α)) :
    (planned.foldl extend latestFirst).reverse = followedBy (joined planned) latestFirst := by
  induction planned generalizing latestFirst with
  | nil => cases latestFirst <;> simp [followedBy, attach]
  | cons i rest ih =>
    rw [List.foldl_cons, ih]
    by_cases he : i.stop ≤ i.start
    · rw [extend_of_empty he, joined_cons_of_empty he]
    · rw [joined_cons_of_not_empty he]
      cases latestFirst with
      | nil => simp [extend, he, followedBy]
      | cons latest earlier =>
        by_cases hc : latest.Continues i
        · simp only [extend, he, hc, if_true, if_false, followedBy,
            attach_attach_of_continues hc]
        · simp only [extend, he, hc, if_false, followedBy, attach_attach_of_not_continues hc,
            List.reverse_cons, List.append_assoc, List.singleton_append]

theorem coalesce_eq_joined (planned : List (StateInterval α)) : coalesce planned = joined planned :=
  reverse_foldl_extend planned []

theorem joined_append (front back : List (StateInterval α)) :
    joined (front ++ back) = followedBy (joined back) (joined front).reverse := by
  rw [← coalesce_eq_joined, ← coalesce_eq_joined front, coalesce, coalesce, List.foldl_append,
    reverse_foldl_extend, List.reverse_reverse]

/-- Lists are joined apart when the front one comes to nothing, … -/
theorem joined_append_of_nil {front : List (StateInterval α)} (h : joined front = [])
    (back : List (StateInterval α)) : joined (front ++ back) = joined back := by
  rw [joined_append, h]
  rfl

/-- … and meet at its last interval otherwise. -/
theorem joined_append_of_last {front init : List (StateInterval α)} {last : StateInterval α}
    (h : joined front = init ++ [last]) (back : List (StateInterval α)) :
    joined (front ++ back) = init ++ attach last (joined back) := by
  rw [joined_append, h]
  simp [followedBy]

/-- Planned intervals and what is reported of them. One that takes no time is left out, and one that
the next reported one continues is reported with it. -/
inductive Joins : List (StateInterval α) → List (StateInterval α) → Prop
  | nil : Joins [] []
  | empty {i : StateInterval α} {planned reported : List (StateInterval α)}
      (hempty : i.stop ≤ i.start) (hrest : Joins planned reported) : Joins (i :: planned) reported
  | apart {i : StateInterval α} {planned reported : List (StateInterval α)}
      (htime : ¬ i.stop ≤ i.start) (hnext : ∀ j ∈ reported.head?, ¬ i.Continues j)
      (hrest : Joins planned reported) : Joins (i :: planned) (i :: reported)
  | merged {i j : StateInterval α} {planned reported : List (StateInterval α)}
      (htime : ¬ i.stop ≤ i.start) (hnext : i.Continues j) (hrest : Joins planned (j :: reported)) :
      Joins (i :: planned) ({ i with stop := j.stop } :: reported)

theorem joins_joined (planned : List (StateInterval α)) : Joins planned (joined planned) := by
  induction planned with
  | nil => exact .nil
  | cons i rest ih =>
    by_cases he : i.stop ≤ i.start
    · rw [joined_cons_of_empty he]
      exact .empty he ih
    · rw [joined_cons_of_not_empty he]
      cases hr : joined rest with
      | nil => exact .apart he (by simp) (hr ▸ ih)
      | cons j later =>
        rw [hr] at ih
        by_cases hc : i.Continues j
        · rw [attach_of_continues hc]
          exact .merged he hc ih
        · rw [attach_of_not_continues hc]
          exact .apart he (by simpa using hc) ih

theorem Joins.eq_joined {planned reported : List (StateInterval α)} (h : Joins planned reported) :
    reported = joined planned := by
  induction h with
  | nil => rfl
  | empty hempty hrest ih => rw [joined_cons_of_empty hempty, ih]
  | @apart i planned reported htime hnext hrest ih =>
    rw [joined_cons_of_not_empty htime, ← ih]
    cases reported with
    | nil => rfl
    | cons j later => exact (attach_of_not_continues (hnext j rfl) later).symm
  | merged htime hnext hrest ih =>
    rw [joined_cons_of_not_empty htime, ← ih, attach_of_continues hnext]

/-- An interval that takes time is reported with its start and its mode. -/
theorem Joins.exists_head {i : StateInterval α} {planned reported : List (StateInterval α)}
    (h : Joins (i :: planned) reported) (htime : ¬ i.stop ≤ i.start) :
    ∃ stop later, reported = { i with stop := stop } :: later := by
  cases h with
  | empty hempty hrest => exact absurd hempty htime
  | @apart _ _ later _ hnext hrest => exact ⟨i.stop, later, rfl⟩
  | @merged _ j _ later _ hnext hrest => exact ⟨j.stop, later, rfl⟩

theorem Joins.isChain {planned reported : List (StateInterval α)} (h : Joins planned reported) :
    reported.IsChain fun i next => ¬ i.Continues next := by
  induction h with
  | nil => exact .nil
  | empty hempty hrest ih => exact ih
  | apart htime hnext hrest ih => exact List.isChain_cons.mpr ⟨hnext, ih⟩
  | merged htime hnext hrest ih =>
    rw [List.isChain_cons] at ih ⊢
    refine ⟨fun k hk hc => ih.1 k hk ?_, ih.2⟩
    exact ⟨hnext.1.symm.trans hc.1, hnext.2.1.symm.trans hc.2.1, hc.2.2⟩

/-- Intervals that lead from one moment to another, each from where the one before it stops. -/
def Path (lo hi : α) : List (StateInterval α) → Prop
  | [] => Agree lo hi
  | i :: rest => Agree lo i.start ∧ i.start ≤ i.stop ∧ Path i.stop hi rest

section Path
variable {lo mid hi t : α}

theorem Path.isChain {l : List (StateInterval α)} (h : Path lo hi l) :
    l.IsChain fun i next => Agree i.stop next.start := by
  induction l generalizing lo with
  | nil => exact .nil
  | cons i rest ih =>
    cases rest with
    | nil => exact .singleton i
    | cons j rest => exact List.isChain_cons_cons.mpr ⟨h.2.2.1, ih h.2.2⟩

theorem Path.agree_last {l : List (StateInterval α)} (h : Path lo hi l) {i : StateInterval α}
    (hl : l.getLast? = some i) : Agree i.stop hi := by
  induction l generalizing lo with
  | nil => simp at hl
  | cons j rest ih =>
    cases rest with
    | nil =>
      obtain rfl : j = i := by simpa using hl
      exact h.2.2
    | cons k rest => exact ih h.2.2 (by simpa using hl)

variable [Lawful α]

theorem Path.of_agree {l : List (StateInterval α)} (h : Agree lo mid) (hl : Path mid hi l) :
    Path lo hi l := by
  cases l with
  | nil => exact Agree.trans h hl
  | cons i rest => exact ⟨h.trans hl.1, hl.2⟩

theorem Path.append {front back : List (StateInterval α)} (hf : Path lo mid front)
    (hb : Path mid hi back) : Path lo hi (front ++ back) := by
  induction front generalizing lo with
  | nil => exact hb.of_agree hf
  | cons i rest ih => exact ⟨hf.1, hf.2.1, ih hf.2.2⟩

theorem path_singleton {state : State} {tail : Bool} (h : lo ≤ hi) :
    Path lo hi [⟨lo, hi, state, tail⟩] := by
  have hs := Lawful.le_self_of_le h
  exact ⟨⟨hs.1, hs.1⟩, h, hs.2, hs.2⟩

theorem path_cons {state : State} {tail : Bool} {rest : List (StateInterval α)} (h : lo ≤ mid)
    (hr : Path mid hi rest) : Path lo hi (⟨lo, mid, state, tail⟩ :: rest) :=
  (path_singleton h).append hr

theorem Path.le {l : List (StateInterval α)} (h : Path lo hi l) : lo ≤ hi := by
  induction l generalizing lo with
  | nil => exact h.1
  | cons i rest ih => exact Lawful.le_trans h.1.1 (Lawful.le_trans h.2.1 (ih h.2.2))

theorem Path.bounds {l : List (StateInterval α)} (h : Path lo hi l) {i : StateInterval α}
    (hi' : i ∈ l) : lo ≤ i.start ∧ i.start ≤ i.stop ∧ i.stop ≤ hi := by
  induction l generalizing lo with
  | nil => exact absurd hi' List.not_mem_nil
  | cons j rest ih =>
    rcases List.mem_cons.mp hi' with rfl | hmem
    · exact ⟨h.1.1, h.2.1, h.2.2.le⟩
    · obtain ⟨hlo, hrest⟩ := ih h.2.2 hmem
      exact ⟨Lawful.le_trans h.1.1 (Lawful.le_trans h.2.1 hlo), hrest⟩

theorem Path.pairwise {l : List (StateInterval α)} (h : Path lo hi l) :
    l.Pairwise fun i j => i.stop ≤ j.start := by
  induction l generalizing lo with
  | nil => exact .nil
  | cons i rest ih =>
    obtain ⟨-, -, hrest⟩ := h
    exact List.pairwise_cons.mpr ⟨fun j hj => (hrest.bounds hj).1, ih hrest⟩

theorem Joins.path {planned reported : List (StateInterval α)} (hj : Joins planned reported)
    (h : Path lo hi planned) : Path lo hi reported := by
  induction hj generalizing lo with
  | nil => exact h
  | empty hempty hrest ih =>
    obtain ⟨hstart, hle, hlater⟩ := h
    exact (ih hlater).of_agree (hstart.trans ⟨hle, hempty⟩)
  | apart htime hnext hrest ih =>
    obtain ⟨hstart, hle, hlater⟩ := h
    exact ⟨hstart, hle, ih hlater⟩
  | merged htime hnext hrest ih =>
    obtain ⟨hstart, hle, hlater⟩ := h
    obtain ⟨hmeet, hlong, hpath⟩ := ih hlater
    exact ⟨hstart, Lawful.le_trans hle (Lawful.le_trans hmeet.1 hlong), hpath⟩

theorem Path.joined {l : List (StateInterval α)} (h : Path lo hi l) : Path lo hi (joined l) :=
  (joins_joined l).path h

theorem Joins.start_lt_stop {planned reported : List (StateInterval α)}
    (hj : Joins planned reported) (h : Path lo hi planned) {i : StateInterval α}
    (hi' : i ∈ reported) : i.start < i.stop := by
  induction hj generalizing lo i with
  | nil => exact absurd hi' List.not_mem_nil
  | empty hempty hrest ih => exact ih h.2.2 hi'
  | apart htime hnext hrest ih =>
    rcases List.mem_cons.mp hi' with rfl | hi'
    · exact Lawful.lt_iff.mpr ⟨h.2.1, htime⟩
    · exact ih h.2.2 hi'
  | @merged i j planned reported htime hnext hrest ih =>
    rcases List.mem_cons.mp hi' with rfl | hi'
    · obtain ⟨hmeet, hlong, -⟩ := hrest.path h.2.2
      have hlt : i.start < i.stop := Lawful.lt_iff.mpr ⟨h.2.1, htime⟩
      exact Scalar.lt_of_lt_of_le hlt (Lawful.le_trans hmeet.1 hlong)
    · exact ih h.2.2 (List.mem_cons_of_mem j hi')

theorem Path.start_lt_stop {l : List (StateInterval α)} (h : Path lo hi l) {i : StateInterval α}
    (hi' : i ∈ StateInterval.joined l) : i.start < i.stop :=
  (joins_joined l).start_lt_stop h hi'

theorem Path.joined_eq_nil {l : List (StateInterval α)} (h : Path lo hi l) (hle : hi ≤ lo) :
    StateInterval.joined l = [] := by
  refine List.eq_nil_iff_forall_not_mem.mpr fun i hi' => ?_
  obtain ⟨hstart, -, hstop⟩ := h.joined.bounds hi'
  have hback : i.stop ≤ i.start := Lawful.le_trans hstop (Lawful.le_trans hle hstart)
  exact Scalar.not_le_of_lt (h.start_lt_stop hi') hback

theorem Path.exists_covers {l : List (StateInterval α)} (h : Path lo hi l) (hlo : lo ≤ t)
    (hhi : t < hi) : ∃ i ∈ l, i.Covers t := by
  induction l generalizing lo with
  | nil => exact absurd (Lawful.le_trans h.2 hlo) (Scalar.not_le_of_lt hhi)
  | cons i rest ih =>
    by_cases ht : t < i.stop
    · exact ⟨i, List.mem_cons_self, Lawful.le_trans h.1.2 hlo, ht⟩
    · have hstop : i.stop ≤ t :=
        Scalar.le_of_not_lt (Scalar.le_self_right hlo) (Scalar.le_self_right h.2.1) ht
      obtain ⟨j, hj, hc⟩ := ih h.2.2 hstop
      exact ⟨j, List.mem_cons_of_mem i hj, hc⟩

/-- What a reported interval says of a moment was planned for that moment. -/
theorem Joins.exists_covers {planned reported : List (StateInterval α)}
    (hj : Joins planned reported) {i : StateInterval α} (h : i ∈ reported) (ht : i.Covers t) :
    ∃ p ∈ planned, p.Covers t ∧ p.mode = i.mode := by
  induction hj generalizing i with
  | nil => exact absurd h List.not_mem_nil
  | @empty p planned reported hempty hrest ih =>
    obtain ⟨q, hq, hqt, hm⟩ := ih h ht
    exact ⟨q, List.mem_cons_of_mem p hq, hqt, hm⟩
  | @apart p planned reported htime hnext hrest ih =>
    rcases List.mem_cons.mp h with rfl | h
    · exact ⟨i, List.mem_cons_self, ht, rfl⟩
    · obtain ⟨q, hq, hqt, hm⟩ := ih h ht
      exact ⟨q, List.mem_cons_of_mem p hq, hqt, hm⟩
  | @merged p j planned reported htime hnext hrest ih =>
    rcases List.mem_cons.mp h with rfl | h
    · -- The moment lies before the seam or after it.
      have hseam := (continues_iff.mp hnext).2
      by_cases hp : t < p.stop
      · exact ⟨p, List.mem_cons_self, ⟨ht.1, hp⟩, rfl⟩
      · have hstop : p.stop ≤ t :=
          Scalar.le_of_not_lt (Scalar.le_self_right ht.1) (Scalar.le_self_left hseam.1) hp
        obtain ⟨q, hq, hqt, hm⟩ :=
          ih List.mem_cons_self ⟨Lawful.le_trans hseam.2 hstop, ht.2⟩
        exact ⟨q, List.mem_cons_of_mem p hq, hqt, hm.trans hnext.mode_eq.symm⟩
    · obtain ⟨q, hq, hqt, hm⟩ := ih (List.mem_cons_of_mem j h) ht
      exact ⟨q, List.mem_cons_of_mem p hq, hqt, hm⟩

theorem exists_covers_of_mem_joined {planned : List (StateInterval α)} {i : StateInterval α}
    (h : i ∈ joined planned) (ht : i.Covers t) : ∃ p ∈ planned, p.Covers t ∧ p.mode = i.mode :=
  (joins_joined planned).exists_covers h ht

end Path
end StateInterval
end BurstEnergy.Radio
