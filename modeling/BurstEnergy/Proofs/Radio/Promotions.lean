import BurstEnergy.Proofs.Radio.Waking

/-!
# Promotions as they are reported

Reported promotions need not be planned ones: after a burst that moved nothing the next promotion
may take up the one before it, and the two are reported as one. `Opens` says which promotion comes
first in what is planned next, and `pending` since when the last one reported before it lasts, if
it takes that up.
-/
namespace BurstEnergy.Radio
open StateInterval (Path joined attach)

section Reported
variable {front mid back : List (StateInterval Rat)} {lo start stop hi t : Rat}
  {i : StateInterval Rat}

/-- What is reported of a moment between two cuts was planned between them. -/
theorem exists_mem_of_covers (hf : Path lo start front) (hb : Path stop hi back)
    (hi' : i ∈ joined (front ++ mid ++ back)) (hs : start ≤ t) (he : t < stop)
    (ht : i.Covers t) : ∃ p ∈ mid, p.mode = i.mode := by
  obtain ⟨p, hp, hpt, hmode⟩ := StateInterval.exists_covers_of_mem_joined hi' ht
  rw [List.append_assoc, List.mem_append, List.mem_append] at hp
  rcases hp with hp | hp | hp
  · have hle := (hf.bounds hp).2.2
    exact absurd (hpt.2.trans_le (hle.trans hs)) (lt_irrefl t)
  · exact ⟨p, hp, hmode⟩
  · have hle := (hb.bounds hp).1
    exact absurd (he.trans_le (hle.trans hpt.1)) (lt_irrefl t)

theorem plain_of_covers (hf : Path lo start front) (hm : Plain mid) (hb : Path stop hi back)
    (hi' : i ∈ joined (front ++ mid ++ back)) (hs : start ≤ t) (he : t < stop)
    (ht : i.Covers t) : i.state.isPromotion = false := by
  obtain ⟨p, hp, hmode⟩ := exists_mem_of_covers hf hb hi' hs he ht
  have hstate : p.state = i.state := congrArg Prod.fst hmode
  rw [← hstate]
  exact hm p hp

theorem joined_append_of_empty (h : Path lo lo mid) : joined (front ++ mid) = joined front := by
  have hnone := h.joined_eq_nil le_rfl
  rcases List.eq_nil_or_concat (joined front) with hf | ⟨init, last, hf⟩
  · rw [StateInterval.joined_append_of_nil hf, hnone, hf]
  · rw [List.concat_eq_append] at hf
    rw [StateInterval.joined_append_of_last hf, hnone, hf]
    rfl

end Reported

/-- The next promotion, when the next burst pays one. -/
def nextPaid (wakings : List Waking) : Option (StateInterval Rat) :=
  wakings.head?.bind (·.paid)

/-- The next promotion takes up this one. -/
def runsOn (p : StateInterval Rat) (next : Option (StateInterval Rat)) : Bool :=
  next.any fun q => p.Continues q

theorem runsOn_iff {p : StateInterval Rat} {next : Option (StateInterval Rat)} :
    runsOn p next = true ↔ ∃ q, next = some q ∧ p.Continues q := by
  cases next <;> simp [runsOn]

/-- Since when a promotion is reported that is planned after `front`, if it takes up another. -/
def pending (front : List (StateInterval Rat)) (next : Option (StateInterval Rat)) : Option Rat :=
  match (joined front).getLast?, next with
  | some last, some p => if last.Continues p then some last.start else none
  | _, _ => none

/-- The first promotion to come, if any: after plain time, and before other time only if some
plain time lies between. -/
inductive Opens (since duration : Rat) :
    Option (StateInterval Rat) → List (StateInterval Rat) → Prop
  | settled {low : List (StateInterval Rat)} (hlow : Plain low)
      (hpath : Path since duration low) : Opens since duration none low
  | free {low rest : List (StateInterval Rat)} {stop : Rat} (hlow : Plain low)
      (hpath : Path since stop low) (hlt : since < stop) (hrest : Path stop duration rest) :
      Opens since duration none (low ++ rest)
  | promotion {low rest : List (StateInterval Rat)} {p : StateInterval Rat} (hlow : Plain low)
      (hpath : Path since p.start low) (hstate : p.state.isPromotion = true)
      (hlt : p.start < p.stop) (hrest : Path p.stop duration rest) :
      Opens since duration (some p) (low ++ p :: rest)

namespace Opens
variable {since released duration : Rat} {next : Option (StateInterval Rat)}
  {front back : List (StateInterval Rat)}

theorem prepend (h : Opens since duration next back) (hfront : Plain front)
    (hpath : Path released since front) : Opens released duration next (front ++ back) := by
  cases h with
  | settled hlow hpath' => exact .settled (hfront.append hlow) (hpath.append hpath')
  | free hlow hpath' hlt hrest =>
    rw [← List.append_assoc]
    exact .free (hfront.append hlow) (hpath.append hpath') (hpath.le.trans_lt hlt) hrest
  | promotion hlow hpath' hstate hlt hrest =>
    rw [← List.append_assoc]
    exact .promotion (hfront.append hlow) (hpath.append hpath') hstate hlt hrest

/-- A reported promotion goes on past a time if and only if the next promotion to come takes it
up there. -/
theorem continues_iff (h : Opens since duration next back) (last : StateInterval Rat)
    (hstop : last.stop = since) (hp : last.state.isPromotion = true) :
    (∃ j rest, joined back = j :: rest ∧ last.Continues j) ↔ runsOn last next = true := by
  -- The first reported interval starts with the path and covers its first moment.
  have hfirst {planned : List (StateInterval Rat)} (hpath : Path since duration planned)
      {j : StateInterval Rat} {rest : List (StateInterval Rat)} (hj : joined planned = j :: rest) :
      j ∈ joined planned ∧ j.Covers since := by
    have hmem : j ∈ joined planned := hj ▸ List.mem_cons_self
    have hstart : Scalar.Agree since j.start := (hj ▸ hpath.joined).1
    exact ⟨hmem, hstart.2, (Scalar.agree_iff_eq.mp hstart).trans_lt (hpath.start_lt_stop hmem)⟩
  have hplain {low rest : List (StateInterval Rat)} {stop : Rat} (hlow : Plain low)
      (hpath : Path since stop low) (hlt : since < stop) (hrest : Path stop duration rest) :
      ¬ ∃ j later, joined (low ++ rest) = j :: later ∧ last.Continues j := by
    rintro ⟨j, later, hj, hc⟩
    obtain ⟨hmem, hcov⟩ := hfirst (hpath.append hrest) hj
    have hnil : Path since since [] := ⟨le_rfl, le_rfl⟩
    have hno := plain_of_covers hnil hlow hrest hmem le_rfl hlt hcov
    rw [← hc.1, hp] at hno
    cases hno
  cases h with
  | settled hlow hpath =>
    refine iff_of_false ?_ (by simp [runsOn])
    rintro ⟨j, rest, hj, hc⟩
    obtain ⟨hmem, hcov⟩ := hfirst hpath hj
    obtain ⟨p, hpmem, -, hmode⟩ := StateInterval.exists_covers_of_mem_joined hmem hcov
    have hstate : p.state = j.state := congrArg Prod.fst hmode
    have hno := hlow p hpmem
    rw [hstate, ← hc.1, hp] at hno
    cases hno
  | free hlow hpath hlt hrest =>
    exact iff_of_false (hplain hlow hpath hlt hrest) (by simp [runsOn])
  | @promotion low rest p hlow hpath hstate hlt hrest =>
    have hpaid : Path p.start duration (p :: rest) := ⟨⟨le_rfl, le_rfl⟩, hlt.le, hrest⟩
    rcases eq_or_lt_of_le hpath.le with heq | hlt'
    · have hjoined : joined (low ++ p :: rest) = attach p (joined rest) := by
        rw [← heq] at hpath
        rw [StateInterval.joined_append_of_nil (hpath.joined_eq_nil le_rfl),
          StateInterval.joined_cons_of_not_empty hlt.not_ge]
      obtain ⟨stop, tail, hattach⟩ := StateInterval.attach_eq_cons p (joined rest)
      rw [hjoined, hattach]
      constructor
      · rintro ⟨j, later, hj, hc⟩
        obtain rfl : _ = j := (List.cons.inj hj).1
        exact decide_eq_true hc
      · intro hruns
        exact ⟨_, tail, rfl, of_decide_eq_true hruns⟩
    · refine iff_of_false (hplain hlow hpath hlt' hpaid) ?_
      intro hruns
      have hc : last.Continues p := of_decide_eq_true hruns
      have hmeet : last.stop = p.start := Scalar.agree_iff_eq.mp hc.2.2
      exact absurd (hstop.symm.trans hmeet) hlt'.ne

theorem bounds (h : Opens since duration next back) {p : StateInterval Rat} (hp : next = some p) :
    p.state.isPromotion = true ∧ since ≤ p.start := by
  cases h with
  | settled hlow hpath => cases hp
  | free hlow hpath hlt hrest => cases hp
  | promotion hlow hpath hstate hlt hrest =>
    obtain rfl := Option.some.inj hp
    exact ⟨hstate, hpath.le⟩

end Opens

/-- What wakes the radio opens what is planned after a release. -/
theorem Wakes.opens {released duration : Rat} {waking : Waking}
    {wake rest : List (StateInterval Rat)} (h : Wakes released waking wake)
    (hgap : released < waking.beginTime) (hrest : Path waking.beginTime duration rest) :
    Opens released duration waking.paid (wake ++ rest) := by
  cases h with
  | free hlow hpath hempty =>
    rw [List.append_assoc]
    exact .free hlow hpath hgap (hempty.append hrest)
  | paid hlow hpath hstate hlt =>
    rw [List.append_assoc]
    exact .promotion hlow hpath hstate hlt hrest

section Pending
variable {front low : List (StateInterval Rat)} {lo released stop : Rat}
  {p last : StateInterval Rat} {next : Option (StateInterval Rat)}

@[simp] theorem pending_none : pending front none = none := by
  unfold pending
  cases (joined front).getLast? <;> rfl

theorem pending_of_last (h : (joined front).getLast? = some last) :
    pending front (some p) = if last.Continues p then some last.start else none := by
  simp only [pending, h]

theorem pending_eq_none
    (h : ∀ last, (joined front).getLast? = some last → ∀ p, next = some p → ¬ last.Continues p) :
    pending front next = none := by
  cases next with
  | none => exact pending_none
  | some p =>
    cases hl : (joined front).getLast? with
    | none => simp only [pending, hl]
    | some last => rw [pending_of_last hl, if_neg (h last hl p rfl)]

/-- A planned promotion is reported since when the one pending is. -/
theorem exists_joined_snoc (front : List (StateInterval Rat)) (hlt : p.start < p.stop) :
    ∃ init, joined (front ++ [p]) =
      init ++ [{ p with start := (pending front (some p)).getD p.start }] := by
  have hone : joined [p] = [p] := StateInterval.joined_cons_of_not_empty hlt.not_ge []
  rcases List.eq_nil_or_concat (joined front) with hf | ⟨init, last, hf⟩
  · refine ⟨[], ?_⟩
    have hnone : pending front (some p) = none := by simp [pending, hf]
    rw [StateInterval.joined_append_of_nil hf, hone, hnone]
    rfl
  · rw [List.concat_eq_append] at hf
    have hlast : (joined front).getLast? = some last := by rw [hf, List.getLast?_concat]
    rw [StateInterval.joined_append_of_last hf, hone, pending_of_last hlast]
    by_cases hc : last.Continues p
    · refine ⟨init, ?_⟩
      rw [StateInterval.attach_of_continues hc, if_pos hc, Option.getD_some, hc.1, hc.2.1]
    · refine ⟨init ++ [last], ?_⟩
      rw [StateInterval.attach_of_not_continues hc, if_neg hc, List.append_assoc]
      rfl

theorem plain_getLast (hf : Path lo released front) (hlow : Plain low)
    (hpath : Path released stop low) (hgap : released < stop ∨ released = lo)
    (h : (joined (front ++ low)).getLast? = some last) : last.state.isPromotion = false := by
  have hall := hf.append hpath
  have hmem := List.mem_of_getLast? h
  have hstop : last.stop = stop := Scalar.agree_iff_eq.mp (hall.joined.agree_last h)
  have hlt : last.start < stop := hstop ▸ hall.start_lt_stop hmem
  have hlo := (hall.joined.bounds hmem).1
  have ht : max last.start released < stop := by
    rcases hgap with hgap | rfl
    · exact max_lt hlt hgap
    · rwa [max_eq_left hlo]
  have hnil : Path stop stop [] := ⟨le_rfl, le_rfl⟩
  rw [← List.append_nil (front ++ low)] at hmem
  exact plain_of_covers hf hlow hnil hmem (le_max_right _ _) ht
    ⟨le_max_left _ _, ht.trans_eq hstop.symm⟩

/-- Plain time before a promotion leaves pending what is. -/
theorem pending_append_plain (hf : Path lo released front) (hlow : Plain low)
    (hpath : Path released p.start low) (hp : p.state.isPromotion = true) :
    pending (front ++ low) (some p) = pending front (some p) := by
  rcases eq_or_lt_of_le hpath.le with heq | hlt
  · rw [← heq] at hpath
    simp only [pending, joined_append_of_empty hpath]
  · have hback : pending (front ++ low) (some p) = none := by
      refine pending_eq_none fun last hlast q hq hc => ?_
      obtain rfl := Option.some.inj hq
      have hno := plain_getLast hf hlow hpath (.inl hlt) hlast
      rw [hc.1, hp] at hno
      cases hno
    have hfront : pending front (some p) = none := by
      refine pending_eq_none fun last hlast q hq hc => ?_
      obtain rfl := Option.some.inj hq
      have hstop : last.stop = released := Scalar.agree_iff_eq.mp (hf.joined.agree_last hlast)
      have hmeet : last.stop = p.start := Scalar.agree_iff_eq.mp hc.2.2
      exact absurd (hstop.symm.trans hmeet) hlt.ne
    rw [hback, hfront]

/-- A promotion planned after plain time is reported since when the one pending is. -/
theorem exists_joined_paid (hf : Path lo released front) (hlow : Plain low)
    (hpath : Path released p.start low) (hstate : p.state.isPromotion = true)
    (hlt : p.start < p.stop) : ∃ init, joined (front ++ (low ++ [p])) =
      init ++ [{ p with start := (pending front (some p)).getD p.start }] := by
  obtain ⟨init, hinit⟩ := exists_joined_snoc (front ++ low) hlt
  rw [pending_append_plain hf hlow hpath hstate, List.append_assoc] at hinit
  exact ⟨init, hinit⟩

end Pending

namespace Ladder
variable {ladder : Ladder Rat} {released duration : Rat} {bursts : List (Burst Rat)}

/-- What is planned after a release opens with the promotion of the first burst. -/
theorem opens_planAfter (hl : ladder.Usable) (ha : ladder.PromotionsApart) (h0 : 0 ≤ released)
    (h : Burst.Follow duration released bursts) :
    Opens released duration (nextPaid (ladder.wakingsAfter released bursts))
      (ladder.planAfter duration released bursts) := by
  cases bursts with
  | nil => exact .settled (plain_settle hl ha h0) (path_planAfter hl h0 h)
  | cons burst rest =>
    obtain ⟨hlt, hle, hrest⟩ := h
    have hend : 0 ≤ burst.endTime := h0.trans (hlt.le.trans hle)
    have hwake := wakes_wakeAfter hl ha h0 hlt.le
    exact hwake.opens hlt (StateInterval.path_cons hle (path_planAfter hl hend hrest))

end Ladder
end BurstEnergy.Radio
