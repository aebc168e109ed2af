import BurstEnergy.Proofs.CutPoint
import BurstEnergy.Proofs.Radio.Promotions
import BurstEnergy.Radio.Statistics

/-!
# Where charges start

The charge of a burst starts at the begin of a reported promotion that stops with the burst, if
there is one. `startsFrom` says where charges start in terms of the wakings alone, and carries
along since when a run of promotions is reported. One step of the simulation keeps it in line with
what is pending, and so a whole run does.
-/
namespace BurstEnergy.Radio
open StateInterval (Path joined attach)

section ChargeStart
variable {intervals init rest : List (StateInterval Rat)} {lo hi beginTime : Rat}
  {i : StateInterval Rat}

theorem chargeStart_eq_beginTime
    (h : ∀ i ∈ intervals, i.stop = beginTime → i.state.isPromotion = false) :
    Attribution.chargeStart intervals beginTime = beginTime := by
  unfold Attribution.chargeStart
  split
  · rfl
  · split
    · next i hi =>
      refine if_neg fun hstart => ?_
      have hplain := h i (List.mem_of_getElem? hi) (Scalar.agree_iff_eq.mp hstart.1)
      rw [hplain] at hstart
      exact Bool.false_ne_true hstart.2
    · rfl

theorem chargeStart_eq_start (h : Path lo hi (init ++ i :: rest))
    (hpos : ∀ j ∈ rest, j.start < j.stop) (hstop : i.stop = beginTime)
    (hp : i.state.isPromotion = true) :
    Attribution.chargeStart (init ++ i :: rest) beginTime = i.start := by
  have hpair := List.pairwise_append.mp h.pairwise
  have hrest := (List.pairwise_cons.mp hpair.2.1).1
  have hfront : ∀ j ∈ init ++ [i], decide (j.stop ≤ beginTime) = true := by
    intro j hj
    rcases List.mem_append.mp hj with hj | hj
    · have hle : i.start ≤ i.stop := (h.bounds (List.mem_append_right _ List.mem_cons_self)).2.1
      have hji := hpair.2.2 j hj i List.mem_cons_self
      exact decide_eq_true (hji.trans (hle.trans_eq hstop))
    · obtain rfl := List.mem_singleton.mp hj
      exact decide_eq_true hstop.le
  have hback : ∀ j ∈ rest, decide (j.stop ≤ beginTime) = false := by
    intro j hj
    have hlt : beginTime < j.stop := hstop ▸ (hrest j hj).trans_lt (hpos j hj)
    exact decide_eq_false hlt.not_ge
  have hcut := cutLength_append hfront hback
  rw [List.append_assoc, List.singleton_append, List.length_append, List.length_singleton] at hcut
  simp [Attribution.chargeStart, hcut, hstop, hp]

/-- Nothing reported stops in the middle of another reported interval. -/
theorem chargeStart_of_within (h : Path lo hi (init ++ i :: rest))
    (hpos : ∀ j ∈ init ++ i :: rest, j.start < j.stop) (hlo : i.start < beginTime)
    (hhi : beginTime < i.stop) :
    Attribution.chargeStart (init ++ i :: rest) beginTime = beginTime := by
  obtain ⟨-, hpair, hcross⟩ := List.pairwise_append.mp h.pairwise
  refine chargeStart_eq_beginTime fun j hj hstop => ?_
  have hlt := hpos j hj
  rcases List.mem_append.mp hj with hj | hj
  · have hle : j.stop ≤ i.start := hcross j hj i List.mem_cons_self
    exact absurd hstop (hle.trans_lt hlo).ne
  · rcases List.mem_cons.mp hj with rfl | hj
    · exact absurd hstop hhi.ne'
    · have hle : i.stop ≤ j.start := (List.pairwise_cons.mp hpair).1 j hj
      exact absurd hstop (hhi.trans_le (hle.trans hlt.le)).ne'

end ChargeStart

namespace Waking

/-- Where the charge starts, when the promotion is reported from `since` on. -/
def startFrom (since : Option Rat) (next : Option (StateInterval Rat)) (waking : Waking) : Rat :=
  match waking.paid with
  | none => waking.beginTime
  | some p => if runsOn p next then waking.beginTime else since.getD p.start

/-- Since when the next promotion is reported, if it takes up this one. -/
def carry (since : Option Rat) (next : Option (StateInterval Rat)) (waking : Waking) :
    Option Rat :=
  waking.paid.bind fun p => if runsOn p next then some (since.getD p.start) else none

section Cases
variable {waking : Waking} {p : StateInterval Rat} {since : Option Rat}
  {next : Option (StateInterval Rat)}

theorem startFrom_of_runsOn (hp : waking.paid = some p) (h : runsOn p next = true) :
    waking.startFrom since next = waking.beginTime := by
  simp [startFrom, hp, h]

theorem startFrom_of_not_runsOn (hp : waking.paid = some p) (h : ¬ runsOn p next = true) :
    waking.startFrom since next = since.getD p.start := by
  simp [startFrom, hp, h]

theorem carry_of_runsOn (hp : waking.paid = some p) (h : runsOn p next = true) :
    waking.carry since next = some (since.getD p.start) := by
  simp [carry, hp, h]

theorem carry_of_not_runsOn (hp : waking.paid = some p) (h : ¬ runsOn p next = true) :
    waking.carry since next = none := by
  simp [carry, hp, h]

theorem carry_of_free (hp : waking.paid = none) : waking.carry since next = none := by
  simp [carry, hp]

theorem exists_of_carry {start : Rat} (h : waking.carry since next = some start) :
    ∃ p, waking.paid = some p ∧ runsOn p next = true ∧ start = since.getD p.start := by
  obtain ⟨p, hp, hpick⟩ := Option.bind_eq_some_iff.mp h
  by_cases hruns : runsOn p next = true
  · rw [if_pos hruns] at hpick
    exact ⟨p, hp, hruns, (Option.some.inj hpick).symm⟩
  · rw [if_neg hruns] at hpick
    cases hpick

/-- Whether a promotion is carried on does not depend on since when it is reported. -/
theorem carry_eq_none_congr (other : Option Rat) (h : waking.carry since next = none) :
    waking.carry other next = none := by
  cases hother : waking.carry other next with
  | none => rfl
  | some start =>
    obtain ⟨p, hp, hruns, -⟩ := exists_of_carry hother
    rw [carry_of_runsOn hp hruns] at h
    cases h

end Cases
end Waking

/-- Where the charges of wakings start, the first promotion being reported from `since` on. -/
def startsFrom (since : Option Rat) : List Waking → List Rat
  | [] => []
  | waking :: rest =>
    waking.startFrom since (nextPaid rest)
      :: startsFrom (waking.carry since (nextPaid rest)) rest

section Step
variable {front wake low back : List (StateInterval Rat)} {lo released duration : Rat}
  {p : StateInterval Rat} {waking : Waking} {next : Option (StateInterval Rat)}

theorem chargeStart_of_paid (hf : Path lo released front) (hlow : Plain low)
    (hpath : Path released p.start low) (hstate : p.state.isPromotion = true)
    (hlt : p.start < p.stop) (hopens : Opens p.stop duration next back)
    (hb : Path p.stop duration back) :
    Attribution.chargeStart (joined (front ++ (low ++ [p]) ++ back)) p.stop =
      if runsOn p next then p.stop else (pending front (some p)).getD p.start := by
  have hpaid : Path p.start p.stop [p] := ⟨⟨le_rfl, le_rfl⟩, hlt.le, le_rfl, le_rfl⟩
  have hfront : Path lo p.stop (front ++ (low ++ [p])) := hf.append (hpath.append hpaid)
  have hall : Path lo duration (front ++ (low ++ [p]) ++ back) := hfront.append hb
  have hpos : ∀ i ∈ joined (front ++ (low ++ [p]) ++ back), i.start < i.stop :=
    fun i hi => hall.start_lt_stop hi
  obtain ⟨init, hinit⟩ := exists_joined_paid hf hlow hpath hstate hlt
  generalize (pending front (some p)).getD p.start = since at hinit ⊢
  have hsince : since < p.stop :=
    hfront.start_lt_stop (hinit ▸ List.mem_append_right _ List.mem_cons_self)
  have hwhole := StateInterval.joined_append_of_last hinit back
  have hiff := hopens.continues_iff { p with start := since } rfl hstate
  by_cases hruns : runsOn p next = true
  · -- The reported promotion goes on beyond the begin of the burst.
    obtain ⟨j, rest, hj, hc⟩ := hiff.mpr hruns
    have hmeet : p.stop = j.start := Scalar.agree_iff_eq.mp hc.2.2
    have hlong : p.stop < j.stop := hmeet ▸ hb.start_lt_stop (hj ▸ List.mem_cons_self)
    rw [hj, StateInterval.attach_of_continues hc] at hwhole
    rw [hwhole] at hpos
    have hjoined := hwhole ▸ hall.joined
    rw [if_pos hruns, hwhole]
    exact chargeStart_of_within hjoined hpos hsince hlong
  · have hapart : attach { p with start := since } (joined back) =
        { p with start := since } :: joined back := by
      cases hj : joined back with
      | nil => rfl
      | cons j rest =>
        refine StateInterval.attach_of_not_continues (fun hc => hruns ?_) rest
        exact hiff.mp ⟨j, rest, hj, hc⟩
    rw [hapart] at hwhole
    have hjoined := hwhole ▸ hall.joined
    rw [if_neg hruns, hwhole]
    exact chargeStart_eq_start hjoined (fun j hj => hb.start_lt_stop hj) rfl hstate

theorem chargeStart_of_free {beginTime : Rat} {rest : List (StateInterval Rat)}
    (hf : Path lo released front) (hlow : Plain low) (hpath : Path released beginTime low)
    (hempty : Path beginTime beginTime rest) (hgap : released < beginTime ∨ released = lo)
    (hb : Path beginTime duration back) :
    Attribution.chargeStart (joined (front ++ (low ++ rest) ++ back)) beginTime = beginTime := by
  have hall := (hf.append (hpath.append hempty)).append hb
  refine chargeStart_eq_beginTime fun i hi hstop => ?_
  have hlt : i.start < beginTime := hstop ▸ hall.start_lt_stop hi
  have hlo : lo ≤ i.start := (hall.joined.bounds hi).1
  have ht : max i.start released < beginTime := by
    rcases hgap with hgap | rfl
    · exact max_lt hlt hgap
    · rwa [max_eq_left hlo]
  have hsplit : front ++ (low ++ rest) ++ back = front ++ low ++ (rest ++ back) := by
    simp only [List.append_assoc]
  rw [hsplit] at hi
  exact plain_of_covers hf hlow (hempty.append hb) hi (le_max_right _ _) ht
    ⟨le_max_left _ _, ht.trans_eq hstop.symm⟩

/-- One waking: where its charge starts. -/
theorem chargeStart_step (hf : Path lo released front) (hw : Wakes released waking wake)
    (hgap : released < waking.beginTime ∨ released = lo)
    (hopens : Opens waking.beginTime duration next back)
    (hb : Path waking.beginTime duration back) :
    Attribution.chargeStart (joined (front ++ wake ++ back)) waking.beginTime =
      waking.startFrom (pending front waking.paid) next := by
  cases hw with
  | free hlow hpath hempty => exact chargeStart_of_free hf hlow hpath hempty hgap hb
  | paid hlow hpath hstate hlt => exact chargeStart_of_paid hf hlow hpath hstate hlt hopens hb

/-- One waking: what it leaves pending after the transfer of its burst. -/
theorem pending_step {transfer : StateInterval Rat} (hf : Path lo released front)
    (hw : Wakes released waking wake) (hgap : released < waking.beginTime ∨ released = lo)
    (hstart : transfer.start = waking.beginTime) (hle : transfer.start ≤ transfer.stop)
    (hplain : transfer.state.isPromotion = false)
    (hopens : Opens transfer.stop duration next back) :
    pending (front ++ wake ++ [transfer]) next = waking.carry (pending front waking.paid) next := by
  have hone : Plain [transfer] := Plain.singleton hplain
  have htransfer : Path waking.beginTime transfer.stop [transfer] := by
    rw [← hstart]
    exact ⟨⟨le_rfl, le_rfl⟩, hle, le_rfl, le_rfl⟩
  -- Plain time at the end leaves nothing pending.
  have hnone {planned : List (StateInterval Rat)} (h : ∀ last,
      (joined planned).getLast? = some last → last.state.isPromotion = false) :
      pending planned next = none := by
    refine pending_eq_none fun last hlast p hp hc => ?_
    have hno := h last hlast
    rw [hc.1, (hopens.bounds hp).1] at hno
    cases hno
  rcases eq_or_lt_of_le hle with heq | hlt
  · have hsame : joined (front ++ wake ++ [transfer]) = joined (front ++ wake) := by
      rw [← heq, hstart] at htransfer
      exact joined_append_of_empty htransfer
    cases hw with
    | @free beginTime low rest hlow hpath hempty =>
      refine hnone fun last hlast => ?_
      rw [hsame, ← List.append_assoc, joined_append_of_empty hempty] at hlast
      exact plain_getLast hf hlow hpath hgap hlast
    | @paid beginTime start state low hlow hpath hstate hlt' =>
      obtain ⟨init, hinit⟩ := exists_joined_paid (p := ⟨start, beginTime, state, false⟩) hf hlow
        hpath hstate hlt'
      have hlast := congrArg List.getLast? (hsame.trans hinit)
      rw [List.getLast?_concat] at hlast
      cases next with
      | none => exact pending_none
      | some q =>
        rw [pending_of_last hlast]
        simp [Waking.carry, runsOn, StateInterval.Continues]
  · have hafter : pending (front ++ wake ++ [transfer]) next = none :=
      hnone fun last hlast =>
        plain_getLast (hf.append hw.path) hone htransfer (.inl (hstart ▸ hlt)) hlast
    have hcarry : waking.carry (pending front waking.paid) next = none := by
      cases hw with
      | free hlow hpath hempty => rfl
      | paid hlow hpath hstate hlt' =>
        refine if_neg fun hruns => ?_
        obtain ⟨q, hq, hc⟩ := runsOn_iff.mp hruns
        have hmeet : transfer.start = q.start := hstart.trans (Scalar.agree_iff_eq.mp hc.2.2)
        exact absurd (hmeet ▸ (hopens.bounds hq).2) hlt.not_ge
    rw [hafter, hcarry]

end Step

namespace Ladder
variable {ladder : Ladder Rat} {released duration : Rat} {bursts : List (Burst Rat)}

/-- One burst: its waking and its transfer are planned, and then what comes after them. -/
theorem map_chargeStart_step {burst : Burst Rat} {rest : List (Burst Rat)} {waking : Waking}
    {front wake : List (StateInterval Rat)} (hl : ladder.Usable) (ha : ladder.PromotionsApart)
    (h0 : 0 ≤ released) (hf : Path 0 released front) (hw : Wakes released waking wake)
    (hbegin : waking.beginTime = burst.beginTime)
    (hgap : released < waking.beginTime ∨ released = 0) (hle : burst.beginTime ≤ burst.endTime)
    (hrest : Burst.Follow duration burst.endTime rest)
    (ih : ∀ front', Path 0 burst.endTime front' →
      rest.map (fun b => Attribution.chargeStart
          (joined (front' ++ ladder.planAfter duration burst.endTime rest)) b.beginTime) =
        startsFrom (pending front' (nextPaid (ladder.wakingsAfter burst.endTime rest)))
          (ladder.wakingsAfter burst.endTime rest)) :
    (burst :: rest).map (fun b => Attribution.chargeStart
        (joined (front ++ (wake ++ ladder.transfer burst
          :: ladder.planAfter duration burst.endTime rest))) b.beginTime) =
      startsFrom (pending front waking.paid)
        (waking :: ladder.wakingsAfter burst.endTime rest) := by
  have hb0 : 0 ≤ burst.beginTime := h0.trans (hbegin ▸ hw.path.le)
  have hopens := opens_planAfter hl ha (hb0.trans hle) hrest
  have hafter : Path burst.endTime duration (ladder.planAfter duration burst.endTime rest) :=
    path_planAfter hl (hb0.trans hle) hrest
  have htransfer : Path burst.beginTime burst.endTime [ladder.transfer burst] :=
    StateInterval.path_singleton hle
  have hplain : Plain [ladder.transfer burst] := Plain.singleton ha.active
  have hfront' : Path 0 burst.endTime (front ++ wake ++ [ladder.transfer burst]) :=
    (hf.append (hbegin ▸ hw.path)).append htransfer
  have hsplit : front ++ (wake ++ ladder.transfer burst
      :: ladder.planAfter duration burst.endTime rest) =
        front ++ wake ++ [ladder.transfer burst]
          ++ ladder.planAfter duration burst.endTime rest := by
    simp only [List.append_assoc, List.singleton_append]
  have hfirst : Attribution.chargeStart (joined (front ++ (wake ++ ladder.transfer burst
      :: ladder.planAfter duration burst.endTime rest))) burst.beginTime =
        waking.startFrom (pending front waking.paid)
          (nextPaid (ladder.wakingsAfter burst.endTime rest)) := by
    rw [← List.append_assoc, ← hbegin]
    exact chargeStart_step hf hw hgap (hbegin ▸ hopens.prepend hplain htransfer)
      (hbegin ▸ htransfer.append hafter)
  have hcarry : pending (front ++ wake ++ [ladder.transfer burst])
      (nextPaid (ladder.wakingsAfter burst.endTime rest)) =
        waking.carry (pending front waking.paid)
          (nextPaid (ladder.wakingsAfter burst.endTime rest)) :=
    pending_step hf hw hgap hbegin.symm hle ha.active hopens
  rw [List.map_cons, hfirst, hsplit, ih _ hfront', hcarry, startsFrom]

/-- After a release charges start where the wakings of the bursts say. -/
theorem map_chargeStart_planAfter {front : List (StateInterval Rat)} (hl : ladder.Usable)
    (ha : ladder.PromotionsApart) (h0 : 0 ≤ released) (hf : Path 0 released front)
    (h : Burst.Follow duration released bursts) :
    bursts.map (fun b => Attribution.chargeStart
        (joined (front ++ ladder.planAfter duration released bursts)) b.beginTime) =
      startsFrom (pending front (nextPaid (ladder.wakingsAfter released bursts)))
        (ladder.wakingsAfter released bursts) := by
  induction bursts generalizing released front with
  | nil => rfl
  | cons burst rest ih =>
    obtain ⟨hlt, hle, hrest⟩ := h
    have hend : 0 ≤ burst.endTime := h0.trans (hlt.le.trans hle)
    exact map_chargeStart_step hl ha h0 hf (wakes_wakeAfter hl ha h0 hlt.le) rfl (.inl hlt) hle
      hrest fun front' hf' => ih hend hf' hrest

/-- The charges of the bursts of a trace start where their wakings say. -/
theorem map_chargeStart_schedule (hl : ladder.Usable) (ha : ladder.PromotionsApart)
    (h : Burst.InSequence duration bursts) :
    bursts.map (fun b => Attribution.chargeStart
        (joined (ladder.schedule duration bursts)) b.beginTime) =
      startsFrom none (ladder.wakings bursts) := by
  cases bursts with
  | nil => rfl
  | cons burst rest =>
    obtain ⟨h0, hle, hrest⟩ := h
    have hnil : Path (0 : Rat) 0 [] := ⟨le_rfl, le_rfl⟩
    have hnone {next : Option (StateInterval Rat)} : pending [] next = none :=
      pending_eq_none fun last hlast => absurd hlast (by simp)
    have hstep := map_chargeStart_step hl ha le_rfl hnil (wakes_wakeFirst hl ha h0) rfl (.inr rfl)
      hle hrest fun front' hf' => map_chargeStart_planAfter hl ha (h0.trans hle) hf' hrest
    rwa [hnone] at hstep

theorem map_chargeStart_simulate (hl : ladder.Usable) (ha : ladder.PromotionsApart)
    (h : Burst.InSequence duration bursts) :
    bursts.map (fun b => Attribution.chargeStart (ladder.simulate bursts duration) b.beginTime) =
      startsFrom none (ladder.wakings bursts) := by
  rw [← map_chargeStart_schedule hl ha h]
  by_cases hd : 0 < duration
  · rw [simulate_eq_joined hl h hd]
  · -- A trace without length reports no promotion, and nothing of it is joined.
    have hnone : joined (ladder.schedule duration bursts) = [] :=
      (path_schedule hl h).joined_eq_nil (not_lt.mp hd)
    refine List.map_congr_left fun b _ => ?_
    rw [simulate_of_no_length hl h (not_lt.mp hd), hnone]
    have hidle : ∀ i ∈ [(⟨0, duration, ladder.idle, false⟩ : StateInterval Rat)],
        i.stop = b.beginTime → i.state.isPromotion = false := by
      intro i hi _
      obtain rfl := List.mem_singleton.mp hi
      exact ha.idle
    have hnil : ∀ i ∈ ([] : List (StateInterval Rat)),
        i.stop = b.beginTime → i.state.isPromotion = false := nofun
    rw [chargeStart_eq_beginTime hidle, chargeStart_eq_beginTime hnil]

end Ladder
end BurstEnergy.Radio
