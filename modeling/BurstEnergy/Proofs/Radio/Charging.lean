import BurstEnergy.Proofs.Burst.Segments
import BurstEnergy.Proofs.Radio.ChargeSum
import BurstEnergy.Radio.Simulation
import BurstEnergy.Radio.Statistics

/-!
# Charges and times

Charging keeps the times of bursts, and when it charges time twice.
-/
namespace BurstEnergy.Radio

/-! ## Charging keeps times

Charging a list of bursts changes no more than their energies, one span for each. Everything that
the simulation makes of bursts depends on their times.
-/
section Times
variable {α : Type} [Scalar α]

namespace Attribution
variable (model : EnergyModel α) (intervals : List (StateInterval α))
  (timeline : Traffic.Timeline α) (duration : α) (bursts : List (Burst α))

theorem map_charge {β : Type} {f : Burst α → β} (hf : ∀ b e, f { b with energy := e } = f b) :
    (charge model intervals timeline duration bursts).map f = bursts.map f := by
  have hlength : bursts.length ≤ (spans duration (bursts.map fun b =>
      chargeStart intervals b.beginTime)).length := by simp
  calc (charge model intervals timeline duration bursts).map f
      = ((bursts.zip (spans duration (bursts.map fun b =>
          chargeStart intervals b.beginTime))).map Prod.fst).map f := by
        rw [charge, List.map_map, List.map_map]
        exact List.map_congr_left fun _ _ => hf _ _
    _ = bursts.map f := by rw [List.map_fst_zip hlength]

theorem map_times_charge :
    (charge model intervals timeline duration bursts).map Burst.times =
      bursts.map Burst.times :=
  map_charge model intervals timeline duration bursts fun _ _ => rfl

theorem map_energy_charge :
    (charge model intervals timeline duration bursts).map (·.energy) =
      (spans duration (bursts.map fun b => chargeStart intervals b.beginTime)).map
        fun (start, stop) => spanEnergy model intervals timeline start stop := by
  have hlength : (spans duration (bursts.map fun b =>
      chargeStart intervals b.beginTime)).length ≤ bursts.length := by simp
  simp only [charge, List.map_map]
  change List.map ((fun span : α × α => spanEnergy model intervals timeline span.1 span.2) ∘
    Prod.snd) _ = _
  rw [← List.map_map, List.map_snd_zip hlength]

end Attribution

namespace Ladder
variable {ladder : Ladder α} {duration released : α} {bursts others : List (Burst α)}

theorem planAfter_of_times (h : others.map Burst.times = bursts.map Burst.times) :
    ladder.planAfter duration released others = ladder.planAfter duration released bursts := by
  induction others generalizing bursts released with
  | nil =>
    obtain rfl : bursts = [] := List.map_eq_nil_iff.mp h.symm
    rfl
  | cons other rest ih =>
    cases bursts with
    | nil => simp at h
    | cons burst rest' =>
      simp only [List.map_cons, List.cons.injEq, Burst.times, Prod.mk.injEq] at h
      obtain ⟨⟨hbegin, hend⟩, hrest⟩ := h
      simp only [planAfter, transfer, hbegin, hend, ih hrest]

theorem plan_of_times (h : others.map Burst.times = bursts.map Burst.times) :
    ladder.plan duration others = ladder.plan duration bursts := by
  cases others with
  | nil =>
    obtain rfl : bursts = [] := List.map_eq_nil_iff.mp h.symm
    rfl
  | cons other rest =>
    cases bursts with
    | nil => simp at h
    | cons burst rest' =>
      simp only [List.map_cons, List.cons.injEq, Burst.times, Prod.mk.injEq] at h
      obtain ⟨⟨hbegin, hend⟩, hrest⟩ := h
      simp only [plan, transfer, hbegin, hend, planAfter_of_times hrest]

/-- The simulation of bursts depends on their times alone. -/
theorem simulate_of_times (h : others.map Burst.times = bursts.map Burst.times) :
    ladder.simulate others duration = ladder.simulate bursts duration := by
  rw [simulate, simulate, plan_of_times h]

end Ladder

end Times

/-! ## Radio time charged twice

Charges that start later and later share no time. A run of promotions breaks this order, and its
last promotion is charged together with all before it. So time is charged to two bursts exactly
when a promotion after the first burst's is taken up by the next one.
-/
section Overlap
open Attribution (spans)

/-- No moment lies in both spans. -/
def SharesNoTime (a b : Rat × Rat) : Prop :=
  ∀ t, a.1 ≤ t → t < a.2 → b.1 ≤ t → ¬ t < b.2

variable {duration lo : Rat} {since : Option Rat} {waking next : Waking}
  {wakings rest : List Waking} {starts : List Rat}

theorem mem_of_mem_spans {span : Rat × Rat} (h : span ∈ spans duration starts) :
    span.1 ∈ starts := by
  induction starts with
  | nil => exact absurd h List.not_mem_nil
  | cons start rest ih =>
    rcases List.mem_cons.mp h with rfl | h
    · exact List.mem_cons_self
    · exact List.mem_cons_of_mem start (ih h)

/-- Spans share no time when they start in order, wherever the first one starts: should it start
after the second, it comes to nothing. -/
theorem pairwise_spans (h : starts.tail.Pairwise (· ≤ ·)) :
    (spans duration starts).Pairwise SharesNoTime := by
  induction starts with
  | nil => exact .nil
  | cons start rest ih =>
    refine List.pairwise_cons.mpr ⟨?_, ih h.tail⟩
    intro span hspan t _ hstop hlater
    cases rest with
    | nil => exact absurd hspan List.not_mem_nil
    | cons next later =>
      have hle : next ≤ span.1 := by
        rcases List.mem_cons.mp (mem_of_mem_spans hspan) with heq | hmem
        · exact heq.ge
        · exact (List.pairwise_cons.mp h).1 _ hmem
      exact absurd (hstop.trans_le (hle.trans hlater)) (lt_irrefl t)

theorem takenUp_cons_eq_nil_iff : takenUp since (waking :: rest) = [] ↔
    waking.carry since (nextPaid rest) = none ∧ takenUp none rest = [] := by
  rw [takenUp, List.append_eq_nil_iff]
  cases waking.carry since (nextPaid rest) <;> simp

theorem le_of_mem_startsFrom (h : Waking.Follow duration lo wakings)
    (hnone : takenUp none wakings = []) {start : Rat} (hmem : start ∈ startsFrom none wakings) :
    lo ≤ start := by
  induction wakings generalizing lo with
  | nil => exact absurd hmem List.not_mem_nil
  | cons waking rest ih =>
    obtain ⟨hlead, hsound, hrest⟩ := h
    obtain ⟨hcarry, hnone⟩ := takenUp_cons_eq_nil_iff.mp hnone
    rw [startsFrom, hcarry, Waking.startFrom_of_carry_none hcarry] at hmem
    rcases List.mem_cons.mp hmem with rfl | hmem
    · exact hlead
    · exact hlead.trans (hsound.lead_le.trans (ih hrest hnone hmem))

/-- Without promotions that are taken up, charges start in order. -/
theorem pairwise_startsFrom (h : Waking.Follow duration lo wakings)
    (hs : ∀ start, since = some start → start ≤ lo) (hnone : takenUp none wakings = []) :
    (startsFrom since wakings).Pairwise (· ≤ ·) := by
  induction wakings generalizing lo since with
  | nil => exact .nil
  | cons waking rest ih =>
    obtain ⟨hlead, hsound, hrest⟩ := h
    obtain ⟨hcarry, hnone⟩ := takenUp_cons_eq_nil_iff.mp hnone
    have hback : ∀ start, since = some start → start ≤ waking.lead :=
      fun start hsome => (hs start hsome).trans hlead
    rw [startsFrom, Waking.carry_eq_none_congr since hcarry]
    refine List.pairwise_cons.mpr ⟨fun start hmem => ?_, ih hrest (by simp) hnone⟩
    exact (startFrom_le hsound hback _).trans (le_of_mem_startsFrom hrest hnone hmem)

/-- A run of promotions ends with a charge that starts where the run is reported from. -/
theorem exists_span_of_pending (start : Rat) (h : Waking.Follow duration lo wakings)
    (hnext : (nextPaid wakings).isSome) :
    ∃ span ∈ spans duration (startsFrom (some start) wakings), span.1 = start ∧ lo ≤ span.2 := by
  induction wakings generalizing lo with
  | nil => cases hnext
  | cons waking rest ih =>
    obtain ⟨hlead, hsound, hrest⟩ := h
    have hbegin : lo ≤ waking.beginTime := hlead.trans hsound.lead_le
    obtain ⟨p, hp⟩ : ∃ p, waking.paid = some p := Option.isSome_iff_exists.mp hnext
    by_cases hruns : runsOn p (nextPaid rest) = true
    · have hcarry : waking.carry (some start) (nextPaid rest) = some start :=
        Waking.carry_of_runsOn hp hruns
      obtain ⟨q, hq, -⟩ := runsOn_iff.mp hruns
      obtain ⟨span, hspan, hstart, hle⟩ := ih hrest (hq ▸ rfl)
      refine ⟨span, ?_, hstart, hbegin.trans hle⟩
      rw [startsFrom, hcarry]
      exact List.mem_cons_of_mem _ hspan
    · have hcarry : waking.carry (some start) (nextPaid rest) = none :=
        Waking.carry_of_not_runsOn hp hruns
      have hfirst : waking.startFrom (some start) (nextPaid rest) = start :=
        Waking.startFrom_of_not_runsOn hp hruns
      refine ⟨(start, (startsFrom none rest).head?.getD duration), ?_, rfl,
        le_head_startsFrom hrest hbegin (by simp)⟩
      rw [startsFrom, hcarry, hfirst]
      exact List.mem_cons_self

/-- A promotion that is taken up is charged to the burst before and to the end of its run. -/
theorem carry_eq_none_of_pairwise (h : Waking.Follow duration lo (waking :: next :: rest))
    (hs : ∀ start, since = some start → start ≤ waking.lead)
    (hpair : (spans duration (startsFrom since (waking :: next :: rest))).Pairwise SharesNoTime) :
    next.carry none (nextPaid rest) = none := by
  obtain ⟨-, hsound, hlead, hsound', hrest⟩ := h
  cases hcarry : next.carry none (nextPaid rest) with
  | none => rfl
  | some first =>
    obtain ⟨p, hp, hruns, -⟩ := Waking.exists_of_carry hcarry
    obtain ⟨q, hq, -⟩ := runsOn_iff.mp hruns
    set before := waking.carry since (nextPaid (next :: rest)) with hbefore
    have hstart : before.getD p.start ≤ p.start := by
      have hback : ∀ start, before = some start → start ≤ next.lead :=
        fun start hsome => (Waking.carry_le hsound hs hsome).trans hlead
      exact (getD_le_lead hp hback).trans_eq (Waking.lead_of_paid hp)
    have hon : next.carry before (nextPaid rest) = some (before.getD p.start) :=
      Waking.carry_of_runsOn hp hruns
    have hfirst : next.startFrom before (nextPaid rest) = next.beginTime :=
      Waking.startFrom_of_runsOn hp hruns
    obtain ⟨span, hspan, hspanStart, hspanStop⟩ :=
      exists_span_of_pending (before.getD p.start) hrest (hq ▸ rfl)
    have hlt : p.start < next.beginTime := (hsound' p hp).2 ▸ (hsound' p hp).1
    have hhere : waking.startFrom since (nextPaid (next :: rest)) ≤ p.start := by
      rw [← Waking.lead_of_paid hp]
      exact (startFrom_le hsound hs _).trans hlead
    rw [startsFrom, ← hbefore, startsFrom, hon, hfirst] at hpair
    obtain ⟨hno, -⟩ := List.pairwise_cons.mp hpair
    have hshared := hno span (List.mem_cons_of_mem _ hspan) p.start hhere hlt
      (hspanStart.trans_le hstart)
    exact absurd (hlt.trans_le hspanStop) hshared

theorem takenUp_tail_eq_nil (h : Waking.Follow duration lo wakings)
    (hs : ∀ start, since = some start → start ≤ lo)
    (hpair : (spans duration (startsFrom since wakings)).Pairwise SharesNoTime) :
    takenUp none wakings.tail = [] := by
  induction wakings generalizing lo since with
  | nil => rfl
  | cons waking rest ih =>
    have hall := h
    obtain ⟨hlead, hsound, hrest⟩ := h
    have hback : ∀ start, since = some start → start ≤ waking.lead :=
      fun start hsome => (hs start hsome).trans hlead
    cases rest with
    | nil => rfl
    | cons next later =>
      have hcarry := carry_eq_none_of_pairwise hall hback hpair
      have hlater := ih hrest (fun start => Waking.carry_le hsound hback)
        (List.pairwise_cons.mp hpair).2
      exact takenUp_cons_eq_nil_iff.mpr ⟨hcarry, hlater⟩

/-- No time is charged twice exactly when no promotion after the first burst's is taken up. -/
theorem pairwise_sharesNoTime_iff (h : Waking.Follow duration lo wakings) :
    (spans duration (startsFrom none wakings)).Pairwise SharesNoTime ↔
      takenUp none wakings.tail = [] := by
  constructor
  · exact takenUp_tail_eq_nil h nofun
  · intro hnone
    cases wakings with
    | nil => exact .nil
    | cons waking rest =>
      obtain ⟨hlead, hsound, hrest⟩ := h
      have hcarried : ∀ start, waking.carry none (nextPaid rest) = some start →
          start ≤ waking.beginTime := fun start => Waking.carry_le hsound nofun
      exact pairwise_spans (pairwise_startsFrom hrest hcarried hnone)

end Overlap

end BurstEnergy.Radio
