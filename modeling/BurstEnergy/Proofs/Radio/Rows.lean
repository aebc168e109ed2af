import Mathlib
import BurstEnergy.Proofs.Profile.Additivity
import BurstEnergy.Proofs.Radio.Selection
import BurstEnergy.Radio.Statistics

/-!
# Rows of the statistics

What the rows add up to, and that splitting intervals keeps their energies.
-/

/-! ## The rows of the statistics

A row holds what the intervals of one state add up to, and no two rows are about the same state. So
the rows of any choice of states add up to what the intervals in these states add up to, be it time,
energy or the number of visits. The tail time of a row is part of its time.
-/
namespace BurstEnergy.Radio
open StateInterval (Path)

section Groups
variable {M κ β : Type} [AddCommMonoid M] [DecidableEq κ] {keys : List κ}

/-- An amount counts for one of several distinct keys at most. -/
theorem sum_map_ite_key (hn : keys.Nodup) (key : κ) (amount : M) :
    (keys.map fun k => if key = k then amount else 0).sum =
      if key ∈ keys then amount else 0 := by
  induction keys with
  | nil => rfl
  | cons k rest ih =>
    obtain ⟨hk, hrest⟩ := List.nodup_cons.mp hn
    by_cases he : key = k
    · subst he
      simp [ih hrest, hk]
    · simp [ih hrest, he]

/-- Groups by distinct keys add up to everything that has one of the keys. -/
theorem sum_groups (hn : keys.Nodup) (key : β → κ) (f : β → M) (l : List β) :
    (keys.map fun k => ((l.filter fun b => key b = k).map f).sum).sum =
      ((l.filter fun b => key b ∈ keys).map f).sum := by
  induction l with
  | nil => simp
  | cons b rest ih =>
    have hgroup (p : Prop) [Decidable p] (others : List β) :
        ((if p then b :: others else others).map f).sum =
          (if p then f b else 0) + (others.map f).sum := by
      split <;> simp
    simp only [List.filter_cons, decide_eq_true_eq, hgroup, List.sum_map_add, ih,
      sum_map_ite_key hn]

end Groups

theorem StateInterval.Path.sum_duration {intervals : List (StateInterval Rat)} {lo hi : Rat}
    (h : Path lo hi intervals) : (intervals.map (·.duration)).sum = hi - lo := by
  induction intervals generalizing lo with
  | nil => exact (sub_eq_zero.mpr (Scalar.agree_iff_eq.mp h).symm).symm
  | cons i rest ih =>
    obtain ⟨hstart, -, hrest⟩ := h
    have hmeet : lo = i.start := Scalar.agree_iff_eq.mp hstart
    rw [List.map_cons, List.sum_cons, ih hrest, hmeet, StateInterval.duration]
    ring

namespace StateTotals

section Lookup
variable {α : Type} [Scalar α] {model : EnergyModel α} {timeline : Traffic.Timeline α}
  {duration : α} {intervals : List (StateInterval α)} {states : List State} {state : State}

theorem find?_map_ofIntervals (h : state ∈ states) :
    (states.map (ofIntervals model timeline duration intervals)).find? (·.state = state) =
      some (ofIntervals model timeline duration intervals state) := by
  have hfind : states.find? (· = state) = some state := by
    have hfound : (states.find? (· = state)).isSome :=
      List.find?_isSome.mpr ⟨state, h, by simp⟩
    obtain ⟨found, hfound⟩ := Option.isSome_iff_exists.mp hfound
    have heq : found = state := by simpa using List.find?_some hfound
    rw [hfound, heq]
  have hmap : (states.map (ofIntervals model timeline duration intervals)).find?
      (·.state = state) = (states.find? (· = state)).map
        (ofIntervals model timeline duration intervals) := List.find?_map
  rw [hmap, hfind]
  rfl

theorem lookup_map_ofIntervals (h : state ∈ states) :
    lookup (states.map (ofIntervals model timeline duration intervals)) state =
      ofIntervals model timeline duration intervals state := by
  rw [lookup, find?_map_ofIntervals h]
  rfl

end Lookup

variable {model : EnergyModel Rat} {timeline : Traffic.Timeline Rat} {duration : Rat}
  {intervals : List (StateInterval Rat)} {state : State}

theorem seconds_ofIntervals :
    (ofIntervals model timeline duration intervals state).seconds =
      ((intervals.filter (·.state = state)).map (·.duration)).sum := Scalar.tally_eq_sum _

theorem energy_ofIntervals :
    (ofIntervals model timeline duration intervals state).energy =
      ((intervals.filter (·.state = state)).map (·.cost model timeline)).sum :=
  Scalar.tally_eq_sum _

theorem tailSeconds_ofIntervals :
    (ofIntervals model timeline duration intervals state).tailSeconds =
      (((intervals.filter (·.state = state)).filter (·.tail)).map (·.duration)).sum :=
  Scalar.tally_eq_sum _

theorem ratio_ofIntervals :
    (ofIntervals model timeline duration intervals state).ratio =
      Scalar.share (ofIntervals model timeline duration intervals state).seconds duration := rfl

theorem intervals_ofIntervals :
    (ofIntervals model timeline duration intervals state).intervals =
      ((intervals.filter (·.state = state)).map fun _ => 1).sum := by
  simp [ofIntervals]

theorem tailSeconds_nonneg (h : ∀ i ∈ intervals, 0 ≤ i.duration) :
    0 ≤ (ofIntervals model timeline duration intervals state).tailSeconds := by
  rw [tailSeconds_ofIntervals]
  refine List.sum_nonneg fun x hx => ?_
  obtain ⟨i, hi, rfl⟩ := List.mem_map.mp hx
  exact h i (List.mem_of_mem_filter (List.mem_of_mem_filter hi))

theorem tailSeconds_le_seconds (h : ∀ i ∈ intervals, 0 ≤ i.duration) :
    (ofIntervals model timeline duration intervals state).tailSeconds ≤
      (ofIntervals model timeline duration intervals state).seconds := by
  rw [tailSeconds_ofIntervals, seconds_ofIntervals]
  refine (List.filter_sublist.map _).sum_le_sum fun x hx => ?_
  obtain ⟨i, hi, rfl⟩ := List.mem_map.mp hx
  exact h i (List.mem_of_mem_filter hi)

theorem tailSeconds_eq_seconds (h : ∀ i ∈ intervals, i.state = state → i.tail = true) :
    (ofIntervals model timeline duration intervals state).tailSeconds =
      (ofIntervals model timeline duration intervals state).seconds := by
  rw [tailSeconds_ofIntervals, seconds_ofIntervals, List.filter_eq_self.mpr]
  intro i hi
  obtain ⟨hmem, hstate⟩ := List.mem_filter.mp hi
  exact h i hmem (of_decide_eq_true hstate)

theorem tailSeconds_eq_zero (h : ∀ i ∈ intervals, i.state = state → i.tail = false) :
    (ofIntervals model timeline duration intervals state).tailSeconds = 0 := by
  rw [tailSeconds_ofIntervals, List.filter_eq_nil_iff.mpr]
  · rfl
  · intro i hi
    obtain ⟨hmem, hstate⟩ := List.mem_filter.mp hi
    simp [h i hmem (of_decide_eq_true hstate)]

theorem seconds_sub_tailSeconds :
    (ofIntervals model timeline duration intervals state).seconds -
        (ofIntervals model timeline duration intervals state).tailSeconds =
      ((StateInterval.withMode (· = (state, false)) intervals).map (·.duration)).sum := by
  have hplain : StateInterval.withMode (· = (state, false)) intervals =
      (intervals.filter (·.state = state)).filter fun i => ¬ i.tail = true := by
    rw [StateInterval.withMode, List.filter_filter]
    refine List.filter_congr fun i _ => ?_
    simp [StateInterval.mode, and_comm]
  have hsplit := List.sum_map_filter_add_sum_map_filter_not
    (fun i : StateInterval Rat => i.tail = true) (·.duration)
    (intervals.filter (·.state = state))
  simp only [Bool.decide_eq_true] at hsplit
  rw [tailSeconds_ofIntervals, seconds_ofIntervals, hplain, ← hsplit, add_sub_cancel_left]

end StateTotals

namespace Statistics

theorem row?_reduce {α : Type} [Scalar α] {ladder : Ladder α} {model : EnergyModel α}
    {timeline : Traffic.Timeline α} {duration : α} {intervals : List (StateInterval α)}
    {state : State} (h : state.family = ladder.family) :
    (reduce ladder model intervals timeline duration).row? state =
      some (.ofIntervals model timeline duration intervals state) :=
  StateTotals.find?_map_ofIntervals ((ladder.family.mem_states_iff state).mpr h)

theorem energy_reduce {ladder : Ladder Rat} {model : EnergyModel Rat}
    {timeline : Traffic.Timeline Rat} {duration : Rat} {intervals : List (StateInterval Rat)}
    {state : State} (h : state.family = ladder.family) :
    (reduce ladder model intervals timeline duration).energy state =
      ((intervals.filter (·.state = state)).map (·.cost model timeline)).sum := by
  rw [energy, row?_reduce h]
  exact StateTotals.energy_ofIntervals

variable {M : Type} [AddCommMonoid M] {ladder : Ladder Rat} {model : EnergyModel Rat}
  {timeline : Traffic.Timeline Rat} {duration : Rat} {intervals : List (StateInterval Rat)}

/-- Rows of chosen states add up to what the intervals in these states add up to. -/
theorem sum_rows (hf : ∀ i ∈ intervals, i.state.family = ladder.family) (p : State → Bool)
    {entry : StateTotals Rat → M} {f : StateInterval Rat → M}
    (h : ∀ state, entry (.ofIntervals model timeline duration intervals state) =
      ((intervals.filter (·.state = state)).map f).sum) :
    (((reduce ladder model intervals timeline duration).states.filter (p ·.state)).map entry).sum =
      ((intervals.filter (p ·.state)).map f).sum := by
  have hrows : (reduce ladder model intervals timeline duration).states.filter (p ·.state) =
      (ladder.family.states.filter p).map
        (StateTotals.ofIntervals model timeline duration intervals) := List.filter_map
  have hchosen : intervals.filter (fun i => i.state ∈ ladder.family.states.filter p) =
      intervals.filter (p ·.state) := by
    refine List.filter_congr fun i hi => ?_
    have hknown : i.state ∈ ladder.family.states := (ladder.family.mem_states_iff _).mpr (hf i hi)
    simp [List.mem_filter, hknown]
  rw [hrows, List.map_map, ← hchosen, ← sum_groups (ladder.family.states_nodup.filter p)]
  exact congrArg List.sum (List.map_congr_left fun state _ => h state)

theorem sum_all_rows (hf : ∀ i ∈ intervals, i.state.family = ladder.family)
    {entry : StateTotals Rat → M} {f : StateInterval Rat → M}
    (h : ∀ state, entry (.ofIntervals model timeline duration intervals state) =
      ((intervals.filter (·.state = state)).map f).sum) :
    ((reduce ladder model intervals timeline duration).states.map entry).sum =
      (intervals.map f).sum := by
  have hall := sum_rows hf (fun _ => true) h
  rw [List.filter_true, List.filter_true] at hall
  exact hall

end Statistics
end BurstEnergy.Radio

/-! ## Splitting intervals

An interval that is split at some time becomes two visits to one state. For an additive energy model
the two cost what the one costs, so however often and wherever intervals are split, no row of the
statistics and no total changes its energy. The energy of a validated profile is additive, and none
of the parts costs less than nothing.
-/
namespace BurstEnergy.Radio
open Traffic (Timeline)

namespace StateInterval
variable {coarse fine : List (StateInterval Rat)}

/-- One interval of a list is split in two at a time within it. -/
inductive Split : List (StateInterval Rat) → List (StateInterval Rat) → Prop
  | atTime (before after : List (StateInterval Rat)) (i : StateInterval Rat) (mid : Rat)
      (hs : i.start ≤ mid) (hm : mid ≤ i.stop) :
      Split (before ++ i :: after)
        (before ++ { i with stop := mid } :: { i with start := mid } :: after)

/-- Intervals that are left when others are split any number of times. -/
abbrev Refines (fine coarse : List (StateInterval Rat)) : Prop :=
  Relation.ReflTransGen Split coarse fine

variable {model : EnergyModel Rat} {timeline : Timeline Rat}

/-- The energy of the intervals in some states. -/
def costIn (model : EnergyModel Rat) (timeline : Timeline Rat) (p : State → Bool)
    (intervals : List (StateInterval Rat)) : Rat :=
  ((intervals.filter (p ·.state)).map (·.cost model timeline)).sum

theorem costIn_append (p : State → Bool) (front back : List (StateInterval Rat)) :
    costIn model timeline p (front ++ back) =
      costIn model timeline p front + costIn model timeline p back := by
  simp [costIn]

theorem costIn_cons (p : State → Bool) (i : StateInterval Rat) (rest : List (StateInterval Rat)) :
    costIn model timeline p (i :: rest) =
      (if p i.state then i.cost model timeline else 0) + costIn model timeline p rest := by
  cases hp : p i.state <;> simp [costIn, hp]

theorem cost_eq_add (hm : model.Additive timeline) {i : StateInterval Rat} {mid : Rat}
    (hstart : i.start ≤ mid) (hstop : mid ≤ i.stop) :
    i.cost model timeline = ({ i with stop := mid } : StateInterval Rat).cost model timeline +
      ({ i with start := mid } : StateInterval Rat).cost model timeline :=
  hm.split hstart hstop i.state

theorem Split.costIn_eq (hm : model.Additive timeline) (h : Split coarse fine)
    (p : State → Bool) : costIn model timeline p fine = costIn model timeline p coarse := by
  obtain ⟨before, after, i, mid, hstart, hstop⟩ := h
  simp only [costIn_append, costIn_cons, cost_eq_add hm hstart hstop]
  split <;> ring

theorem Refines.costIn_eq (hm : model.Additive timeline) (h : Refines fine coarse)
    (p : State → Bool) : costIn model timeline p fine = costIn model timeline p coarse := by
  induction h with
  | refl => rfl
  | tail _ hsplit ih => exact (hsplit.costIn_eq hm p).trans ih

end StateInterval

open StateInterval (Split Refines costIn)

namespace Statistics
variable {model : EnergyModel Rat} {timeline : Timeline Rat}
  {coarse fine : List (StateInterval Rat)}

/-- What statistics say about energy: that of each row, and the total. -/
def energies (s : Statistics Rat) : List (State × Rat) × Rat :=
  (s.states.map fun row => (row.state, row.energy), s.totalEnergy)

theorem energies_reduce (ladder : Ladder Rat) (model : EnergyModel Rat) (timeline : Timeline Rat)
    (intervals : List (StateInterval Rat)) (duration : Rat) :
    (reduce ladder model intervals timeline duration).energies =
      (ladder.family.states.map fun state =>
          (state, costIn model timeline (fun s => decide (s = state)) intervals),
        costIn model timeline ladder.family.states.contains intervals) := by
  have hrow (state : State) :
      (StateTotals.ofIntervals model timeline duration intervals state).energy =
        costIn model timeline (fun s => decide (s = state)) intervals :=
    StateTotals.energy_ofIntervals
  refine Prod.ext ?_ (Scalar.tally_eq_sum _)
  simp only [energies, reduce, List.map_map]
  exact List.map_congr_left fun state _ => congrArg (Prod.mk state) (hrow state)

/-- Splitting intervals leaves all energies as they are. -/
theorem energies_of_refines (hm : model.Additive timeline) (h : Refines fine coarse)
    (ladder : Ladder Rat) (duration : Rat) :
    (reduce ladder model fine timeline duration).energies =
      (reduce ladder model coarse timeline duration).energies := by
  simp only [energies_reduce, h.costIn_eq hm]

end Statistics

end BurstEnergy.Radio

namespace BurstEnergy.Profile
open Radio (State Ladder StateInterval Statistics)
open Radio.StateInterval (Refines)
open Traffic (Timeline)

/-- The energy of a validated profile is additive over time and never below zero: a span costs what
its two parts cost, wherever it is split, and the statistics of intervals say the same about energy
when the intervals are split any number of times. -/
theorem energy_splits {profile : Profile Rat} {timeline : Timeline Rat}
    (hp : profile.validate = .ok ()) (ht : timeline.Ordered) :
    (∀ (state : State) (start mid stop : Rat), start ≤ mid → mid ≤ stop →
      profile.energy start stop state (timeline.between start stop) =
        profile.energy start mid state (timeline.between start mid) +
          profile.energy mid stop state (timeline.between mid stop)) ∧
    (∀ (state : State) (start stop : Rat),
      0 ≤ profile.energy start stop state (timeline.between start stop)) ∧
    ∀ (ladder : Ladder Rat) (duration : Rat) (fine coarse : List (StateInterval Rat)),
      Refines fine coarse →
      (Statistics.reduce ladder profile.energy fine timeline duration).energies =
        (Statistics.reduce ladder profile.energy coarse timeline duration).energies := by
  have hadditive := profile.energy_additive ht
  refine ⟨fun state start mid stop hs hm => hadditive.split hs hm state,
    fun state start stop => energy_nonneg state hp start stop _, ?_⟩
  intro ladder duration fine coarse hrefines
  exact Statistics.energies_of_refines hadditive hrefines ladder duration

/-- Three packets, two of them just when the radio time is split. -/
def splitPackets : Timeline Rat :=
  ⟨[.data 1 .downlink 125000, .data 2 .uplink 125000, .data 2 .downlink 125000]⟩

/-- A WiFi transfer that is split where two packets are seen. -/
theorem energy_splits_tie :
    (preset .wifi : Profile Rat).validate = .ok () ∧ splitPackets.Ordered ∧
    (preset .wifi : Profile Rat).energy 1 4 .wifiActive (splitPackets.between 1 4) =
      (preset .wifi : Profile Rat).energy 1 2 .wifiActive (splitPackets.between 1 2) +
        (preset .wifi : Profile Rat).energy 2 4 .wifiActive (splitPackets.between 2 4) ∧
    (Statistics.reduce (.ofProfile (preset .wifi)) (preset .wifi : Profile Rat).energy
        [⟨0, 1, .wifiIdle, false⟩, ⟨1, 2, .wifiActive, false⟩, ⟨2, 4, .wifiActive, false⟩]
        splitPackets 4).energies =
      (Statistics.reduce (.ofProfile (preset .wifi)) (preset .wifi : Profile Rat).energy
        [⟨0, 1, .wifiIdle, false⟩, ⟨1, 4, .wifiActive, false⟩] splitPackets 4).energies := by
  have hp : (preset .wifi : Profile Rat).validate = .ok () := by decide +kernel
  have ht : splitPackets.Ordered := by
    unfold Timeline.Ordered
    decide +kernel
  have hsplit : Refines
      [⟨0, 1, .wifiIdle, false⟩, ⟨1, 2, .wifiActive, false⟩, ⟨2, 4, .wifiActive, false⟩]
      [⟨0, 1, .wifiIdle, false⟩, ⟨1, 4, .wifiActive, false⟩] :=
    .single (.atTime [⟨0, 1, .wifiIdle, false⟩] [] ⟨1, 4, .wifiActive, false⟩ 2
      (by norm_num) (by norm_num))
  obtain ⟨hadd, -, hreduce⟩ := energy_splits hp ht
  exact ⟨hp, ht, hadd .wifiActive 1 2 4 (by norm_num) (by norm_num), hreduce _ 4 _ _ hsplit⟩

end BurstEnergy.Profile
