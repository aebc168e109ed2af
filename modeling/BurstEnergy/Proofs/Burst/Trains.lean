import BurstEnergy.Proofs.Burst.Chains
import BurstEnergy.Proofs.Scalar.Binary64Quotient

/-!
# Trains

Bursts that repeat with each neighbour are found, with some tolerance or evenly spaced.
-/
namespace BurstEnergy.Periodicity

/-! ## Trains of bursts

In a train every gap between neighbours is the least cycle, give or take the tolerance. That alone
does not make a cycle: the last gap is the cycle that the others are held against, it may not be
shorter than the least one, and each burst is looked for one such cycle before the next, where it
has to be nearer than its own neighbour. With that the chain runs from neighbour to neighbour, and a
cycle is found, which is above zero even after rounding.
-/
section Trains
open Scalar (Antitone Gradual Lawful Monotone distance)

section Descent
variable {low length : ℕ}

/-- Positions from one down to another, each linked to the next below it. -/
theorem isChain_descending {link : ℕ → ℕ → Prop}
    (h : ∀ j, low ≤ j → j < low + length → link (j + 1) j) :
    ((low + length) :: (List.range' low length).reverse).IsChain link := by
  induction length with
  | zero => exact List.isChain_singleton low
  | succ length ih =>
    rw [List.range'_1_concat, List.reverse_concat, List.isChain_cons_cons]
    exact ⟨h _ (Nat.le_add_right low length) (Nat.lt_succ_self _),
      ih fun j hle hlt => h j hle (Nat.lt_succ_of_lt hlt)⟩

theorem getLast?_descending :
    ((low + length) :: (List.range' low length).reverse).getLast? = some low := by
  cases length with
  | zero => rfl
  | succ length =>
    rw [List.getLast?_cons, List.getLast?_reverse, List.head?_range', if_neg (Nat.succ_ne_zero _)]
    rfl

end Descent

section Search
variable {α : Type} [Scalar α] {d : Detector α} {times : List α} {t s f cycle : α}
  {index low position : ℕ}

/-- Every gap between neighbours is the least cycle, give or take the tolerance. -/
def IsTrain (d : Detector α) (times : List α) : Prop :=
  times.IsChain fun s t =>
    d.minCycle - d.tolerance ≤ t - s ∧ t - s ≤ d.minCycle + d.tolerance

instance : Decidable (IsTrain d times) := inferInstanceAs (Decidable (times.IsChain _))

/-- Nothing is found in a train of more bursts than are asked for. -/
def IsMissedTrain (d : Detector α) (times : List α) : Prop :=
  (0 < d.tolerance ∧ d.tolerance < d.minCycle) ∧
    (0 < d.minSamples ∧ d.minSamples < times.length) ∧
    IsTrain d times ∧ (detect d times).found = false

instance : Decidable (IsMissedTrain d times) := inferInstanceAs (Decidable (_ ∧ _))

/-- A burst repeats with the next one: one cycle before the next it is within the tolerance, and
nearer than the burst before it. -/
def Repeats (d : Detector α) (times : List α) (cycle : α) (position : ℕ) : Prop :=
  ∃ x y, times[position]? = some x ∧ times[position + 1]? = some y ∧
    Scalar.magnitude (x - (y - cycle)) ≤ d.tolerance ∧
    ∀ before z, before + 1 = position → times[before]? = some z →
      distance (y - cycle) x < distance (y - cycle) z

section Steps
variable [Lawful α]

theorem IsTrain.pairwise_lt [Gradual α] (htrain : IsTrain d times)
    (hfin : ∀ x ∈ times, Scalar.isFinite x = true) (hm : Scalar.isFinite d.minCycle = true)
    (hw : Scalar.isFinite d.tolerance = true) (hwm : d.tolerance < d.minCycle) :
    times.Pairwise (· < ·) := by
  have : Trans (fun x y : α => x < y) (fun x y : α => x < y) (fun x y : α => x < y) :=
    ⟨fun hxy hyz => Scalar.lt_of_lt_of_le hxy (Scalar.le_of_lt hyz)⟩
  refine List.isChain_iff_pairwise.mp (List.isChain_iff_getElem.mpr fun i hi => ?_)
  obtain ⟨hgap, -⟩ := List.isChain_iff_getElem.mp htrain i hi
  have hpos : 0 < d.minCycle - d.tolerance := (Gradual.sub_pos_iff hm hw).mpr hwm
  exact (Gradual.sub_pos_iff (hfin _ (List.getElem_mem hi)) (hfin _ (List.getElem_mem _))).mp
    (Scalar.lt_of_lt_of_le hpos hgap)

variable [Monotone α] [Antitone α]

/-- Farther back no burst is as near as the one before the neighbour. -/
theorem Repeats.nearestLink (h : Repeats d times cycle position) (htimes : Ascending times)
    (hc : cycle ≤ cycle) : NearestLink d times cycle (position + 1) position := by
  obtain ⟨x, y, hx, hy, hwithin, hnear⟩ := h
  have htarget := Scalar.sub_le_self_of_isFinite (htimes.isFinite hy) hc
  have hlink : Link d times cycle (position + 1) position :=
    ⟨Nat.lt_succ_self position, y, x, hy, hx, hwithin⟩
  refine ClearLink.nearestLink ⟨hlink, fun y' x' hy' hx' other hother hne u hu => ?_⟩ htimes hc
  obtain rfl := Option.some.inj (hy.symm.trans hy')
  obtain rfl := Option.some.inj (hx.symm.trans hx')
  obtain ⟨before, rfl⟩ : ∃ before, position = before + 1 := ⟨position - 1, by omega⟩
  obtain ⟨z, hz⟩ : ∃ z, times[before]? = some z := by
    have hlt := (List.getElem?_eq_some_iff.mp hx).1
    exact ⟨_, List.getElem?_eq_getElem ((Nat.lt_succ_self before).trans hlt)⟩
  have hxz := hnear before z rfl hz
  -- from the target on the earlier of two bursts is the nearer one
  have hbefore : z < y - cycle := by
    by_contra hge
    exact Scalar.not_le_of_lt hxz (Scalar.distance_le_of_not_lt (htimes.isFinite hz)
      (htimes.isFinite hx) htarget (htimes.le (Nat.le_succ before) hz hx) hge)
  exact Scalar.lt_of_lt_of_le hxz (Scalar.distance_le_of_lt (htimes.isFinite hu)
    (htimes.isFinite hz) htarget (htimes.le (by omega) hu hz) hbefore)

/-- A chain from neighbour to neighbour is the first that is tried. -/
theorem cycle_of_repeats (htimes : Ascending times)
    (hrange : d.minCycle ≤ d.minCycle + d.tolerance) {links : ℕ} (hn : d.minSamples = links + 1)
    (hf : times[low]? = some f) (hs : times[low + links]? = some s)
    (ht : times[low + links + 1]? = some t) (hmin : d.minCycle ≤ t - s)
    (hmax : t - s ≤ d.minCycle + d.tolerance)
    (hrepeats : ∀ j, low ≤ j → j < low + links → Repeats d times (t - s) j) :
    (detect d times).cycle (low + links + 1) = some ((t - f) / (d.minSamples : α)) := by
  have hlinked := isChain_descending fun j hle hlt =>
    (hrepeats j hle hlt).nearestLink htimes (Scalar.le_self_right hmin)
  have hchain : Chain NearestLink d times t (t - s) (low + links)
      (List.range' low links).reverse :=
    ⟨⟨s, hs, rfl⟩, hmin, hmax, by rw [List.length_reverse, List.length_range', hn], hlinked⟩
  have hfound := (foundFrom_iff htimes (htimes.isFinite ht) hrange (by omega)).mpr
    ⟨t - s, _, low, f, hchain, getLast?_descending, hf, rfl⟩
  rw [cycle_detect, cycleAt, ht]
  exact searchAnchors_of_foundFrom hfound

theorem cycle_pos [Gradual α] (htimes : Ascending times) (hgrow : times.Pairwise (· < ·))
    (hrange : d.minCycle ≤ d.minCycle + d.tolerance) (hn : 0 < d.minSamples) {found : α}
    (hfound : (detect d times).cycle index = some found) : 0 < found := by
  obtain ⟨t, ht, -⟩ := Option.bind_eq_some_iff.mp (cycle_detect.symm.trans hfound)
  obtain ⟨cycle, anchor, rest, first, f, hback, hchain, hlast, hf, rfl, -⟩ :=
    isMeanOfChain_of_cycle htimes hrange hn ht hfound
  have hsteps := add_length_le hback ((List.getLast?_cons_cons ..).trans hlast)
  rw [List.length_cons, hchain.length] at hsteps
  exact Gradual.mean_pos htimes.finite hgrow hf ht hsteps hn

/-- Bursts repeat just when some cycle is reported. -/
theorem found_iff_exists_cycle [Gradual α] (htimes : Ascending times)
    (hgrow : times.Pairwise (· < ·)) (hrange : d.minCycle ≤ d.minCycle + d.tolerance)
    (hn : 0 < d.minSamples) :
    (detect d times).found = true ↔ ∃ index, (detect d times).cycle index ≠ none := by
  rw [Result.found, decide_eq_true_iff]
  rcases minimumRepeatTime_cases d times with ⟨hmin, hnone⟩ | ⟨index, hindex⟩
  · rw [hmin]
    refine iff_of_false (fun hlt => Scalar.not_le_of_lt hlt Lawful.zero_le_zero) ?_
    rintro ⟨index, hsome⟩
    exact hsome (hnone index)
  · refine iff_of_true (cycle_pos htimes hgrow hrange hn hindex) ⟨index, fun hnone => ?_⟩
    exact Option.some_ne_none _ (hindex.symm.trans hnone)

/-- A train is found when one of its gaps is no less than the least cycle and the bursts before it,
as many as are asked for, repeat one such cycle before the next one. -/
theorem found_of_train [Gradual α] (hfin : ∀ x ∈ times, Scalar.isFinite x = true)
    (hm : Scalar.isFinite d.minCycle = true) (hw : Scalar.isFinite d.tolerance = true)
    (hpos : 0 < d.tolerance) (hwm : d.tolerance < d.minCycle) (hn : 0 < d.minSamples)
    (htrain : IsTrain d times) (hindex : d.minSamples ≤ index) (ht : times[index]? = some t)
    (hs : times[index - 1]? = some s) (hgap : d.minCycle ≤ t - s)
    (hrepeats : ∀ j, index - d.minSamples ≤ j → j + 1 < index → Repeats d times (t - s) j) :
    (detect d times).found = true ∧ (detect d times).minimumRepeatTime ≠ 0 := by
  have hgrow := htrain.pairwise_lt hfin hm hw hwm
  have htimes := Ascending.of_pairwise_lt hfin hgrow
  have hrange : d.minCycle ≤ d.minCycle + d.tolerance :=
    Lawful.le_add (Scalar.le_of_lt (Scalar.lt_of_lt_of_le hpos (Scalar.le_of_lt hwm)))
      (Scalar.le_of_lt hpos)
  obtain ⟨links, hlinks⟩ := Nat.exists_eq_add_one.mpr hn
  obtain ⟨low, rfl⟩ : ∃ low, index = low + links + 1 := ⟨index - d.minSamples, by omega⟩
  have hlow : low + links + 1 - d.minSamples = low := by omega
  obtain ⟨f, hf⟩ : ∃ f, times[low]? = some f := by
    have hlt := (List.getElem?_eq_some_iff.mp ht).1
    exact ⟨_, List.getElem?_eq_getElem (by omega)⟩
  have hmax : t - s ≤ d.minCycle + d.tolerance := by
    obtain ⟨hlt, rfl⟩ := List.getElem?_eq_some_iff.mp ht
    obtain ⟨-, rfl⟩ := List.getElem?_eq_some_iff.mp hs
    exact (List.isChain_iff_getElem.mp htrain (low + links) hlt).2
  have hcycle := cycle_of_repeats htimes hrange hlinks hf hs ht hgap hmax fun j hle hlt =>
    hrepeats j (hlow.le.trans hle) (Nat.succ_lt_succ hlt)
  have hfound : (detect d times).found = true :=
    (found_iff_exists_cycle htimes hgrow hrange hn).mpr
      ⟨_, fun hnone => Option.some_ne_none _ (hcycle.symm.trans hnone)⟩
  refine ⟨hfound, fun hzero => ?_⟩
  rw [Result.found, hzero, decide_eq_true_iff] at hfound
  exact Scalar.not_le_of_lt hfound Lawful.zero_le_zero

/-- Every second gap is short, and the last one is not, in binary64. -/
theorem found_of_train_alternating :
    IsTrain ⟨10, 0.5, 3⟩ ([0, 9.75, 20, 29.75, 40] : List Float) ∧
    (detect ⟨10, 0.5, 3⟩ ([0, 9.75, 20, 29.75, 40] : List Float)).found = true ∧
    (detect ⟨10, 0.5, 3⟩ ([0, 9.75, 20, 29.75, 40] : List Float)).minimumRepeatTime ≠ 0 := by
  have hfin : ∀ x ∈ ([0, 9.75, 20, 29.75, 40] : List Float), Scalar.isFinite x = true := by
    decide +kernel
  have htrain : IsTrain ⟨10, 0.5, 3⟩ ([0, 9.75, 20, 29.75, 40] : List Float) := by decide +kernel
  have ht : ([0, 9.75, 20, 29.75, 40] : List Float)[4]? = some 40 := rfl
  have hs : ([0, 9.75, 20, 29.75, 40] : List Float)[4 - 1]? = some 29.75 := rfl
  refine ⟨htrain, found_of_train (d := ⟨10, 0.5, 3⟩) hfin (by decide +kernel) (by decide +kernel)
    (by decide +kernel) (by decide +kernel) (by decide) htrain (by decide) ht hs
    (by decide +kernel) fun j hlow hhigh => ?_⟩
  obtain rfl | rfl : j = 1 ∨ j = 2 := by
    simp only at hlow
    omega
  · refine ⟨9.75, 20, rfl, rfl, by decide +kernel, fun before z hbefore hz => ?_⟩
    obtain rfl : before = 0 := by omega
    obtain rfl := Option.some.inj hz
    decide +kernel
  · refine ⟨20, 29.75, rfl, rfl, by decide +kernel, fun before z hbefore hz => ?_⟩
    obtain rfl : before = 1 := by omega
    obtain rfl := Option.some.inj hz
    decide +kernel

/-- A train is missed when no gap reaches the least cycle, when the gaps before the last one differ
from it by more than the tolerance, and when a burst before the neighbour is the nearer one. -/
theorem exists_missed_trains :
    IsMissedTrain ⟨10, 1, 3⟩ ([0, 9, 18, 27] : List Float) ∧
    IsMissedTrain ⟨10, 1, 2⟩ ([0, 9, 20] : List Float) ∧
    IsMissedTrain ⟨10, 9, 3⟩ ([0, 10, 20, 39] : List Float) := by
  decide +kernel

end Steps
end Search

section Exact
variable {d : Detector Rat} {times : List Rat} {t s : Rat} {index : ℕ}

/-- Where the least cycle is more than three times the tolerance, it is enough that the gaps differ
by no more than the tolerance from the last one. -/
theorem found_of_steady_train (hpos : 0 < d.tolerance) (hwm : 3 * d.tolerance < d.minCycle)
    (hn : 0 < d.minSamples) (htrain : IsTrain d times) (hindex : d.minSamples ≤ index)
    (ht : times[index]? = some t) (hs : times[index - 1]? = some s) (hgap : d.minCycle ≤ t - s)
    (hsteady : ∀ j x y, index - d.minSamples ≤ j → j + 1 < index → times[j]? = some x →
      times[j + 1]? = some y → |y - x - (t - s)| ≤ d.tolerance) :
    (detect d times).found = true := by
  refine (found_of_train (fun _ _ => rfl) rfl rfl hpos (by linarith) hn htrain hindex ht hs hgap
    fun j hle hlt => ?_).1
  obtain ⟨hlen, rfl⟩ := List.getElem?_eq_some_iff.mp ht
  have hx : times[j]? = some times[j] := List.getElem?_eq_getElem (by omega)
  have hy : times[j + 1]? = some times[j + 1] := List.getElem?_eq_getElem (by omega)
  have hbounds := abs_le.mp (hsteady j _ _ hle hlt hx hy)
  refine ⟨_, _, hx, hy, ?_, fun before z hbefore hz => ?_⟩
  · rw [Scalar.magnitude_eq_abs]
    exact abs_le.mpr ⟨by linarith, by linarith⟩
  · obtain rfl := hbefore
    obtain ⟨hshort, rfl⟩ := List.getElem?_eq_some_iff.mp hz
    have hstep := (List.isChain_iff_getElem.mp htrain before (by omega)).1
    rw [Scalar.distance_eq_abs, Scalar.distance_eq_abs]
    refine lt_of_le_of_lt (abs_le.mpr ⟨by linarith, by linarith⟩ : _ ≤ d.tolerance) (lt_abs.mpr ?_)
    exact .inr (by linarith)

end Exact

end Trains

/-! ## Evenly spaced bursts

Bursts that come exactly one cycle apart repeat with no error at all: one cycle before a burst lies
its neighbour, and nothing else comes as near. So the first anchor that is tried, the neighbour,
starts a chain of neighbours, whatever multiples of the cycle are in range as well. Only the first
bursts have too few others before them. In exact arithmetic the mean over the chain is the cycle.
-/
section Even
open Scalar (Antitone Lawful Monotone)

section Search
variable {α : Type} [Scalar α] [Lawful α] [Monotone α] [Antitone α] {d : Detector α}
  {times : List α} {index : ℕ}

/-- A burst with fewer others before it than are asked for repeats nothing. -/
theorem cycle_eq_none_of_lt (htimes : Ascending times)
    (hrange : d.minCycle ≤ d.minCycle + d.tolerance) (hlt : index < d.minSamples) :
    (detect d times).cycle index = none := by
  cases ht : times[index]? with
  | none => rw [cycle_detect, cycleAt, ht]; rfl
  | some t =>
    refine (cycle_eq_none_iff htimes hrange (Nat.zero_lt_of_lt hlt) ht).mpr fun anchor hanchor => ?_
    rintro ⟨cycle, rest, hchain⟩
    have hlinks : rest.length ≤ anchor := length_le_of_isChain hchain.linked
    have hsamples := hchain.length
    omega

end Search

section Exact
variable {d : Detector Rat} {start cycle : Rat} {length index k : ℕ}

/-- Begin times that lie one cycle apart. -/
def evenTimes (start cycle : Rat) (length : ℕ) : List Rat :=
  (List.range length).map fun k : ℕ => start + k * cycle

@[simp] theorem length_evenTimes (start cycle : Rat) (length : ℕ) :
    (evenTimes start cycle length).length = length := by simp [evenTimes]

theorem getElem?_evenTimes (hk : k < length) :
    (evenTimes start cycle length)[k]? = some (start + k * cycle) := by
  simp [evenTimes, List.getElem?_range hk]

theorem ascending_evenTimes (hc : 0 < cycle) : Ascending (evenTimes start cycle length) := by
  refine .of_pairwise_lt (fun _ _ => rfl) ?_
  rw [evenTimes, List.pairwise_map]
  refine List.pairwise_lt_range.imp fun hlt => ?_
  exact add_lt_add_right (mul_lt_mul_of_pos_right (Nat.cast_lt.mpr hlt) hc) start

/-- One cycle before a burst lies its neighbour, and nothing else. -/
theorem repeats_evenTimes (hc : 0 < cycle) (hw : 0 ≤ d.tolerance) (hk : k + 1 < length) :
    Repeats d (evenTimes start cycle length) cycle k := by
  have hideal : start + ((k + 1 : ℕ) : Rat) * cycle - cycle = start + k * cycle := by
    push_cast
    ring
  refine ⟨_, _, getElem?_evenTimes (Nat.lt_of_succ_lt hk), getElem?_evenTimes hk, ?_, ?_⟩
  · rw [hideal, sub_self, Scalar.magnitude_eq_abs, abs_zero]
    exact hw
  · rintro before z rfl hz
    obtain rfl := Option.some.inj ((getElem?_evenTimes (by omega)).symm.trans hz)
    rw [hideal, Scalar.distance_eq_abs, Scalar.distance_eq_abs, sub_self, abs_zero]
    refine abs_pos.mpr (ne_of_lt ?_)
    push_cast
    linarith

/-- From as many bursts on as are asked for, each one repeats the cycle. -/
theorem cycle_evenTimes (hc : 0 < cycle) (hmin : d.minCycle ≤ cycle)
    (hmax : cycle ≤ d.minCycle + d.tolerance) (hn : 0 < d.minSamples)
    (hle : d.minSamples ≤ index) (hlt : index < length) :
    (detect d (evenTimes start cycle length)).cycle index = some cycle := by
  obtain ⟨links, hlinks⟩ := Nat.exists_eq_add_one.mpr hn
  obtain ⟨low, rfl⟩ : ∃ low, index = low + links + 1 := ⟨index - d.minSamples, by omega⟩
  have hgap : start + ((low + links + 1 : ℕ) : Rat) * cycle -
      (start + ((low + links : ℕ) : Rat) * cycle) = cycle := by
    push_cast
    ring
  have hfound := cycle_of_repeats (ascending_evenTimes hc) (hmin.trans hmax) hlinks
    (getElem?_evenTimes (by omega)) (getElem?_evenTimes (by omega)) (getElem?_evenTimes hlt)
    (hgap.symm ▸ hmin) (hgap.symm ▸ hmax) fun j _ hj =>
      hgap.symm ▸ repeats_evenTimes hc (by linarith) (by omega)
  rw [hfound, hlinks]
  congr 1
  push_cast
  field_simp
  ring

/-- Every cycle that is reported for evenly spaced bursts is their own, and so is the shortest. -/
theorem minimumRepeatTime_evenTimes (hc : 0 < cycle) (hmin : d.minCycle ≤ cycle)
    (hmax : cycle ≤ d.minCycle + d.tolerance) (hn : 0 < d.minSamples) :
    (detect d (evenTimes start cycle length)).minimumRepeatTime =
      if d.minSamples < length then cycle else 0 := by
  have hnone {index : ℕ} (hfew : index < d.minSamples) :
      (detect d (evenTimes start cycle length)).cycle index = none :=
    cycle_eq_none_of_lt (ascending_evenTimes hc) (hmin.trans hmax) hfew
  rcases minimumRepeatTime_cases d (evenTimes start cycle length) with
    ⟨hzero, hall⟩ | ⟨index, hindex⟩
  · rw [hzero, if_neg fun hlt => ?_]
    exact Option.some_ne_none cycle
      ((cycle_evenTimes hc hmin hmax hn le_rfl hlt).symm.trans (hall d.minSamples))
  · have hmany : d.minSamples ≤ index := not_lt.mp fun hfew =>
      Option.some_ne_none _ (hindex.symm.trans (hnone hfew))
    have hlt : index < length := by
      obtain ⟨t, ht, -⟩ := Option.bind_eq_some_iff.mp (cycle_detect.symm.trans hindex)
      simpa using (List.getElem?_eq_some_iff.mp ht).1
    have hsame := hindex.symm.trans (cycle_evenTimes hc hmin hmax hn hmany hlt)
    rw [if_pos (hmany.trans_lt hlt), Option.some.inj hsame]

/-- Evenly spaced bursts are found to repeat their own cycle: each one that has as many others
before it as are asked for, and no other. -/
theorem detect_evenTimes (hc : 0 < cycle) (hmin : d.minCycle ≤ cycle)
    (hmax : cycle ≤ d.minCycle + d.tolerance) (hn : 0 < d.minSamples) (start : Rat) (length : ℕ) :
    detect d (evenTimes start cycle length) =
      { cycles := (List.range length).map fun index =>
          if index < d.minSamples then none else some cycle
        minimumRepeatTime := if d.minSamples < length then cycle else 0 } := by
  have hcycle {index : ℕ} (hlt : index < length) :
      cycleAt d (evenTimes start cycle length) index =
        if index < d.minSamples then none else some cycle := by
    rw [← cycle_detect]
    split
    · next hfew => exact cycle_eq_none_of_lt (ascending_evenTimes hc) (hmin.trans hmax) hfew
    · next hmany => exact cycle_evenTimes hc hmin hmax hn (not_lt.mp hmany) hlt
  have hcycles : (detect d (evenTimes start cycle length)).cycles =
      (List.range length).map fun index => if index < d.minSamples then none else some cycle := by
    rw [detect, length_evenTimes]
    exact List.map_congr_left fun index hindex => hcycle (List.mem_range.mp hindex)
  rw [← hcycles, ← minimumRepeatTime_evenTimes hc hmin hmax hn]

/-- The cycle is found although twice and three times the cycle are in range as well. -/
theorem detect_evenTimes_tolerant :
    (0 : Rat) < 10 ∧ (10 : Rat) ≤ 10 ∧ (10 : Rat) ≤ 10 + 25 ∧
    detect ⟨10, 25, 2⟩ (evenTimes 3 10 4) = ⟨[none, none, some 10, some 10], 10⟩ := by
  have hc : (0 : Rat) < 10 := by norm_num
  have hmax : (10 : Rat) ≤ 10 + 25 := by norm_num
  exact ⟨hc, le_rfl, hmax, detect_evenTimes (d := ⟨10, 25, 2⟩) hc le_rfl hmax (by decide) 3 4⟩

end Exact

end Even

end BurstEnergy.Periodicity
