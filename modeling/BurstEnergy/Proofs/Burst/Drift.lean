import BurstEnergy.Proofs.Burst.Trains

/-!
# How far a reported cycle drifts

The cycle of a chain is the distance to its anchor and lies in range, but what is reported is the
mean over the chain. Every further link may be off by the tolerance, all of them to one side, so in
exact arithmetic the mean of `n` bursts drifts out of the range by up to `(n - 1) / n` of the
tolerance. No smaller bound holds: trains whose gaps are all off by the same amount reach every
value in between.
-/
namespace BurstEnergy.Periodicity
variable {d : Detector Rat} {times : List Rat} {t s f cycle excess found : Rat}
  {anchor first index links : ℕ} {rest : List ℕ}

/-- How far the mean over a chain may lie from its cycle. -/
def drift (d : Detector Rat) : Rat := ((d.minSamples : Rat) - 1) / d.minSamples * d.tolerance

/-- The range of cycles, widened by the drift. -/
def InDriftRange (d : Detector Rat) (found : Rat) : Prop :=
  d.minCycle - drift d ≤ found ∧ found ≤ d.minCycle + d.tolerance + drift d

theorem drift_eq (hn : d.minSamples = links + 1) :
    drift d = links / (links + 1) * d.tolerance := by
  rw [drift, hn, Nat.cast_succ, add_sub_cancel_right]

theorem drift_nonneg (hw : 0 ≤ d.tolerance) (hn : 0 < d.minSamples) : 0 ≤ drift d := by
  rw [drift_eq (Nat.sub_add_cancel hn).symm]
  positivity

section Bound

/-- The links of a chain are off by the tolerance each at most. -/
theorem abs_sub_length_mul_le (h : (anchor :: rest).IsChain (Link d times cycle))
    (hs : times[anchor]? = some s) (hlast : (anchor :: rest).getLast? = some first)
    (hf : times[first]? = some f) :
    |s - f - rest.length * cycle| ≤ rest.length * d.tolerance := by
  induction rest generalizing anchor s with
  | nil =>
    obtain rfl := Option.some.inj hlast
    obtain rfl := Option.some.inj (hs.symm.trans hf)
    simp
  | cons next rest ih =>
    obtain ⟨⟨-, s', x, hs', hx, hwithin⟩, hrest⟩ := List.isChain_cons_cons.mp h
    obtain rfl := Option.some.inj (hs.symm.trans hs')
    rw [Scalar.magnitude_eq_abs] at hwithin
    have hlink := abs_le.mp hwithin
    have hbounds := abs_le.mp (ih hrest hx (by rwa [List.getLast?_cons_cons] at hlast))
    rw [List.length_cons, Nat.cast_succ]
    exact abs_le.mpr ⟨by linarith, by linarith⟩

theorem abs_mean_sub_le (hchain : Chain Link d times t cycle anchor rest)
    (hlast : (anchor :: rest).getLast? = some first) (hf : times[first]? = some f) :
    |(t - f) / d.minSamples - cycle| ≤ drift d := by
  obtain ⟨s, hs, rfl⟩ := hchain.cycle_eq
  have hpos : (0 : Rat) < rest.length + 1 := by positivity
  have hbound := abs_sub_length_mul_le hchain.linked hs hlast hf
  have hmean : (t - f) / (rest.length + 1) - (t - s) =
      (s - f - rest.length * (t - s)) / (rest.length + 1) := by
    field_simp
    ring
  rw [drift_eq hchain.length.symm, ← hchain.length, Nat.cast_succ, hmean, abs_div, abs_of_pos hpos,
    div_mul_eq_mul_div]
  exact div_le_div_of_nonneg_right hbound hpos.le

theorem inDriftRange_of_cycle (hgrow : times.Pairwise (· < ·)) (hw : 0 ≤ d.tolerance)
    (hn : 0 < d.minSamples) (hfound : (detect d times).cycle index = some found) :
    InDriftRange d found := by
  have htimes : Ascending times := .of_pairwise_lt (fun _ _ => rfl) hgrow
  obtain ⟨t, ht, -⟩ := Option.bind_eq_some_iff.mp (cycle_detect.symm.trans hfound)
  obtain ⟨cycle, anchor, rest, first, f, -, hchain, hlast, hf, rfl, -⟩ :=
    isMeanOfChain_of_cycle htimes (le_add_of_nonneg_right hw) hn ht hfound
  have hbounds := abs_le.mp (abs_mean_sub_le (hchain.imp NearestLink.link) hlast hf)
  have hmin := hchain.minCycle_le
  have hmax := hchain.le_maxCycle
  exact ⟨by linarith, by linarith⟩

end Bound

section Sharpness

/-- Bursts that come a cycle and an excess apart, the last one without the excess. -/
def driftTime (cycle excess : Rat) (links k : ℕ) : Rat :=
  k * (cycle + excess) - if links < k then excess else 0

/-- A train of as many bursts as a chain of some links takes, and one more. -/
def driftTrain (cycle excess : Rat) (links : ℕ) : List Rat :=
  (List.range (links + 2)).map (driftTime cycle excess links)

theorem getElem?_driftTrain {k : ℕ} (hk : k ≤ links + 1) :
    (driftTrain cycle excess links)[k]? = some (driftTime cycle excess links k) := by
  have hlt : k < links + 2 := Nat.lt_succ_of_le hk
  simp [driftTrain, List.getElem?_range hlt]

theorem driftTime_of_le {k : ℕ} (hk : k ≤ links) :
    driftTime cycle excess links k = k * (cycle + excess) := by
  rw [driftTime, if_neg (Nat.not_lt.mpr hk), sub_zero]

theorem driftTime_last :
    driftTime cycle excess links (links + 1) = links * (cycle + excess) + cycle := by
  rw [driftTime, if_pos (Nat.lt_succ_self links), Nat.cast_succ]
  ring

theorem pairwise_driftTrain (hc : 0 < cycle) (hgap : 0 < cycle + excess) :
    (driftTrain cycle excess links).Pairwise (· < ·) := by
  rw [driftTrain, List.pairwise_map]
  refine List.pairwise_lt_range.imp_of_mem fun {i j} _ hj hlt => ?_
  have hsteps {i k : ℕ} (hik : i ≤ k) : (i : Rat) * (cycle + excess) ≤ k * (cycle + excess) :=
    mul_le_mul_of_nonneg_right (Nat.cast_le.mpr hik) hgap.le
  rcases Nat.lt_or_ge links j with hlast | hle
  · obtain rfl : j = links + 1 := by
      rw [List.mem_range] at hj
      omega
    rw [driftTime_of_le (Nat.le_of_lt_succ hlt), driftTime_last]
    exact lt_add_of_le_of_pos (hsteps (Nat.le_of_lt_succ hlt)) hc
  · rw [driftTime_of_le hle, driftTime_of_le (hlt.le.trans hle)]
    exact mul_lt_mul_of_pos_right (Nat.cast_lt.mpr hlt) hgap

/-- Before the last burst each repeats with the next one, off by the excess. -/
theorem repeats_driftTrain (hw : |excess| ≤ d.tolerance) (hgap : 0 < cycle + excess)
    (hnear : 0 < cycle + 3 * excess) {j : ℕ} (hj : j < links) :
    Repeats d (driftTrain cycle excess links) cycle j := by
  have htime {k : ℕ} (hk : k ≤ links) :
      (driftTrain cycle excess links)[k]? = some (k * (cycle + excess)) := by
    rw [getElem?_driftTrain (hk.trans (Nat.le_succ links)), driftTime_of_le hk]
  have hbounds := abs_le.mp hw
  refine ⟨_, _, htime hj.le, htime hj, ?_, fun before z hbefore hz => ?_⟩
  · rw [Scalar.magnitude_eq_abs, Nat.cast_succ]
    exact abs_le.mpr ⟨by linarith, by linarith⟩
  · obtain rfl := hbefore
    obtain rfl := Option.some.inj ((htime (by omega)).symm.trans hz)
    rw [Scalar.distance_eq_abs, Scalar.distance_eq_abs]
    push_cast
    refine lt_of_lt_of_le ?_ (neg_le_abs _)
    exact abs_lt.mpr ⟨by linarith, by linarith⟩

/-- The last burst of such a train reports the cycle and most of the excess. -/
theorem cycle_driftTrain (hw : |excess| ≤ d.tolerance) (hmin : d.minCycle ≤ cycle)
    (hmax : cycle ≤ d.minCycle + d.tolerance) (hn : d.minSamples = links + 1) (hc : 0 < cycle)
    (hgap : 0 < cycle + excess) (hnear : 0 < cycle + 3 * excess) :
    (detect d (driftTrain cycle excess links)).cycle (links + 1) =
      some (cycle + ((d.minSamples : Rat) - 1) / d.minSamples * excess) := by
  have htimes : Ascending (driftTrain cycle excess links) :=
    .of_pairwise_lt (fun _ _ => rfl) (pairwise_driftTrain hc hgap)
  have hw0 : 0 ≤ d.tolerance := (abs_nonneg excess).trans hw
  have hfirst : (driftTrain cycle excess links)[0]? = some 0 := by
    rw [getElem?_driftTrain (Nat.zero_le _), driftTime_of_le (Nat.zero_le links), Nat.cast_zero,
      zero_mul]
  have hanchor : (driftTrain cycle excess links)[0 + links]? =
      some (links * (cycle + excess)) := by
    rw [Nat.zero_add, getElem?_driftTrain (Nat.le_succ links), driftTime_of_le le_rfl]
  have hlast : (driftTrain cycle excess links)[0 + links + 1]? =
      some (links * (cycle + excess) + cycle) := by
    rw [Nat.zero_add, getElem?_driftTrain le_rfl, driftTime_last]
  have hcycle : links * (cycle + excess) + cycle - links * (cycle + excess) = cycle :=
    add_sub_cancel_left _ _
  have hreported := cycle_of_repeats htimes (le_add_of_nonneg_right hw0) hn hfirst hanchor hlast
    (hcycle.symm ▸ hmin) (hcycle.symm ▸ hmax)
    fun j _ hj => hcycle.symm ▸ repeats_driftTrain hw hgap hnear (by omega)
  rw [Nat.zero_add] at hreported
  rw [hreported, hn, Nat.cast_succ]
  have hpos : (0 : Rat) < links + 1 := by positivity
  congr 1
  field_simp
  ring

/-- The excess that makes up a value near enough to the cycle. -/
theorem exists_excess (hn : d.minSamples = links + 1) (hw : 0 ≤ d.tolerance)
    (hnear : |found - cycle| ≤ drift d) : ∃ excess, |excess| ≤ d.tolerance ∧
      cycle + ((d.minSamples : Rat) - 1) / d.minSamples * excess = found ∧
      (cycle ≤ found → 0 ≤ excess) := by
  rw [drift_eq hn] at hnear
  rw [hn, Nat.cast_succ, add_sub_cancel_right]
  rcases Nat.eq_zero_or_pos links with rfl | hlinks
  · have hsame : found - cycle = 0 := abs_nonpos_iff.mp (by simpa using hnear)
    exact ⟨0, by simpa using hw, by linarith, fun _ => le_rfl⟩
  · have hpos : (0 : Rat) < links := Nat.cast_pos.mpr hlinks
    have hscale : (0 : Rat) < links / (links + 1) := by positivity
    refine ⟨(found - cycle) / (links / (links + 1)), ?_, ?_, fun hle => ?_⟩
    · rw [abs_div, abs_of_pos hscale, div_le_iff₀ hscale, mul_comm]
      exact hnear
    · rw [mul_div_cancel₀ _ hscale.ne', add_sub_cancel]
    · exact div_nonneg (sub_nonneg.mpr hle) hscale.le

/-- Every value near enough to some cycle in range is reported for some train. -/
theorem exists_reported_of_abs_sub_le (hn : 0 < d.minSamples) (hmin : d.minCycle ≤ cycle)
    (hmax : cycle ≤ d.minCycle + d.tolerance) (hc : 0 < cycle) (hw : 0 ≤ d.tolerance)
    (hnear : |found - cycle| ≤ drift d) (hlow : cycle ≤ found ∨ 3 * d.tolerance < cycle) :
    ∃ times : List Rat, times.Pairwise (· < ·) ∧
      ∃ index, (detect d times).cycle index = some found := by
  obtain ⟨links, hlinks⟩ := Nat.exists_eq_add_one.mpr hn
  obtain ⟨excess, hexcess, rfl, hsign⟩ := exists_excess hlinks hw hnear
  have hbounds := abs_le.mp hexcess
  have hgaps : 0 < cycle + excess ∧ 0 < cycle + 3 * excess := by
    rcases hlow with hle | hapart
    · have hpos := hsign hle
      exact ⟨by linarith, by linarith⟩
    · exact ⟨by linarith, by linarith⟩
  exact ⟨driftTrain cycle excess links, pairwise_driftTrain hc hgaps.1, links + 1,
    cycle_driftTrain hexcess hmin hmax hlinks hc hgaps.1 hgaps.2⟩

/-- In exact arithmetic every cycle reported for bursts one after the other lies in the range of
cycles widened by the drift, and so does the shortest one unless there is none. Every value in the
widened range is reported for some bursts, if it is above zero, and if bursts are far enough apart
where it is below the least cycle. -/
theorem cycle_inDriftRange (hw : 0 ≤ d.tolerance) (hn : 0 < d.minSamples) :
    (∀ times : List Rat, times.Pairwise (· < ·) →
      (∀ index found, (detect d times).cycle index = some found → InDriftRange d found) ∧
      ((detect d times).minimumRepeatTime = 0 ∨
        InDriftRange d (detect d times).minimumRepeatTime)) ∧
    ∀ found, InDriftRange d found → 0 < found → 0 < d.minCycle + d.tolerance →
      d.minCycle ≤ found ∨ 3 * d.tolerance < d.minCycle →
      ∃ times : List Rat, times.Pairwise (· < ·) ∧
        ∃ index, (detect d times).cycle index = some found := by
  refine ⟨fun times hgrow => ⟨fun index found => inDriftRange_of_cycle hgrow hw hn, ?_⟩, ?_⟩
  · rcases minimumRepeatTime_cases d times with ⟨hmin, -⟩ | ⟨index, hindex⟩
    · exact .inl hmin
    · exact .inr (inDriftRange_of_cycle hgrow hw hn hindex)
  · intro found hrange hpos hmax hlow
    have hdrift := drift_nonneg hw hn
    obtain ⟨hle, hge⟩ := hrange
    rcases lt_or_ge found d.minCycle with hbelow | habove
    · -- every gap is short
      have hapart := hlow.resolve_left (not_le.mpr hbelow)
      exact exists_reported_of_abs_sub_le hn le_rfl
        (le_add_of_nonneg_right hw) (by linarith) hw (abs_le.mpr ⟨by linarith, by linarith⟩)
        (.inr hapart)
    · rcases le_or_gt found (d.minCycle + d.tolerance) with hwithin | hbeyond
      · exact exists_reported_of_abs_sub_le hn habove hwithin hpos hw
          (by simpa using hdrift) (.inl le_rfl)
      · -- every gap is long
        exact exists_reported_of_abs_sub_le hn
          (le_add_of_nonneg_right hw) le_rfl hmax hw (abs_le.mpr ⟨by linarith, by linarith⟩)
          (.inl hbeyond.le)

/-- Both halves at work: nothing outside the widened range, and a value below the least cycle. -/
theorem cycle_inDriftRange_short :
    InDriftRange ⟨10, 1, 2⟩ (detect (⟨10, 1, 2⟩ : Detector Rat) [0, 9, 19]).minimumRepeatTime ∧
    ∃ times : List Rat, times.Pairwise (· < ·) ∧
      ∃ index, (detect ⟨10, 1, 2⟩ times).cycle index = some (19 / 2) := by
  have h := cycle_inDriftRange (d := ⟨10, 1, 2⟩) (by decide +kernel) (by decide)
  have hmin : (detect (⟨10, 1, 2⟩ : Detector Rat) [0, 9, 19]).minimumRepeatTime ≠ 0 := by
    decide +kernel
  have hrange : InDriftRange ⟨10, 1, 2⟩ (19 / 2) := by
    constructor <;> norm_num [drift]
  exact ⟨(h.1 [0, 9, 19] (by decide +kernel)).2.resolve_left hmin,
    h.2 (19 / 2) hrange (by norm_num) (by norm_num) (.inr (by norm_num))⟩

/-- A gap in range is reported as a mean below it, where the gap before is shorter. -/
theorem exists_cycle_lt_minCycle :
    ([0, 9, 19] : List Rat).Pairwise (· < ·) ∧
    (detect (⟨10, 1, 2⟩ : Detector Rat) [0, 9, 19]).cycle 2 = some (19 / 2) ∧
    (detect (⟨10, 1, 2⟩ : Detector Rat) [0, 9, 19]).minimumRepeatTime = 19 / 2 ∧
    (19 / 2 : Rat) < 10 := by
  decide +kernel

end Sharpness
end BurstEnergy.Periodicity
