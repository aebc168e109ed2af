import BurstEnergy.Burst.Classification
import BurstEnergy.Proofs.Scalar.Lawful

/-!
# Cycles that are found

A cycle is found for a burst when a chain of earlier bursts leads back from an anchor, and it is the
mean distance over the chain. Chains only lead back, so in exact arithmetic and on begin times that
grow every cycle takes some time, and a shortest cycle of zero says that nothing repeats.
-/
namespace BurstEnergy.Periodicity

section Search
variable {α : Type} [Scalar α] {d : Detector α} {times : List α}
  {t target tolerance cycle : α} {split position links current first : ℕ}

theorem nearerNeighbour_lt (hs : split ≤ times.length)
    (h : nearerNeighbour times target split = some position) : position < times.length := by
  have hbelow {x : α} (hx : (if split = 0 then none else times[split - 1]?) = some x) :
      split - 1 < times.length := by
    split at hx
    · cases hx
    · exact (List.getElem?_eq_some_iff.mp hx).1
  have habove {x : α} (hx : times[split]? = some x) : split < times.length :=
    (List.getElem?_eq_some_iff.mp hx).1
  unfold nearerNeighbour at h
  grind

theorem nearestWithin_lt (h : nearestWithin times target tolerance = some position) :
    position < times.length := by
  obtain ⟨best, hbest, htime⟩ := Option.bind_eq_some_iff.mp h
  obtain ⟨time, -, hnear⟩ := Option.bind_eq_some_iff.mp htime
  split at hnear
  · cases hnear
    exact nearerNeighbour_lt (cutLength_le _ _) hbest
  · cases hnear

theorem walkBack_le (h : walkBack times cycle tolerance links current = some first) :
    first ≤ current := by
  induction links generalizing current with
  | zero => exact (Option.some.inj h).ge
  | succ links ih =>
    obtain ⟨time, -, hnext⟩ := Option.bind_eq_some_iff.mp h
    obtain ⟨earlier, hnearest, hrest⟩ := Option.bind_eq_some_iff.mp hnext
    have hlt := nearestWithin_lt hnearest
    rw [List.length_take] at hlt
    have hle := ih hrest
    omega

/-- The cycle found at a time comes from an anchor: its distance is in range, and its chain is long
enough to take the mean over. -/
def FoundFrom (d : Detector α) (times : List α) (t found : α) (anchor : ℕ) : Prop :=
  ∃ s first f, times[anchor]? = some s ∧ ¬ t - s < d.minCycle ∧
    ¬ d.minCycle + d.tolerance < t - s ∧ chainStart d times anchor (t - s) = some first ∧
    times[first]? = some f ∧ found = (t - f) / (d.minSamples : α)

/-- A search answers from the nearest anchor it can. -/
theorem exists_anchor_of_searchAnchors {anchors : ℕ} {found : α}
    (h : searchAnchors d times t anchors = some found) :
    ∃ anchor < anchors, FoundFrom d times t found anchor ∧
      ∀ nearer, anchor < nearer → nearer < anchors →
        ∀ other, ¬ FoundFrom d times t other nearer := by
  induction anchors with
  | zero => cases h
  | succ anchor ih =>
    have hlater : searchAnchors d times t anchor = some found →
        (∀ other, ¬ FoundFrom d times t other anchor) →
        ∃ earlier < anchor + 1, FoundFrom d times t found earlier ∧
          ∀ nearer, earlier < nearer → nearer < anchor + 1 →
            ∀ other, ¬ FoundFrom d times t other nearer := by
      intro hrest hnone
      obtain ⟨earlier, hlt, hfrom, hnearer⟩ := ih hrest
      refine ⟨earlier, Nat.lt_succ_of_lt hlt, hfrom, fun nearer hlow hhigh => ?_⟩
      rcases Nat.lt_succ_iff_lt_or_eq.mp hhigh with hbelow | rfl
      · exact hnearer nearer hlow hbelow
      · exact hnone
    obtain ⟨s, hs, hrest⟩ := Option.bind_eq_some_iff.mp h
    dsimp only at hrest
    split at hrest
    · next hshort =>
      refine hlater hrest ?_
      rintro other ⟨s', -, -, hs', hlong, -⟩
      obtain rfl := Option.some.inj (hs.symm.trans hs')
      exact hlong hshort
    · next hshort =>
      split at hrest
      · cases hrest
      · next hlong =>
        split at hrest
        · next first hchain =>
          obtain ⟨f, hf, hmean⟩ := Option.bind_eq_some_iff.mp hrest
          exact ⟨anchor, Nat.lt_succ_self _,
            ⟨s, first, f, hs, hshort, hlong, hchain, hf, (Option.some.inj hmean).symm⟩,
            fun nearer hlow hhigh => absurd hhigh (Nat.not_lt.mpr hlow)⟩
        · next hchain =>
          refine hlater hrest ?_
          rintro other ⟨s', first, -, hs', -, -, hfirst, -⟩
          obtain rfl := Option.some.inj (hs.symm.trans hs')
          exact Option.some_ne_none _ (hfirst.symm.trans hchain)

/-- The last anchor before a burst is tried first. -/
theorem searchAnchors_of_foundFrom {anchor : ℕ} {found : α} (h : FoundFrom d times t found anchor) :
    searchAnchors d times t (anchor + 1) = some found := by
  obtain ⟨s, first, f, hs, hshort, hlong, hchain, hf, rfl⟩ := h
  simp [searchAnchors, hs, hshort, hlong, hchain, hf]

theorem exists_anchor_of_cycleAt {index : ℕ} {found : α}
    (h : cycleAt d times index = some found) :
    ∃ t anchor, times[index]? = some t ∧ anchor < index ∧ FoundFrom d times t found anchor := by
  obtain ⟨t, ht, hsearch⟩ := Option.bind_eq_some_iff.mp h
  obtain ⟨anchor, hlt, hfrom, -⟩ := exists_anchor_of_searchAnchors hsearch
  exact ⟨t, anchor, ht, hlt, hfrom⟩

theorem cycle_detect {index : ℕ} : (detect d times).cycle index = cycleAt d times index := by
  unfold Result.cycle detect
  rw [List.getElem?_map]
  by_cases hlt : index < times.length
  · simp [List.getElem?_range hlt]
  · simp [hlt, cycleAt]

theorem shortest?_eq_none_iff {cycles : List α} : shortest? cycles = none ↔ cycles = [] := by
  cases cycles <;> simp [shortest?]

theorem mem_of_shortest? {cycles : List α} (h : shortest? cycles = some cycle) :
    cycle ∈ cycles := by
  cases cycles with
  | nil => cases h
  | cons c rest =>
    obtain rfl := Option.some.inj h
    clear h
    induction rest generalizing c with
    | nil => exact List.mem_cons_self
    | cons b rest ih =>
      have hmem := ih (Scalar.smaller c b)
      rw [List.foldl_cons]
      rcases List.mem_cons.mp hmem with heq | hmem
      · have hsmaller : Scalar.smaller c b = c ∨ Scalar.smaller c b = b := by
          unfold Scalar.smaller
          split <;> simp
        rw [heq]
        rcases hsmaller with hsmaller | hsmaller <;> simp [hsmaller]
      · exact List.mem_cons_of_mem _ (List.mem_cons_of_mem _ hmem)

/-- The shortest cycle is one of those found, and zero when there is none. -/
theorem minimumRepeatTime_cases (d : Detector α) (times : List α) :
    ((detect d times).minimumRepeatTime = 0 ∧ ∀ index, (detect d times).cycle index = none) ∨
      ∃ index, (detect d times).cycle index = some (detect d times).minimumRepeatTime := by
  have hmem {c : α} : c ∈ (detect d times).cycles.filterMap id ↔
      ∃ index, (detect d times).cycle index = some c := by
    rw [List.mem_filterMap]
    simp only [id_eq, exists_eq_right, List.mem_iff_getElem?, Result.cycle, Option.join_eq_some_iff]
  have hmin : (detect d times).minimumRepeatTime =
      (shortest? ((detect d times).cycles.filterMap id)).getD 0 := rfl
  cases hshortest : shortest? ((detect d times).cycles.filterMap id) with
  | none =>
    have hnil := shortest?_eq_none_iff.mp hshortest
    refine .inl ⟨by rw [hmin, hshortest]; rfl, fun index => ?_⟩
    cases hc : (detect d times).cycle index with
    | none => rfl
    | some c => exact absurd (hmem.mpr ⟨index, hc⟩) (hnil ▸ List.not_mem_nil)
  | some c =>
    rw [hmin, hshortest]
    exact .inr (hmem.mp (mem_of_shortest? hshortest))

end Search

section Exact
variable {d : Detector Rat} {times : List Rat} {index : ℕ} {cycle : Rat}

theorem cycleAt_pos (htimes : times.Pairwise (· < ·)) (hn : 0 < d.minSamples)
    (h : cycleAt d times index = some cycle) : 0 < cycle := by
  obtain ⟨t, anchor, ht, hlt, s, first, f, -, -, -, hchain, hf, rfl⟩ := exists_anchor_of_cycleAt h
  have hfirst : first < index := (walkBack_le hchain).trans_lt hlt
  obtain ⟨hindex, rfl⟩ := List.getElem?_eq_some_iff.mp ht
  obtain ⟨hsmall, rfl⟩ := List.getElem?_eq_some_iff.mp hf
  have hpos : 0 < times[index] - times[first] :=
    sub_pos.mpr (List.pairwise_iff_getElem.mp htimes first index hsmall hindex hfirst)
  exact div_pos hpos (Nat.cast_pos.mpr hn)

/-- The shortest cycle is zero just when there is none. -/
theorem minimumRepeatTime_eq_zero_iff (htimes : times.Pairwise (· < ·)) (hn : 0 < d.minSamples) :
    (detect d times).minimumRepeatTime = 0 ↔ ∀ index, (detect d times).cycle index = none := by
  rcases minimumRepeatTime_cases d times with ⟨hmin, hnone⟩ | ⟨index, hindex⟩
  · exact iff_of_true hmin hnone
  · have hpos : 0 < (detect d times).minimumRepeatTime :=
      cycleAt_pos htimes hn (cycle_detect.symm.trans hindex)
    exact iff_of_false hpos.ne' fun hnone => Option.some_ne_none _ (hindex.symm.trans (hnone index))

end Exact
end BurstEnergy.Periodicity
