import BurstEnergy.Burst.Collection
import BurstEnergy.Proofs.CutPoint
import BurstEnergy.Proofs.Scalar.Lawful

/-!
# Clusters

Windows over begin times, and the bursts of connection control that crowded ones hold.
-/
namespace BurstEnergy.Cluster

/-! ## Windows over begin times

The window that slides over ascending times starts at each of them in turn. A window anywhere holds
no more than the one that starts at its first time, so the times marked are those that belong to a
crowded window of any start.
-/
section Windows
variable {times rest : List Rat} {window start stop t : Rat} {size first last i : ℕ}

def countUpTo (times : List Rat) (stop : Rat) : ℕ := times.countP fun t => decide (t ≤ stop)

/-- The number of times in the closed window that starts at a moment. -/
def countWithin (times : List Rat) (window start : Rat) : ℕ :=
  times.countP fun t => decide (start ≤ t ∧ t ≤ start + window)

/-- A time that shares some closed window with enough others. -/
def Clustered (times : List Rat) (window : Rat) (size : ℕ) (t : Rat) : Prop :=
  ∃ start, start ≤ t ∧ t ≤ start + window ∧ size ≤ countWithin times window start

/-- A window with enough times, by the positions of its first and its last one. -/
def Crowded (times : List Rat) (window : Rat) (size : ℕ) (w : ℕ × ℕ) : Prop :=
  ∃ t, times[w.1]? = some t ∧ w.2 + 1 = countUpTo times (t + window) ∧ size + w.1 ≤ w.2 + 1

theorem countUpTo_mono (times : List Rat) (h : start ≤ stop) :
    countUpTo times start ≤ countUpTo times stop :=
  List.countP_mono_left fun _ _ ht => decide_eq_true ((of_decide_eq_true ht).trans h)

/-- What a window leaves out of the times up to its end comes before it. -/
theorem countWithin_add_countP (times : List Rat) (hw : 0 ≤ window) (start : Rat) :
    countWithin times window start + times.countP (fun t => decide (t < start)) =
      countUpTo times (start + window) := by
  induction times with
  | nil => rfl
  | cons t rest ih =>
    simp only [countWithin, countUpTo, List.countP_cons, decide_eq_true_eq] at ih ⊢
    by_cases hlt : t < start
    · have hle : t ≤ start + window := by linarith
      simp only [hlt, hle, hlt.not_ge, false_and, if_true, if_false]
      omega
    · simp only [hlt, not_lt.mp hlt, true_and, if_false]
      omega

theorem mem_windowsFrom_cons {w : ℕ × ℕ} :
    w ∈ windowsFrom times window size first last (t :: rest) ↔
      (size ≤ reach times window t (max last first) + 1 - first ∧
        w = (first, reach times window t (max last first))) ∨
      w ∈ windowsFrom times window size (first + 1) (reach times window t (max last first))
        rest := by
  rw [windowsFrom]
  split
  · next hsize => simp [hsize]
  · next hsize => simp [hsize]

theorem countP_range {β : Type} {xs : List β} {p : β → Bool} {q : ℕ → Bool}
    (h : ∀ (i : ℕ) (x : β), xs[i]? = some x → q i = p x) :
    (List.range xs.length).countP q = xs.countP p := by
  induction xs using List.reverseRecOn with
  | nil => rfl
  | append_singleton xs x ih =>
    have hfront : ∀ (i : ℕ) (y : β), xs[i]? = some y → q i = p y := fun i y hi =>
      h i y (by rw [List.getElem?_append_left (List.getElem?_eq_some_iff.mp hi).1, hi])
    have hlast := h xs.length x (by simp)
    simp [List.range_succ, ih hfront, hlast, List.countP_cons]

section Ascending
variable (h : times.Pairwise (· ≤ ·))
include h

theorem getElem?_mono {j : ℕ} {s : Rat} (hij : i ≤ j) (hi : times[i]? = some t)
    (hj : times[j]? = some s) : t ≤ s := by
  obtain ⟨hilt, rfl⟩ := List.getElem?_eq_some_iff.mp hi
  obtain ⟨hjlt, rfl⟩ := List.getElem?_eq_some_iff.mp hj
  rcases hij.eq_or_lt with rfl | hlt
  · exact le_rfl
  · exact List.pairwise_iff_getElem.mp h i j hilt hjlt hlt

theorem lt_countUpTo_iff (hi : times[i]? = some t) : i < countUpTo times stop ↔ t ≤ stop := by
  have hcut : times.Pairwise fun x y => decide (y ≤ stop) = true → decide (x ≤ stop) = true :=
    h.imp fun hxy hy => decide_eq_true (hxy.trans (of_decide_eq_true hy))
  exact (lt_countP_iff hcut hi).trans decide_eq_true_iff

theorem lt_countP_lt_iff (hi : times[i]? = some t) :
    i < times.countP (fun t => decide (t < stop)) ↔ t < stop := by
  have hcut : times.Pairwise fun x y => decide (y < stop) = true → decide (x < stop) = true :=
    h.imp fun hxy hy => decide_eq_true (hxy.trans_lt (of_decide_eq_true hy))
  exact (lt_countP_iff hcut hi).trans decide_eq_true_iff

/-- A window reaches the last time within it. -/
theorem reach_add_one (hlast : last < countUpTo times (start + window)) :
    reach times window start last + 1 = countUpTo times (start + window) := by
  have hbound : countUpTo times (start + window) ≤ times.length := List.countP_le_length
  fun_induction reach times window start last with
  | case1 last hlt hw ih =>
    refine ih ((lt_countUpTo_iff h (List.getElem?_eq_getElem hlt)).mpr ?_)
    linarith only [hw]
  | case2 last hlt hw =>
    have hnot : ¬ last + 1 < countUpTo times (start + window) := fun hnext =>
      hw (by linarith only [(lt_countUpTo_iff h (List.getElem?_eq_getElem hlt)).mp hnext])
    omega
  | case3 last hlt => omega

variable (hw : 0 ≤ window)
include hw

/-- The window from a time on is the one that the slide makes there. -/
theorem crowded_iff_of_first {w : ℕ × ℕ} (htime : times[first]? = some t)
    (hlast : last + 1 = countUpTo times (t + window)) :
    w.1 = first ∧ Crowded times window size w ↔ size ≤ last + 1 - first ∧ w = (first, last) := by
  have hfirst : first < countUpTo times (t + window) :=
    (lt_countUpTo_iff h htime).mpr (le_add_of_nonneg_right hw)
  constructor
  · rintro ⟨hw1, s, hs, hw2, hsize⟩
    obtain rfl : t = s := Option.some.inj (htime.symm.trans (hw1 ▸ hs))
    exact ⟨by omega, Prod.ext hw1 (by omega)⟩
  · rintro ⟨hsize, rfl⟩
    exact ⟨rfl, t, htime, hlast, by omega⟩

/-- The windows found are the crowded ones. -/
theorem mem_windowsFrom_iff {w : ℕ × ℕ} (hrest : rest = times.drop first)
    (hlast : ∀ t, times[first]? = some t → last < countUpTo times (t + window)) :
    w ∈ windowsFrom times window size first last rest ↔
      first ≤ w.1 ∧ Crowded times window size w := by
  induction rest generalizing first last with
  | nil =>
    have hlength : times.length ≤ first := by simpa using hrest.symm
    refine iff_of_false List.not_mem_nil ?_
    rintro ⟨hle, t, ht, -⟩
    obtain ⟨hlt, -⟩ := List.getElem?_eq_some_iff.mp ht
    omega
  | cons time rest ih =>
    have htime : times[first]? = some time := by
      rw [← List.head?_drop, ← hrest, List.head?_cons]
    have hrest' : rest = times.drop (first + 1) := by
      rw [← List.tail_drop, ← hrest, List.tail_cons]
    have hfirst : first < countUpTo times (time + window) :=
      (lt_countUpTo_iff h htime).mpr (le_add_of_nonneg_right hw)
    have hreach : reach times window time (max last first) + 1 = countUpTo times (time + window) :=
      reach_add_one h (max_lt (hlast time htime) hfirst)
    -- the end found so far is not beyond the next window, which ends no earlier
    have hnext : ∀ t, times[first + 1]? = some t →
        reach times window time (max last first) < countUpTo times (t + window) := by
      intro t ht
      have hle : time ≤ t := getElem?_mono h (Nat.le_succ first) htime ht
      have hmono := countUpTo_mono times (add_le_add_left hle window)
      omega
    rw [mem_windowsFrom_cons, ← crowded_iff_of_first h hw htime hreach, ih hrest' hnext,
      ← or_and_right]
    exact and_congr_left' (by omega)

theorem mem_windowsFrom_zero_iff {w : ℕ × ℕ} :
    w ∈ windowsFrom times window size 0 0 times ↔ Crowded times window size w := by
  have hstart : ∀ t, times[0]? = some t → 0 < countUpTo times (t + window) :=
    fun t ht => (lt_countUpTo_iff h ht).mpr (le_add_of_nonneg_right hw)
  exact (mem_windowsFrom_iff h hw List.drop_zero.symm hstart).trans
    (and_iff_right (Nat.zero_le _))

/-- A position is covered when its time shares a crowded window with others. -/
theorem covered_iff (hi : times[i]? = some t) :
    covered (windowsFrom times window size 0 0 times) i = true ↔
      Clustered times window size t := by
  simp only [covered, List.any_eq_true, decide_eq_true_eq, mem_windowsFrom_zero_iff h hw]
  constructor
  · rintro ⟨w, ⟨s, hs, hlast, hsize⟩, hge, hle⟩
    have hcount := countWithin_add_countP times hw s
    have hbefore : times.countP (fun t => decide (t < s)) ≤ w.1 := by
      have hnot := mt (lt_countP_lt_iff h hs).mp (lt_irrefl s)
      omega
    refine ⟨s, getElem?_mono h hge hs hi, (lt_countUpTo_iff h hi).mp (by omega), by omega⟩
  · rintro ⟨start, hle, hstop, hsize⟩
    have hcount := countWithin_add_countP times hw start
    have hilt : i < countUpTo times (start + window) := (lt_countUpTo_iff h hi).mpr hstop
    have hbefore : times.countP (fun t => decide (t < start)) ≤ i := by
      have hnot := mt (lt_countP_lt_iff h hi).mp hle.not_gt
      omega
    obtain ⟨hlt, -⟩ := List.getElem?_eq_some_iff.mp hi
    -- the crowded window may as well start at the first time within it
    obtain ⟨s, hs⟩ : ∃ s, times[times.countP fun t => decide (t < start)]? = some s :=
      ⟨_, List.getElem?_eq_getElem (hbefore.trans_lt hlt)⟩
    have hstart : start ≤ s := not_lt.mp (mt (lt_countP_lt_iff h hs).mpr (lt_irrefl _))
    have hmono := countUpTo_mono times (add_le_add_left hstart window)
    refine ⟨(times.countP fun t => decide (t < start), countUpTo times (s + window) - 1),
      ⟨s, hs, ?_, ?_⟩, hbefore, ?_⟩ <;> dsimp only <;> omega

open scoped Classical in
/-- The times counted are those that share a crowded window with others. -/
theorem clusteredCount_eq_countP (size : ℕ) :
    clusteredCount times window size =
      times.countP fun t => decide (Clustered times window size t) :=
  countP_range fun i t hi => by
    rw [Bool.eq_iff_iff, covered_iff h hw hi, decide_eq_true_iff]

theorem countWithin_le_clusteredCount (hcrowded : size ≤ countWithin times window start) :
    countWithin times window start ≤ clusteredCount times window size := by
  classical
  rw [clusteredCount_eq_countP h hw]
  refine List.countP_mono_left fun t _ ht => decide_eq_true ?_
  obtain ⟨hstart, hstop⟩ := of_decide_eq_true ht
  exact ⟨start, hstart, hstop, hcrowded⟩

/-- Without a crowded window nothing is counted. -/
theorem clusteredCount_eq_zero (hnone : ¬ ∃ start, size ≤ countWithin times window start) :
    clusteredCount times window size = 0 := by
  classical
  rw [clusteredCount_eq_countP h hw]
  refine List.countP_eq_zero.mpr fun t _ ht => ?_
  obtain ⟨start, -, -, hcrowded⟩ := of_decide_eq_true ht
  exact hnone ⟨start, hcrowded⟩

/-- As long as a cluster takes at least `limit` times, fewer are counted only without a cluster. -/
theorem clusteredCount_lt_iff {limit : ℕ} (hlimit : 0 < limit) (hsize : limit ≤ size) :
    clusteredCount times window size < limit ↔
      ¬ ∃ start, size ≤ countWithin times window start := by
  constructor
  · rintro hlt ⟨start, hcrowded⟩
    have hall := countWithin_le_clusteredCount h hw hcrowded
    omega
  · intro hnone
    rw [clusteredCount_eq_zero h hw hnone]
    exact hlimit

/-- One cluster makes as many times as a cluster takes. -/
theorem clusteredCount_eq_zero_or_le (size : ℕ) :
    clusteredCount times window size = 0 ∨ size ≤ clusteredCount times window size := by
  by_cases hsome : ∃ start, size ≤ countWithin times window start
  · obtain ⟨start, hcrowded⟩ := hsome
    exact .inr (hcrowded.trans (countWithin_le_clusteredCount h hw hcrowded))
  · exact .inl (clusteredCount_eq_zero h hw hsome)

end Ascending

end Windows

/-! ## Clusters of connection control, by brute force

A burst of connection control is in a cluster when a closed window that starts at any moment at all,
not only where a burst begins, holds its begin and the begins of enough others. One pass over the
bursts counts exactly these. A window that starts between two begins may be moved up to the first
begin within it and holds no less, so looking at the begins is enough.
-/
section Counting
variable {times : List Rat} {bursts : List (Burst Rat)} {window t : Rat} {size : ℕ}

/-- The number of bursts of connection control that begin in the closed window from a moment on. -/
noncomputable def controlWithin (bursts : List (Burst Rat)) (window : Rat) (x : ℝ) : ℕ :=
  (Burst.inCategory .tcpProtocolOnly bursts).countP fun b =>
    decide ((b.beginTime : ℝ) ∈ Set.Icc x (x + window))

/-- A burst shares some closed window with enough bursts of connection control. -/
def InCluster (bursts : List (Burst Rat)) (window : Rat) (size : ℕ) (b : Burst Rat) : Prop :=
  ∃ x : ℝ, (b.beginTime : ℝ) ∈ Set.Icc x (x + window) ∧ size ≤ controlWithin bursts window x

/-- A window that holds some time may start at the first time within it. -/
theorem exists_first_of_window (times : List Rat) {x : ℝ} (ht : (t : ℝ) ∈ Set.Icc x (x + window)) :
    ∃ start : Rat, start ≤ t ∧ t ≤ start + window ∧
      ∀ s ∈ times, (s : ℝ) ∈ Set.Icc x (x + window) → start ≤ s ∧ s ≤ start + window := by
  classical
  obtain ⟨start, hstart, hfirst⟩ := Finset.exists_min_image
    (t :: times.filter fun s : Rat => (s : ℝ) ∈ Set.Icc x (x + window)).toFinset id ⟨t, by simp⟩
  have hin : (start : ℝ) ∈ Set.Icc x (x + window) := by
    rcases List.mem_cons.mp (List.mem_toFinset.mp hstart) with rfl | hmem
    · exact ht
    · simpa using (List.mem_filter.mp hmem).2
  have hbounds {s : Rat} (hs : (s : ℝ) ∈ Set.Icc x (x + window))
      (hmem : s ∈ t :: times.filter fun s : Rat => (s : ℝ) ∈ Set.Icc x (x + window)) :
      start ≤ s ∧ s ≤ start + window := by
    refine ⟨hfirst s (List.mem_toFinset.mpr hmem), ?_⟩
    have hreal : (s : ℝ) ≤ start + window := by linarith [hs.2, hin.1]
    exact_mod_cast hreal
  obtain ⟨hle, hstop⟩ := hbounds ht List.mem_cons_self
  refine ⟨start, hle, hstop, fun s hs hsin => hbounds hsin (List.mem_cons_of_mem _ ?_)⟩
  exact List.mem_filter.mpr ⟨hs, decide_eq_true hsin⟩

/-- It makes no difference whether windows may start at any real moment. -/
theorem clustered_iff_exists_real : Clustered times window size t ↔
    ∃ x : ℝ, (t : ℝ) ∈ Set.Icc x (x + window) ∧
      size ≤ times.countP fun s : Rat => decide ((s : ℝ) ∈ Set.Icc x (x + window)) := by
  constructor
  · rintro ⟨start, hle, hstop, hsize⟩
    have hcast {s : Rat} : (s : ℝ) ∈ Set.Icc (start : ℝ) (start + window) ↔
        start ≤ s ∧ s ≤ start + window := by
      rw [Set.mem_Icc]
      norm_cast
    refine ⟨start, hcast.mpr ⟨hle, hstop⟩, hsize.trans_eq ?_⟩
    exact congrArg (times.countP ·) (funext fun s => decide_eq_decide.mpr hcast.symm)
  · rintro ⟨x, ht, hsize⟩
    obtain ⟨start, hle, hstop, hwithin⟩ := exists_first_of_window times ht
    refine ⟨start, hle, hstop, hsize.trans (List.countP_mono_left fun s hs hsin => ?_)⟩
    exact decide_eq_true (hwithin s hs (of_decide_eq_true hsin))

theorem inCluster_iff {b : Burst Rat} : InCluster bursts window size b ↔
    Clustered ((Burst.inCategory .tcpProtocolOnly bursts).map (·.beginTime)) window size
      b.beginTime := by
  rw [clustered_iff_exists_real]
  simp only [InCluster, controlWithin, List.countP_map]
  rfl

open scoped Classical in
/-- One pass over bursts in order of their begins counts the bursts of connection control that are
in a cluster, which are none or as many as a cluster takes. -/
theorem tightlyCoupledCount_eq_countP
    (h : bursts.Pairwise fun b c => b.beginTime ≤ c.beginTime) (hw : 0 < window) (size : ℕ) :
    tightlyCoupledCount bursts window size =
        (Burst.inCategory .tcpProtocolOnly bursts).countP
          (fun b => decide (InCluster bursts window size b)) ∧
      (tightlyCoupledCount bursts window size = 0 ∨
        size ≤ tightlyCoupledCount bursts window size) := by
  have htimes : ((Burst.inCategory .tcpProtocolOnly bursts).map (·.beginTime)).Pairwise (· ≤ ·) :=
    List.pairwise_map.mpr (h.filter _)
  refine ⟨?_, clusteredCount_eq_zero_or_le htimes hw.le size⟩
  rw [tightlyCoupledCount, clusteredCount_eq_countP htimes hw.le, List.countP_map]
  exact congrArg (List.countP · _) (funext fun b => decide_eq_decide.mpr inCluster_iff.symm)

/-- A burst of connection control that lasts no time. -/
def controlAt (t : Rat) : Burst Rat :=
  { Burst.fresh t t ⟨0, 1⟩ 0 with category := .tcpProtocolOnly }

/-- Two clusters with a burst in common, a burst of another cause between them, and a lone one. -/
def chainedControl : List (Burst Rat) :=
  [controlAt 0, .fresh 20 20 ⟨0, 1⟩ 0, controlAt 60, controlAt 120, controlAt 300]

open scoped Classical in
/-- Three of the four are in a cluster of two, one of them in two such clusters. -/
theorem tightlyCoupledCount_chained :
    chainedControl.Pairwise (fun b c => b.beginTime ≤ c.beginTime) ∧ (0 : Rat) < 60 ∧
    (Burst.inCategory .tcpProtocolOnly chainedControl).countP
      (fun b => decide (InCluster chainedControl 60 2 b)) = 3 := by
  have h : chainedControl.Pairwise fun b c => b.beginTime ≤ c.beginTime := by decide +kernel
  have hw : (0 : Rat) < 60 := by norm_num
  have hcount : tightlyCoupledCount chainedControl 60 2 = 3 := by decide +kernel
  exact ⟨h, hw, (tightlyCoupledCount_eq_countP h hw 2).1.symm.trans hcount⟩

end Counting

end BurstEnergy.Cluster
