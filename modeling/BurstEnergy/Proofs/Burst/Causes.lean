import BurstEnergy.Burst.Classification
import BurstEnergy.Proofs.Burst.History
import BurstEnergy.Proofs.Burst.Members
import BurstEnergy.Proofs.CutPoint
import BurstEnergy.Proofs.Profile.Validation
import BurstEnergy.Proofs.Scalar.Binary64
import BurstEnergy.Proofs.Scalar.Binary64Monotone
import BurstEnergy.Proofs.Scalar.Lawful

/-!
# Causes of bursts

The rules of classification as statements on all events and all earlier bursts.
-/

/-! ## Events near a burst

Event times are sorted, with what is not a number after all numbers. So one probe decides what is
asked of all events: of those at or before a time the last one is the nearest, and of those from a
time on the first one is the earliest.
-/
namespace BurstEnergy
open Scalar (Lawful Monotone Sortable)
variable {α : Type} [Scalar α]

namespace Traffic.Markers

def Sorted (times : List α) : Prop := times.Pairwise fun s t => Scalar.totalLe s t = true

theorem sorted_sortTimes [Sortable α] (times : List α) : Sorted (sortTimes times) := by
  refine pairwise_stableSort ?_ ?_ times
  · exact fun _ _ => Sortable.totalLe_total
  · exact fun _ _ _ => Sortable.totalLe_trans

@[simp] theorem mem_sortTimes {times : List α} {t : α} : t ∈ sortTimes times ↔ t ∈ times :=
  mem_stableSort

variable [Lawful α] [Sortable α] {times : List α}

theorem Sorted.pairwise_le (h : Sorted times) (t : α) :
    times.Pairwise fun x y => decide (y ≤ t) = true → decide (x ≤ t) = true := by
  refine h.imp fun hxy hy => ?_
  have hle := of_decide_eq_true hy
  exact decide_eq_true
    (Lawful.le_trans (Sortable.le_of_totalLe hxy (Scalar.le_self_left hle)) hle)

theorem Sorted.pairwise_lt (h : Sorted times) (t : α) :
    times.Pairwise fun x y => decide (y < t) = true → decide (x < t) = true := by
  refine h.imp fun hxy hy => ?_
  have hlt := of_decide_eq_true hy
  have hself := Scalar.le_self_left (Scalar.le_of_lt hlt)
  exact decide_eq_true (Scalar.lt_of_le_of_lt (Sortable.le_of_totalLe hxy hself) hlt)

end Traffic.Markers

namespace Classification
open Traffic.Markers (Sorted)
variable [Lawful α] [Sortable α] {events : List α} {t start stop window : α}

/-- The last event at or before a time is the one that may be near enough. -/
theorem followsEvent_iff [Monotone α] (hs : Sorted events) (ht : Scalar.isFinite t = true) :
    followsEvent events t window = true ↔ ∃ e ∈ events, e ≤ t ∧ t - e ≤ window := by
  have hp := hs.pairwise_le t
  have hmem {e : α} := mem_takeWhile_iff hp (x := e)
  have hsplit := List.takeWhile_append_dropWhile (p := fun e => decide (e ≤ t)) (l := events)
  rw [followsEvent, cutLength_eq_length_takeWhile hp]
  rcases (events.takeWhile fun e => decide (e ≤ t)).eq_nil_or_concat with
    hnil | ⟨front, last, hlast⟩
  · have hnone : ¬ ∃ e ∈ events, e ≤ t ∧ t - e ≤ window := by
      rintro ⟨e, he, hle, -⟩
      simpa [hnil] using hmem.mpr ⟨he, decide_eq_true hle⟩
    simp [hnil, hnone]
  · rw [List.concat_eq_append] at hlast
    have hget : events[front.length]? = some last := by
      rw [← hsplit, hlast]
      simp
    obtain ⟨hin, hle⟩ := hmem.mp (hlast ▸ List.mem_concat_self)
    simp only [hlast, List.length_append, List.length_singleton, hget, Option.any_some,
      decide_eq_true_eq]
    refine ⟨fun hw => ⟨last, hin, of_decide_eq_true hle, hw⟩, ?_⟩
    rintro ⟨e, he, het, hw⟩
    have hnear : e ≤ last := by
      have hself := Scalar.le_self_left (of_decide_eq_true hle)
      have hfront : e ∈ front ++ [last] := hlast ▸ hmem.mpr ⟨he, decide_eq_true het⟩
      rcases List.mem_append.mp hfront with hfront | hsame
      · have hsorted : Sorted (front ++ [last]) :=
          hlast ▸ List.Pairwise.sublist (List.takeWhile_prefix _).sublist hs
        exact Sortable.le_of_totalLe
          ((List.pairwise_append.mp hsorted).2.2 e hfront last (List.mem_singleton_self _)) hself
      · rwa [List.mem_singleton.mp hsame]
    exact Lawful.le_trans (Monotone.sub_le_sub ht ht (Lawful.le_self_of_isFinite ht) hnear) hw

/-- The first event from a time on is the one that may be early enough. -/
theorem anyEventIn_iff (hs : Sorted events) (hstart : start ≤ start) :
    anyEventIn events start stop = true ↔ ∃ e ∈ events, start ≤ e ∧ e ≤ stop := by
  have hp := hs.pairwise_lt start
  have hsplit := List.takeWhile_append_dropWhile (p := fun e => decide (e < start)) (l := events)
  have hback {e : α} (he : e ∈ events) (hle : start ≤ e) :
      e ∈ events.dropWhile fun e => decide (e < start) := by
    rw [← hsplit] at he
    refine (List.mem_append.mp he).resolve_left fun hfront => ?_
    exact Scalar.not_lt_of_le hle (of_decide_eq_true ((mem_takeWhile_iff hp).mp hfront).2)
  rw [anyEventIn, getElem?_cutLength hp]
  cases hdrop : events.dropWhile fun e => decide (e < start) with
  | nil =>
    have hnone : ¬ ∃ e ∈ events, start ≤ e ∧ e ≤ stop := by
      rintro ⟨e, he, hle, -⟩
      simpa [hdrop] using hback he hle
    simp [hnone]
  | cons first rest =>
    have hin : first ∈ events := (List.dropWhile_suffix _).subset (hdrop ▸ List.mem_cons_self)
    have hnot : ¬ first < start :=
      of_decide_eq_false (not_of_mem_dropWhile hp (hdrop ▸ List.mem_cons_self))
    simp only [List.head?_cons, Option.any_some, decide_eq_true_eq]
    refine ⟨fun hle => ⟨first, hin, ?_, hle⟩, ?_⟩
    · exact Scalar.le_of_not_lt (Scalar.le_self_left hle) hstart hnot
    · rintro ⟨e, he, hle, hstop⟩
      have hearly := hdrop ▸ hback he hle
      rcases List.mem_cons.mp hearly with rfl | hrest
      · exact hstop
      · have hsorted : Sorted (first :: rest) :=
          hdrop ▸ List.Pairwise.sublist (List.dropWhile_suffix _).sublist hs
        have hself := Scalar.le_self_left hstop
        exact Lawful.le_trans (Sortable.le_of_totalLe
          ((List.pairwise_cons.mp hsorted).1 e hrest) hself) hstop

end Classification
end BurstEnergy

/-! ## The causes of bursts

The rules of classification as statements on all events and all earlier bursts. The classifier looks
at one event for each rule, at its own history instead of the earlier bursts, and finds the same
causes.
-/
namespace BurstEnergy.Classification
open Scalar (IsAmount Lawful Monotone Sortable)
open Traffic (Markers Packet Timeline)
variable {α : Type} [Scalar α]

/-- Some rotation comes at most the rotation window before the begin of a burst. -/
def FollowsRotation (t : Profile.Thresholds α) (rotations : List α) (burst : Burst α) : Prop :=
  ∃ e ∈ rotations, e ≤ burst.beginTime ∧ burst.beginTime - e ≤ t.screenRotationWindow

/-- Some input comes between the begin of a burst, less the input window, and its end. -/
def FollowsInput (t : Profile.Thresholds α) (inputs : List α) (burst : Burst α) : Prop :=
  ∃ e ∈ inputs, burst.beginTime - t.userInputWindow ≤ e ∧ e ≤ burst.endTime

instance (t : Profile.Thresholds α) (rotations : List α) (burst : Burst α) :
    Decidable (FollowsRotation t rotations burst) :=
  inferInstanceAs (Decidable (∃ e ∈ rotations, _))

instance (t : Profile.Thresholds α) (inputs : List α) (burst : Burst α) :
    Decidable (FollowsInput t inputs burst) :=
  inferInstanceAs (Decidable (∃ e ∈ inputs, _))

/-- The cause of a burst that comes after some others: the first rule that applies decides. -/
def cause (t : Profile.Thresholds α) (timeline : Timeline α) (rotations inputs : List α)
    (earlier : List (Burst α)) (burst : Burst α) (cycle : Option α) : Category :=
  if FollowsRotation t rotations burst ∧ ∀ b ∈ earlier, ¬ FollowsRotation t rotations b then
    .screenRotation
  else if ∀ p ∈ burst.members timeline, p.controlOnly = true then .tcpProtocolOnly
  else if FollowsInput t inputs burst then .userInput
  else if cycle.isSome then .periodic
  else if t.longBurstDuration ≤ burst.endTime - burst.beginTime ∨
      t.largeBurstSize ≤ burst.bytes then
    .longBurst
  else .other

variable {t : Profile.Thresholds α} {timeline : Timeline α} {rotations inputs : List α}
  {history : History α} {earlier : List (Burst α)} {burst : Burst α} {cycle : Option α}

theorem cause_eq_screenRotation_iff :
    cause t timeline rotations inputs earlier burst cycle = .screenRotation ↔
      FollowsRotation t rotations burst ∧ ∀ b ∈ earlier, ¬ FollowsRotation t rotations b := by
  unfold cause
  split_ifs <;> simp_all

/-- A history knows of a rotation when one of the earlier bursts follows one. -/
def History.Reflects (history : History α) (t : Profile.Thresholds α) (rotations : List α)
    (earlier : List (Burst α)) : Prop :=
  history.rotationBurstTime = none ↔ ∀ b ∈ earlier, ¬ FollowsRotation t rotations b

theorem History.Reflects.advance (inputs : List α) (burst : Burst α) (cycle : Option α)
    (timeline : Timeline α) (h : history.Reflects t rotations earlier) :
    (history.advance (cause t timeline rotations inputs earlier burst cycle)
      burst.beginTime).Reflects t rotations (earlier ++ [burst]) := by
  unfold Reflects at h ⊢
  rw [rotationBurstTime_advance, Option.or_eq_none_iff, h, List.forall_mem_append,
    List.forall_mem_singleton]
  refine and_congr_right fun hnone => ?_
  have hcause : cause t timeline rotations inputs earlier burst cycle = .screenRotation ↔
      FollowsRotation t rotations burst :=
    cause_eq_screenRotation_iff.trans (and_iff_left hnone)
  by_cases hfollows : FollowsRotation t rotations burst
  · simp [hcause.mpr hfollows, hfollows]
  · simp [mt hcause.mp hfollows, hfollows]

theorem getElem?_zip_cycles {d : Periodicity.Detector α} {bursts : List (Burst α)} {i : ℕ}
    (hi : bursts[i]? = some burst) :
    (bursts.zip (Periodicity.detect d (bursts.map (·.beginTime))).cycles)[i]? =
      some (burst, (Periodicity.detect d (bursts.map (·.beginTime))).cycle i) := by
  obtain ⟨hlt, -⟩ := List.getElem?_eq_some_iff.mp hi
  have hcycles : i < (Periodicity.detect d (bursts.map (·.beginTime))).cycles.length := by
    simpa using hlt
  rw [List.zip, List.getElem?_zipWith, hi, Periodicity.Result.cycle,
    List.getElem?_eq_getElem hcycles]
  rfl

section Rules
variable [Lawful α] [Monotone α] [Sortable α] (ht : t.Usable)
include ht

/-- One event for each rule and the history are enough to find the cause. -/
theorem categorize_eq_cause (hbegin : IsAmount burst.beginTime)
    (hmembers : burst.members timeline ≠ []) (hh : history.Reflects t rotations earlier) :
    categorize t (.ofTimes rotations inputs) burst (burst.members timeline) cycle history =
      cause t timeline rotations inputs earlier burst cycle := by
  have hrotation : followsEvent (Markers.sortTimes rotations) burst.beginTime
      t.screenRotationWindow = true ↔ FollowsRotation t rotations burst := by
    rw [followsEvent_iff (Markers.sorted_sortTimes rotations) hbegin.1]
    simp only [Markers.mem_sortTimes, FollowsRotation]
  have hinput : anyEventIn (Markers.sortTimes inputs) (burst.beginTime - t.userInputWindow)
      burst.endTime = true ↔ FollowsInput t inputs burst := by
    have hstart : burst.beginTime - t.userInputWindow ≤ burst.beginTime :=
      Lawful.sub_le hbegin.nonneg ht.userInputWindow.nonneg ht.userInputWindow.1
    rw [anyEventIn_iff (Markers.sorted_sortTimes inputs) (Scalar.le_self_left hstart)]
    simp only [Markers.mem_sortTimes, FollowsInput]
  have hnonempty : (burst.members timeline).isEmpty = false := by simpa using hmembers
  unfold categorize cause
  refine if_congr ?_ rfl (if_congr ?_ rfl (if_congr hinput rfl rfl))
  · rw [Bool.and_eq_true, Option.isNone_iff_eq_none, and_comm]
    exact and_congr hrotation hh
  · simp [hnonempty]

/-- Each burst gets the cause found from all events and from all bursts before it, and the history
goes on to reflect all bursts. -/
theorem classifyFrom_finds_causes (inputs : List α) {items : List (Burst α × Option α)}
    (hbegin : ∀ item ∈ items, IsAmount item.1.beginTime)
    (hmembers : ∀ item ∈ items, item.1.members timeline ≠ [])
    (hh : history.Reflects t rotations earlier) :
    (∀ (i : ℕ) (item : Burst α × Option α), items[i]? = some item →
      (classifyFrom t timeline (.ofTimes rotations inputs) history items).1[i]? =
        some { item.1 with
          category := cause t timeline rotations inputs (earlier ++ (items.take i).map Prod.fst)
            item.1 item.2 }) ∧
      (classifyFrom t timeline (.ofTimes rotations inputs) history items).2.Reflects t rotations
        (earlier ++ items.map Prod.fst) := by
  induction items generalizing history earlier with
  | nil => simpa [classifyFrom] using hh
  | cons item rest ih =>
    obtain ⟨hfirst, hbegin⟩ := List.forall_mem_cons.mp hbegin
    obtain ⟨hmember, hmembers⟩ := List.forall_mem_cons.mp hmembers
    have hcause : categorize t (.ofTimes rotations inputs) item.1 (item.1.members timeline)
        item.2 history = cause t timeline rotations inputs earlier item.1 item.2 :=
      categorize_eq_cause ht hfirst hmember hh
    obtain ⟨hlater, hreflects⟩ :=
      ih hbegin hmembers (hh.advance inputs item.1 item.2 timeline)
    rw [List.append_assoc] at hreflects
    rw [classifyFrom, hcause]
    refine ⟨?_, hreflects⟩
    rintro (_ | i) other hi
    · obtain rfl : item = other := by simpa using hi
      simp
    · simpa using hlater i other (by simpa using hi)

variable (hstamp : ∀ p ∈ timeline.packets, IsAmount p.timestamp)
include hstamp

/-- Every burst of a timeline gets its cause, and the history reflects all of them. -/
theorem classify_segment (rotations inputs : List α) :
    let bursts := Segmentation.segment t.burstGap timeline
    let cycles := Periodicity.detect (.ofThresholds t) (bursts.map (·.beginTime))
    let result := classify t bursts timeline (.ofTimes rotations inputs)
    (∀ (i : ℕ) (burst : Burst α), bursts[i]? = some burst →
      result.bursts[i]? = some { burst with
        category := cause t timeline rotations inputs (bursts.take i) burst (cycles.cycle i) }) ∧
      result.history.Reflects t rotations bursts := by
  intro bursts cycles result
  have hmap : (bursts.zip cycles.cycles).map Prod.fst = bursts :=
    List.map_fst_zip (by simp [cycles])
  have hmem {item : Burst α × Option α} (hi : item ∈ bursts.zip cycles.cycles) :=
    Segmentation.exists_members_of_mem_segment (List.of_mem_zip hi).1
  have hbegin : ∀ item ∈ bursts.zip cycles.cycles, IsAmount item.1.beginTime := by
    intro item hi
    obtain ⟨p, rest, -, hp, hbegin⟩ := hmem hi
    exact hbegin ▸ hstamp p hp
  have hmembers : ∀ item ∈ bursts.zip cycles.cycles, item.1.members timeline ≠ [] := by
    intro item hi
    obtain ⟨p, rest, hsplit, -, -⟩ := hmem hi
    simp [hsplit]
  have hstart : (History.start : History α).Reflects t rotations [] := by
    simp [History.Reflects, History.start]
  obtain ⟨hcauses, hreflects⟩ := classifyFrom_finds_causes ht inputs hbegin hmembers hstart
  rw [List.nil_append, hmap] at hreflects
  refine ⟨fun i burst hi => ?_, hreflects⟩
  have hfound := hcauses i (burst, cycles.cycle i) (getElem?_zip_cycles hi)
  rwa [List.nil_append, List.map_take, hmap] at hfound

end Rules

/-- Classification leaves everything about a burst but its category as it is, and gives each one its
cause. At most one is due to a rotation, and when there is one, its begin is what is remembered. -/
theorem classify_finds_causes [Lawful α] [Monotone α] [Sortable α] (ht : t.validate = .ok ())
    (hv : timeline.validate = .ok ()) (rotations inputs : List α) :
    let bursts := Segmentation.segment t.burstGap timeline
    let cycles := Periodicity.detect (.ofThresholds t) (bursts.map (·.beginTime))
    let result := classify t bursts timeline (.ofTimes rotations inputs)
    result.bursts.length = bursts.length ∧
      (∀ (i : ℕ) (burst : Burst α), bursts[i]? = some burst →
        result.bursts[i]? = some { burst with
          category := cause t timeline rotations inputs (bursts.take i) burst (cycles.cycle i) }) ∧
      (Burst.inCategory .screenRotation result.bursts).length ≤ 1 ∧
      result.history.rotationBurstTime =
        (Burst.inCategory .screenRotation result.bursts).head?.map (·.beginTime) := by
  intro bursts cycles result
  have hstamp := Timeline.isAmount_of_checkTimestamps (check_bind_eq_ok_iff.mp hv).1
  obtain ⟨hcauses, -⟩ :=
    classify_segment (Profile.Thresholds.usable_of_validate ht) hstamp rotations inputs
  exact ⟨length_classify _ _ _ _, hcauses, length_screenRotation_classify _,
    rotationBurstTime_classify _⟩

/-- On rotations that include an infinite time and what is not a number, the second burst is the one
due to a rotation, in exact arithmetic without them and in binary64. -/
theorem classify_finds_causes_standard :
    (let timeline : Timeline Float := ⟨[.data 1 .uplink 100, .data 4.5 .uplink 100]⟩
      let bursts := Segmentation.segment 1.5 timeline
      let result := classify .standard bursts timeline (.ofTimes [0 / 0, 4, 1 / 0] [0.5])
      result.bursts.length = bursts.length ∧
        result.history.rotationBurstTime =
          (Burst.inCategory .screenRotation result.bursts).head?.map (·.beginTime) ∧
        result.bursts.map (·.category) = [.userInput, .screenRotation]) ∧
    (let timeline : Timeline Rat := ⟨[.data 1 .uplink 100, .data 4.5 .uplink 100]⟩
      let bursts := Segmentation.segment 1.5 timeline
      let result := classify .standard bursts timeline (.ofTimes [20, 4] [0.5])
      result.bursts.length = bursts.length ∧
        result.history.rotationBurstTime =
          (Burst.inCategory .screenRotation result.bursts).head?.map (·.beginTime) ∧
        result.bursts.map (·.category) = [.userInput, .screenRotation]) := by
  constructor
  · have ht : (Profile.Thresholds.standard : Profile.Thresholds Float).validate = .ok () := by
      decide +kernel
    have hv : (⟨[.data 1 .uplink 100, .data 4.5 .uplink 100]⟩ : Timeline Float).validate =
        .ok () := by decide +kernel
    obtain ⟨hlength, -, -, htime⟩ := classify_finds_causes ht hv [0 / 0, 4, 1 / 0] [0.5]
    exact ⟨hlength, htime, by decide +kernel⟩
  · have ht : (Profile.Thresholds.standard : Profile.Thresholds Rat).validate = .ok () := by
      decide +kernel
    have hv : (⟨[.data 1 .uplink 100, .data 4.5 .uplink 100]⟩ : Timeline Rat).validate =
        .ok () := by decide +kernel
    obtain ⟨hlength, -, -, htime⟩ := classify_finds_causes ht hv [20, 4] [0.5]
    exact ⟨hlength, htime, by decide +kernel⟩

end BurstEnergy.Classification
