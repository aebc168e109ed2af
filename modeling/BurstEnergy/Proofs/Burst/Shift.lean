import BurstEnergy.Burst.Collection
import BurstEnergy.Burst.Segmentation
import BurstEnergy.Proofs.Scalar.Lawful

/-!
# The origin of time

The burst engine asks for distances of times and for their order, never for a time itself. So in
exact arithmetic packets and events that all come later by the same time make the same bursts, later
by that time.
-/
namespace BurstEnergy

section Lists
variable {β γ : Type} {f : β → γ}

theorem cutLength_map {p : γ → Bool} (xs : List β) :
    cutLength p (xs.map f) = cutLength (p ∘ f) xs := by
  simp only [cutLength, List.length_map, List.getElem?_map, Option.any_map, Function.comp_def]

variable {le : γ → γ → Bool} {le' : β → β → Bool} (h : ∀ a b, le (f a) (f b) = le' a b)
include h

theorem insertSorted_map (x : β) (xs : List β) :
    insertSorted le (f x) (xs.map f) = (insertSorted le' x xs).map f := by
  induction xs with
  | nil => rfl
  | cons y rest ih =>
    rw [List.map_cons, insertSorted, insertSorted, h]
    split
    · rfl
    · rw [ih, List.map_cons]

/-- What does not change the order of elements does not change how they are sorted. -/
theorem stableSort_map (xs : List β) : stableSort le (xs.map f) = (stableSort le' xs).map f := by
  induction xs with
  | nil => rfl
  | cons x rest ih => rw [List.map_cons, stableSort, ih, insertSorted_map h, stableSort]

end Lists

namespace Traffic

/-- The packet, seen later by `d` seconds. -/
def Packet.shift (d : Rat) (p : Packet Rat) : Packet Rat := { p with timestamp := p.timestamp + d }

def Timeline.shift (d : Rat) (timeline : Timeline Rat) : Timeline Rat :=
  ⟨timeline.packets.map (.shift d)⟩

def Markers.shift (d : Rat) (markers : Markers Rat) : Markers Rat :=
  ⟨markers.screenRotations.map (· + d), markers.userInputs.map (· + d)⟩

theorem Markers.sortTimes_shift (d : Rat) (times : List Rat) :
    sortTimes (times.map (· + d)) = (sortTimes times).map (· + d) :=
  stableSort_map (fun _ _ => decide_eq_decide.mpr (add_le_add_iff_right d)) times

theorem Markers.ofTimes_shift (d : Rat) (rotations inputs : List Rat) :
    ofTimes (rotations.map (· + d)) (inputs.map (· + d)) = (ofTimes rotations inputs).shift d := by
  simp only [ofTimes, sortTimes_shift, shift]

end Traffic

open Classification (classify)
open Traffic (Markers Packet Timeline)
variable {d : Rat} {timeline : Timeline Rat}

namespace Burst

def shift (d : Rat) (burst : Burst Rat) : Burst Rat :=
  { burst with beginTime := burst.beginTime + d, endTime := burst.endTime + d }

theorem members_shift (burst : Burst Rat) :
    (burst.shift d).members (timeline.shift d) = (burst.members timeline).map (.shift d) := by
  simp only [members, shift, Timeline.shift, PacketRange.slice, List.length_map]
  split
  · rw [List.map_take, List.map_drop]
  · rfl

theorem inCategory_shift (category : Category) (bursts : List (Burst Rat)) :
    inCategory category (bursts.map (shift d)) = (inCategory category bursts).map (shift d) := by
  rw [inCategory, List.filter_map]
  rfl

theorem map_beginTime_shift (bursts : List (Burst Rat)) :
    (bursts.map (shift d)).map (·.beginTime) = (bursts.map (·.beginTime)).map (· + d) := by
  rw [List.map_map, List.map_map]
  rfl

end Burst

namespace Segmentation

def Run.shift (d : Rat) (run : Run Rat) : Run Rat :=
  { run with beginTime := run.beginTime + d, latestTime := run.latestTime + d }

theorem continueRun_shift (gap : Rat) (run : Run Rat) (packets : List (Packet Rat)) :
    continueRun gap (run.shift d) (packets.map (.shift d)) =
      (continueRun gap run packets).map (.shift d) := by
  induction packets generalizing run with
  | nil => rfl
  | cons p rest ih =>
    have hgap : (p.shift d).timestamp - (run.shift d).latestTime = p.timestamp - run.latestTime :=
      add_sub_add_right_eq_sub _ _ d
    rw [List.map_cons, continueRun, continueRun, hgap]
    split
    · exact ih (run.push p)
    · exact congrArg (List.cons _) (ih (.start run.stop p))

theorem segment_shift (gap : Rat) (timeline : Timeline Rat) :
    segment gap (timeline.shift d) = (segment gap timeline).map (.shift d) := by
  obtain ⟨packets⟩ := timeline
  cases packets with
  | nil => rfl
  | cons p rest => exact continueRun_shift gap (.start 0 p) rest

end Segmentation

namespace Periodicity
variable {detector : Detector Rat} {times : List Rat} {t target cycle tolerance : Rat}

theorem nearerNeighbour_shift (times : List Rat) (target : Rat) (split : ℕ) :
    nearerNeighbour (times.map (· + d)) (target + d) split =
      nearerNeighbour times target split := by
  have hbelow : (if split = 0 then none else (times.map (· + d))[split - 1]?) =
      (if split = 0 then none else times[split - 1]?).map (· + d) := by
    rw [List.getElem?_map]
    split <;> rfl
  unfold nearerNeighbour
  rw [hbelow, List.getElem?_map]
  cases (if split = 0 then none else times[split - 1]?) <;> cases times[split]? <;>
    simp only [Option.map_some, Option.map_none, add_sub_add_right_eq_sub]

theorem nearestWithin_shift (times : List Rat) (target tolerance : Rat) :
    nearestWithin (times.map (· + d)) (target + d) tolerance =
      nearestWithin times target tolerance := by
  have hcut : (fun t => decide (t < target + d)) ∘ (· + d) = fun t => decide (t < target) :=
    funext fun t => decide_eq_decide.mpr (add_lt_add_iff_right d)
  unfold nearestWithin
  rw [cutLength_map, hcut, nearerNeighbour_shift]
  refine Option.bind_congr fun best _ => ?_
  rw [List.getElem?_map]
  cases times[best]? with
  | none => rfl
  | some time =>
    simp only [Option.map_some, Option.bind_eq_bind, Option.bind_some, add_sub_add_right_eq_sub]

theorem walkBack_shift (times : List Rat) (cycle tolerance : Rat) (links current : ℕ) :
    walkBack (times.map (· + d)) cycle tolerance links current =
      walkBack times cycle tolerance links current := by
  induction links generalizing current with
  | zero => rfl
  | succ links ih =>
    unfold walkBack
    rw [List.getElem?_map, ← List.map_take]
    cases times[current]? with
    | none => rfl
    | some time =>
      simp only [Option.map_some, Option.bind_eq_bind, Option.bind_some, add_sub_right_comm,
        nearestWithin_shift, ih]

theorem searchAnchors_shift (times : List Rat) (t : Rat) (anchors : ℕ) :
    searchAnchors detector (times.map (· + d)) (t + d) anchors =
      searchAnchors detector times t anchors := by
  induction anchors with
  | zero => rfl
  | succ anchor ih =>
    unfold searchAnchors
    rw [List.getElem?_map, ih]
    cases times[anchor]? with
    | none => rfl
    | some s =>
      simp only [Option.map_some, Option.bind_eq_bind, Option.bind_some, add_sub_add_right_eq_sub,
        chainStart, walkBack_shift]
      split
      · rfl
      · split
        · rfl
        · cases walkBack times (t - s) detector.tolerance (detector.minSamples - 1) anchor with
          | none => rfl
          | some first =>
            simp only [List.getElem?_map]
            cases times[first]? with
            | none => rfl
            | some f => simp only [Option.map_some, Option.bind_some, add_sub_add_right_eq_sub]

/-- The cycles of times do not depend on where time starts. -/
theorem detect_shift (detector : Detector Rat) (times : List Rat) :
    detect detector (times.map (· + d)) = detect detector times := by
  have hcycle : cycleAt detector (times.map (· + d)) = cycleAt detector times := by
    funext i
    unfold cycleAt
    rw [List.getElem?_map]
    cases times[i]? with
    | none => rfl
    | some t => exact searchAnchors_shift times t i
  simp only [detect, List.length_map, hcycle]

end Periodicity

namespace Classification

theorem followsEvent_shift (events : List Rat) (t window : Rat) :
    followsEvent (events.map (· + d)) (t + d) window = followsEvent events t window := by
  have hcut : (fun e => decide (e ≤ t + d)) ∘ (· + d) = fun e => decide (e ≤ t) :=
    funext fun e => decide_eq_decide.mpr (add_le_add_iff_right d)
  unfold followsEvent
  rw [cutLength_map, hcut]
  cases cutLength (fun e => decide (e ≤ t)) events with
  | zero => rfl
  | succ last => simp only [List.getElem?_map, Option.any_map, add_sub_add_right_eq_sub]

theorem anyEventIn_shift (events : List Rat) (start stop : Rat) :
    anyEventIn (events.map (· + d)) (start + d) (stop + d) = anyEventIn events start stop := by
  have hcut : (fun e => decide (e < start + d)) ∘ (· + d) = fun e => decide (e < start) :=
    funext fun e => decide_eq_decide.mpr (add_lt_add_iff_right d)
  unfold anyEventIn
  rw [cutLength_map, hcut]
  simp only [List.getElem?_map, Option.any_map, add_le_add_iff_right]

def History.shift (d : Rat) (history : History Rat) : History Rat :=
  { history with rotationBurstTime := history.rotationBurstTime.map (· + d) }

theorem History.advance_shift (history : History Rat) (category : Category) (t : Rat) :
    (history.shift d).advance category (t + d) = (history.advance category t).shift d := by
  unfold advance shift
  cases history.rotationBurstTime <;> split <;> simp

theorem categorize_shift (t : Profile.Thresholds Rat) (markers : Markers Rat) (burst : Burst Rat)
    (members : List (Packet Rat)) (cycle : Option Rat) (history : History Rat) :
    categorize t (markers.shift d) (burst.shift d) (members.map (.shift d)) cycle
      (history.shift d) = categorize t markers burst members cycle history := by
  have hduration : (burst.shift d).duration = burst.duration := add_sub_add_right_eq_sub _ _ d
  have hstart : (burst.shift d).beginTime - t.userInputWindow =
      burst.beginTime - t.userInputWindow + d := add_sub_right_comm _ _ _
  have hrotation : followsEvent (markers.shift d).screenRotations (burst.shift d).beginTime
      t.screenRotationWindow =
        followsEvent markers.screenRotations burst.beginTime t.screenRotationWindow :=
    followsEvent_shift _ _ _
  have hinput : anyEventIn (markers.shift d).userInputs (burst.beginTime - t.userInputWindow + d)
      (burst.shift d).endTime =
        anyEventIn markers.userInputs (burst.beginTime - t.userInputWindow) burst.endTime :=
    anyEventIn_shift _ _ _
  have hcontrol : (members.map (Packet.shift d)).all (·.controlOnly) =
      members.all (·.controlOnly) := List.all_map
  have hknown : (history.shift d).rotationBurstTime.isNone = history.rotationBurstTime.isNone :=
    Option.isNone_map
  unfold categorize
  rw [hduration, hstart, hrotation, hinput, hcontrol, hknown, List.isEmpty_map]
  rfl

def Result.shift (d : Rat) (result : Result Rat) : Result Rat :=
  { result with
    bursts := result.bursts.map (.shift d)
    history := result.history.shift d }

theorem classifyFrom_shift (t : Profile.Thresholds Rat) (timeline : Timeline Rat)
    (markers : Markers Rat) (history : History Rat) (items : List (Burst Rat × Option Rat)) :
    classifyFrom t (timeline.shift d) (markers.shift d) (history.shift d)
        (items.map fun item => (item.1.shift d, item.2)) =
      ((classifyFrom t timeline markers history items).1.map (.shift d),
        (classifyFrom t timeline markers history items).2.shift d) := by
  induction items generalizing history with
  | nil => rfl
  | cons item rest ih =>
    have hlater := ih (history.advance (categorize t markers item.1 (item.1.members timeline) item.2
      history) item.1.beginTime)
    rw [← History.advance_shift] at hlater
    simp only [List.map_cons, classifyFrom, Burst.members_shift, categorize_shift]
    obtain ⟨hbursts, hhistory⟩ := Prod.ext_iff.mp hlater
    exact Prod.ext (congrArg (List.cons _) hbursts) hhistory

theorem classify_shift (t : Profile.Thresholds Rat) (bursts : List (Burst Rat))
    (timeline : Timeline Rat) (markers : Markers Rat) :
    classify t (bursts.map (.shift d)) (timeline.shift d) (markers.shift d) =
      (classify t bursts timeline markers).shift d := by
  have hcycles : Periodicity.detect (.ofThresholds t)
      ((bursts.map (Burst.shift d)).map (·.beginTime)) =
        Periodicity.detect (.ofThresholds t) (bursts.map (·.beginTime)) := by
    rw [Burst.map_beginTime_shift, Periodicity.detect_shift]
  have hitems (cycles : List (Option Rat)) : (bursts.map (Burst.shift d)).zip cycles =
      (bursts.zip cycles).map fun item => (item.1.shift d, item.2) := List.zip_map_left ..
  have hstart : (History.start : History Rat).shift d = .start := rfl
  simp only [classify, hcycles, hitems]
  rw [← hstart, classifyFrom_shift, hstart]
  rfl

end Classification

namespace Cluster

theorem reach_shift (times : List Rat) (window start : Rat) (last : ℕ) :
    reach (times.map (· + d)) window (start + d) last = reach times window start last := by
  have hdistance {i : ℕ} (hi : i < times.length) (hi' : i < (times.map (· + d)).length) :
      (times.map (· + d))[i] - (start + d) = times[i] - start := by
    rw [List.getElem_map, add_sub_add_right_eq_sub]
  have hlength : (times.map (· + d)).length = times.length := List.length_map _
  fun_induction reach times window start last with
  | case1 last hlt hw ih =>
    have hlt' := hlength.symm ▸ hlt
    rw [reach, dif_pos hlt', if_pos ((hdistance hlt hlt').trans_le hw), ih]
  | case2 last hlt hw =>
    have hlt' := hlength.symm ▸ hlt
    rw [reach, dif_pos hlt', if_neg fun h => hw ((hdistance hlt hlt').ge.trans h)]
  | case3 last hlt => rw [reach, dif_neg (hlength.symm ▸ hlt)]

theorem windowsFrom_shift (times rest : List Rat) (window : Rat) (size start last : ℕ) :
    windowsFrom (times.map (· + d)) window size start last (rest.map (· + d)) =
      windowsFrom times window size start last rest := by
  induction rest generalizing start last with
  | nil => rfl
  | cons time rest ih => simp only [List.map_cons, windowsFrom, reach_shift, ih]

theorem tightlyCoupledCount_shift (bursts : List (Burst Rat)) (window : Rat) (size : ℕ) :
    tightlyCoupledCount (bursts.map (.shift d)) window size =
      tightlyCoupledCount bursts window size := by
  simp only [tightlyCoupledCount, clusteredCount, Burst.inCategory_shift,
    Burst.map_beginTime_shift, windowsFrom_shift, List.length_map]

end Cluster

def Collection.shift (d : Rat) (c : Collection Rat) : Collection Rat :=
  { c with
    bursts := c.bursts.map (.shift d)
    screenRotationBurstTime := c.screenRotationBurstTime.map (· + d) }

theorem Collection.assemble_shift (t : Profile.Thresholds Rat)
    (classified : Classification.Result Rat) :
    assemble t (classified.shift d) = (assemble t classified).shift d := by
  simp only [assemble, shift, Classification.Result.shift, Classification.History.shift,
    Cluster.tightlyCoupledCount_shift, countIn, Burst.inCategory_shift, List.length_map,
    energyOfAll, List.map_map]
  rfl

/-- Packets and events that all come later by `d` seconds make the same bursts with the same
figures, and only the times of the bursts are later by as much. -/
theorem Collection.assemble_classify_shift (t : Profile.Thresholds Rat) (timeline : Timeline Rat)
    (rotations inputs : List Rat) (d : Rat) :
    let found := classify t (Segmentation.segment t.burstGap timeline) timeline
      (.ofTimes rotations inputs)
    let moved := classify t (Segmentation.segment t.burstGap (timeline.shift d)) (timeline.shift d)
      (.ofTimes (rotations.map (· + d)) (inputs.map (· + d)))
    moved = found.shift d ∧
      Collection.assemble t moved = (Collection.assemble t found).shift d := by
  intro found moved
  have hmoved : moved = found.shift d := by
    simp only [moved, Segmentation.segment_shift, Markers.ofTimes_shift]
    exact Classification.classify_shift _ _ _ _
  exact ⟨hmoved, hmoved ▸ Collection.assemble_shift t found⟩

end BurstEnergy
