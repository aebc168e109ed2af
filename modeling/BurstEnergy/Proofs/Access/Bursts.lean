import BurstEnergy.Burst.Classification
import BurstEnergy.Burst.Collection
import BurstEnergy.Burst.Segmentation
import BurstEnergy.Proofs.Access.Checked
import BurstEnergy.Proofs.Burst.Recurrence
import BurstEnergy.Proofs.Burst.Clusters

/-!
# The burst engine with checked accesses

Segmentation, the search for cycles, classification and the count of clusters, by positions. Each of
them ends without a fault in what the engine finds, for any numbers at all: a cut of a list is a
place in it, however the list is ordered; a chain leads to earlier positions only; and the far end
of a window stays inside the list and is never passed by its start.
-/
namespace BurstEnergy.Checked
open Traffic (Packet Timeline Markers)
variable {α : Type} [Scalar α]

section Segmentation

/-- The slices of two neighbours of a list. -/
def windows {β : Type} : List β → List (List β)
  | x :: y :: rest => [x, y] :: windows (y :: rest)
  | _ => []

/-- The bursts closed so far, and the first position, begin and bytes of the one being collected. -/
abbrev Collected (α : Type) : Type := List (Burst α) × ℕ × α × ℕ

/-- Take up the later packet of a slice of two, the one after position `index`. -/
def collect (gap : α) : Collected α → List (Packet α) × ℕ → Checked (Collected α)
  | (closed, first, beginTime, bytes), (pair, index) => do
    let previous ← element pair 0
    let packet ← element pair 1
    if packet.timestamp - previous.timestamp ≤ gap then
      return (closed, first, beginTime, bytes + packet.length)
    else
      return (closed ++ [.fresh beginTime previous.timestamp ⟨first, index + 1⟩ bytes],
        index + 1, packet.timestamp, packet.length)

def segment (gap : α) (timeline : Timeline α) : Checked (List (Burst α)) :=
  match timeline.packets with
  | [] => return []
  | p :: rest => do
    let (closed, first, beginTime, bytes) ←
      (windows (p :: rest)).zipIdx.foldlM (collect gap) ([], 0, p.timestamp, p.length)
    return closed ++ [.fresh beginTime timeline.lastTimestamp ⟨first, (p :: rest).length⟩ bytes]

/-- From a run on that ends with a packet, the bursts are those of the run that is continued. -/
theorem foldlM_collect (gap : α) (run : Segmentation.Run α) (p : Packet α) (index : ℕ)
    (hlatest : run.latestTime = p.timestamp) (hstop : run.stop = index + 1)
    (closed : List (Burst α)) (rest : List (Packet α)) :
    (do
      let (closed, first, beginTime, bytes) ← ((windows (p :: rest)).zipIdx index).foldlM
        (collect gap) (closed, run.first, run.beginTime, run.bytes)
      return closed ++ [.fresh beginTime (Timeline.lastTimestamp ⟨p :: rest⟩)
        ⟨first, index + (p :: rest).length⟩ bytes]) =
      (pure (closed ++ Segmentation.continueRun gap run rest) : Checked (List (Burst α))) := by
  induction rest generalizing run p index closed with
  | nil =>
    simp [windows, Segmentation.continueRun, Segmentation.Run.close, Timeline.lastTimestamp,
      hlatest, hstop]
  | cons q rest ih =>
    have hlast : Timeline.lastTimestamp ⟨p :: q :: rest⟩ = Timeline.lastTimestamp ⟨q :: rest⟩ := by
      simp [Timeline.lastTimestamp]
    have hlength : index + (p :: q :: rest).length = index + 1 + (q :: rest).length := by
      simp only [List.length_cons]
      omega
    have hpair : collect gap (closed, run.first, run.beginTime, run.bytes) ([p, q], index) =
        if q.timestamp - p.timestamp ≤ gap then
          pure (closed, run.first, run.beginTime, run.bytes + q.length)
        else pure (closed ++ [run.close], index + 1, q.timestamp, q.length) := by
      rw [collect, element_eq (x := p) rfl, element_eq (x := q) rfl, pure_bind, pure_bind,
        Segmentation.Run.close, hlatest, hstop]
    rw [hlast, hlength, windows, List.zipIdx_cons, List.foldlM_cons, hpair,
      Segmentation.continueRun, hlatest]
    split
    · rw [pure_bind]
      exact ih (run.push q) q (index + 1) rfl (by simp [hstop]) closed
    · rw [pure_bind, List.append_cons closed run.close (Segmentation.continueRun _ _ _), hstop]
      exact ih (.start (index + 1) q) q (index + 1) rfl rfl (closed ++ [run.close])

theorem segment_eq (gap : α) (timeline : Timeline α) :
    segment gap timeline = pure (Segmentation.segment gap timeline) := by
  obtain ⟨packets⟩ := timeline
  cases packets with
  | nil => rfl
  | cons p rest =>
    have hrun := foldlM_collect gap (.start 0 p) p 0 rfl rfl [] rest
    rw [Nat.zero_add] at hrun
    exact hrun

end Segmentation

section Periodicity
open BurstEnergy.Periodicity (Detector walkBack nearestWithin_lt walkBack_le)
variable {d : Detector α} {times : List α} {t target tolerance cycle : α} {anchor index : ℕ}

def nearerNeighbour (times : List α) (target : α) (split : ℕ) : Checked (Option ℕ) :=
  match Nat.ppred split, if split < times.length then some split else none with
  | some below, some above => do
    let x ← element times below
    let y ← element times above
    return some (if target - x ≤ y - target then below else above)
  | some below, none => return some below
  | none, some above => return some above
  | none, none => return none

def nearestWithin (times : List α) (target tolerance : α) : Checked (Option ℕ) := do
  let split ← cut (fun t => decide (t < target)) times
  match ← nearerNeighbour times target split with
  | some best =>
    let time ← element times best
    return if Scalar.magnitude (time - target) ≤ tolerance then some best else none
  | none => return none

/-- One more link of a chain: the samples there are, and the earliest of them. -/
def link (d : Detector α) (times : List α) (cycle : α) : ℕ × ℕ → Checked ((ℕ × ℕ) ⊕ Option ℕ)
  | (samples, current) =>
    if samples < d.minSamples then do
      let time ← element times current
      let earlier ← slice times 0 current
      match ← nearestWithin earlier (time - cycle) d.tolerance with
      | some found => return .inl (samples + 1, found)
      | none => return .inr none
    else return .inr (some current)

def chainStart (d : Detector α) (times : List α) (anchor : ℕ) (cycle : α) : Checked (Option ℕ) :=
  loop (link d times cycle) (1, anchor)

def searchAnchors (d : Detector α) (times : List α) (t : α) : ℕ → Checked (Option α)
  | 0 => return none
  | anchor + 1 => do
    let time ← element times anchor
    if t - time < d.minCycle then searchAnchors d times t anchor
    else if d.minCycle + d.tolerance < t - time then return none
    else
      match ← chainStart d times anchor (t - time) with
      | some first =>
        let earliest ← element times first
        return some ((t - earliest) / (d.minSamples : α))
      | none => searchAnchors d times t anchor

def cycleAt (d : Detector α) (times : List α) (index : ℕ) : Checked (Option α) := do
  let t ← element times index
  searchAnchors d times t index

def detect (d : Detector α) (times : List α) : Checked (Periodicity.Result α) := do
  let cycles ← (List.range times.length).mapM (cycleAt d times)
  return ⟨cycles, (Periodicity.shortest? (cycles.filterMap id)).getD 0⟩

/-- The neighbours of a place in a list are looked up where there are any. -/
theorem nearerNeighbour_eq {split : ℕ} (hle : split ≤ times.length) :
    nearerNeighbour times target split =
      pure (Periodicity.nearerNeighbour times target split) := by
  rw [nearerNeighbour, Periodicity.nearerNeighbour]
  cases split with
  | zero => cases times <;> simp
  | succ below =>
    have hbelow := List.getElem?_eq_getElem hle
    by_cases hlt : below + 1 < times.length
    · have habove := List.getElem?_eq_getElem hlt
      simp only [Nat.ppred_succ, if_pos hlt, element_eq hbelow, element_eq habove, pure_bind,
        Nat.add_one_ne_zero, if_false, Nat.add_sub_cancel, hbelow, habove, apply_ite some]
    · have habove := List.getElem?_eq_none (not_lt.mp hlt)
      simp only [Nat.ppred_succ, if_neg hlt, Nat.add_one_ne_zero, if_false, Nat.add_sub_cancel,
        hbelow, habove]

/-- The nearest time is looked up inside the list, in whatever order the times are. -/
theorem nearestWithin_eq (times : List α) (target tolerance : α) :
    nearestWithin times target tolerance =
      pure (Periodicity.nearestWithin times target tolerance) := by
  have hsplit := cutLength_le (fun t => decide (t < target)) times
  rw [nearestWithin, cut_eq, pure_bind, nearerNeighbour_eq hsplit, pure_bind,
    Periodicity.nearestWithin]
  cases hbest : Periodicity.nearerNeighbour times target
      (cutLength (fun t => decide (t < target)) times) with
  | none => rfl
  | some best =>
    have htime := List.getElem?_eq_getElem (Periodicity.nearerNeighbour_lt hsplit hbest)
    simp only [element_eq htime, pure_bind, Option.bind_eq_bind, Option.bind_some, htime]

/-- Walking back along a chain leads to earlier positions only, so it ends before the start of the
list however many samples are asked for. -/
theorem chainStart_eq (ha : anchor < times.length) :
    chainStart d times anchor cycle = pure (Periodicity.chainStart d times anchor cycle) := by
  -- The position falls with every link; the number of samples may be out of reach.
  refine loop_eq (fun s => s.2 < times.length) Prod.snd
    (fun s => walkBack times cycle d.tolerance (d.minSamples - s.1) s.2) ?_ ha
  rintro ⟨samples, current⟩ hcurrent
  dsimp only at hcurrent ⊢
  have htime := List.getElem?_eq_getElem hcurrent
  rw [link]
  split
  · next hsamples =>
    obtain ⟨links, hlinks⟩ : ∃ links, d.minSamples - samples = links + 1 :=
      ⟨d.minSamples - (samples + 1), by omega⟩
    have hnext : d.minSamples - (samples + 1) = links := by omega
    rw [element_eq htime, slice_zero_eq hcurrent.le, pure_bind, pure_bind, nearestWithin_eq,
      pure_bind, hlinks, walkBack, htime, Option.bind_eq_bind, Option.bind_some]
    cases hfound : Periodicity.nearestWithin (times.take current) (times[current] - cycle)
        d.tolerance with
    | none => exact .inl rfl
    | some found =>
      have hlt : found < current := by
        have hlength := nearestWithin_lt hfound
        rw [List.length_take] at hlength
        omega
      exact .inr ⟨(samples + 1, found), rfl, hlt.trans hcurrent, hlt, by rw [hnext]; rfl⟩
  · next hsamples =>
    rw [Nat.sub_eq_zero_of_le (not_lt.mp hsamples)]
    exact .inl rfl

theorem searchAnchors_eq {anchors : ℕ} (ha : anchors ≤ times.length) :
    searchAnchors d times t anchors = pure (Periodicity.searchAnchors d times t anchors) := by
  induction anchors with
  | zero => rfl
  | succ anchor ih =>
    have htime := List.getElem?_eq_getElem ha
    have hrest := ih (Nat.le_of_succ_le ha)
    simp only [searchAnchors, Periodicity.searchAnchors, element_eq htime, htime, pure_bind,
      chainStart_eq ha, Option.bind_eq_bind, Option.bind_some]
    split
    · exact hrest
    · split
      · rfl
      · cases hfirst : Periodicity.chainStart d times anchor (t - times[anchor]) with
        | none => exact hrest
        | some first =>
          have hlt : first < times.length := (walkBack_le hfirst).trans_lt ha
          have hearliest := List.getElem?_eq_getElem hlt
          simp only [element_eq hearliest, hearliest, pure_bind, Option.bind_some, Option.pure_def]

theorem detect_eq (d : Detector α) (times : List α) :
    detect d times = pure (Periodicity.detect d times) := by
  have hcycles : ∀ index ∈ List.range times.length,
      cycleAt d times index = pure (Periodicity.cycleAt d times index) := by
    intro index hindex
    have hlt := List.mem_range.mp hindex
    have htime := List.getElem?_eq_getElem hlt
    rw [cycleAt, Periodicity.cycleAt, element_eq htime, htime, pure_bind, searchAnchors_eq hlt.le]
    rfl
  rw [detect, mapM_eq hcycles, pure_bind]
  rfl

end Periodicity

section Classification
open BurstEnergy.Classification (History Result)
variable {thresholds : Profile.Thresholds α} {timeline : Timeline α} {markers : Markers α}

def followsEvent (events : List α) (t window : α) : Checked Bool := do
  let count ← cut (fun e => decide (e ≤ t)) events
  if 0 < count then
    let last ← element events (← minus count 1)
    return decide (t - last ≤ window)
  else return false

def anyEventIn (events : List α) (start stop : α) : Checked Bool := do
  let first ← cut (fun e => decide (e < start)) events
  if first < events.length then
    let event ← element events first
    return decide (event ≤ stop)
  else return false

def members (burst : Burst α) (timeline : Timeline α) : Checked (List (Packet α)) :=
  if burst.packets.first ≤ burst.packets.stop ∧ burst.packets.stop ≤ timeline.packets.length then
    slice timeline.packets burst.packets.first burst.packets.stop
  else return []

def rotates (t : Profile.Thresholds α) (markers : Markers α) (burst : Burst α)
    (history : History α) : Checked Bool :=
  if history.rotationBurstTime.isNone then
    followsEvent markers.screenRotations burst.beginTime t.screenRotationWindow
  else return false

def categorize (t : Profile.Thresholds α) (markers : Markers α) (burst : Burst α)
    (members : List (Packet α)) (cycle : Option α) (history : History α) : Checked Category := do
  if ← rotates t markers burst history then return .screenRotation
  if !members.isEmpty && members.all (·.controlOnly) then return .tcpProtocolOnly
  if ← anyEventIn markers.userInputs (burst.beginTime - t.userInputWindow) burst.endTime then
    return .userInput
  if cycle.isSome then return .periodic
  if t.longBurstDuration ≤ burst.duration ∨ t.largeBurstSize ≤ burst.bytes then return .longBurst
  return .other

def classifyFrom (t : Profile.Thresholds α) (timeline : Timeline α) (markers : Markers α)
    (periodicity : Periodicity.Result α) (index : ℕ) (history : History α) :
    List (Burst α) → Checked (List (Burst α) × History α)
  | [] => return ([], history)
  | burst :: rest => do
    let packets ← members burst timeline
    let category ← categorize t markers burst packets (periodicity.cycle index) history
    let (classified, final) ← classifyFrom t timeline markers periodicity (index + 1)
      (history.advance category burst.beginTime) rest
    return ({ burst with category := category } :: classified, final)

def classify (t : Profile.Thresholds α) (bursts : List (Burst α)) (timeline : Timeline α)
    (markers : Markers α) : Checked (Result α) := do
  let periodicity ← detect (.ofThresholds t) (bursts.map (·.beginTime))
  let (classified, history) ← classifyFrom t timeline markers periodicity 0 .start bursts
  return ⟨classified, periodicity, history⟩

theorem followsEvent_eq (events : List α) (t window : α) :
    followsEvent events t window = pure (Classification.followsEvent events t window) := by
  have hle := cutLength_le (fun e => decide (e ≤ t)) events
  rw [followsEvent, cut_eq, pure_bind, Classification.followsEvent]
  cases hcount : cutLength (fun e => decide (e ≤ t)) events with
  | zero => rfl
  | succ last =>
    have hlast := List.getElem?_eq_getElem (l := events) (show last < events.length by omega)
    have hpos : 1 ≤ last + 1 := Nat.succ_pos last
    rw [if_pos (Nat.succ_pos last), minus_eq hpos, pure_bind, Nat.add_sub_cancel,
      element_eq hlast, pure_bind]
    simp only [hlast, Option.any_some]

theorem anyEventIn_eq (events : List α) (start stop : α) :
    anyEventIn events start stop = pure (Classification.anyEventIn events start stop) := by
  rw [anyEventIn, cut_eq, pure_bind, Classification.anyEventIn]
  split
  · next hlt =>
    have hfirst := List.getElem?_eq_getElem hlt
    rw [element_eq hfirst, pure_bind, hfirst]
    rfl
  · next hge =>
    rw [List.getElem?_eq_none (not_lt.mp hge)]
    rfl

omit [Scalar α] in
theorem members_eq (burst : Burst α) (timeline : Timeline α) :
    members burst timeline = pure (burst.members timeline) := by
  rw [members, Burst.members, PacketRange.slice]
  split
  · next hinside => exact slice_eq hinside.1 hinside.2
  · rfl

theorem categorize_eq (t : Profile.Thresholds α) (markers : Markers α) (burst : Burst α)
    (members : List (Packet α)) (cycle : Option α) (history : History α) :
    categorize t markers burst members cycle history =
      pure (Classification.categorize t markers burst members cycle history) := by
  have hrotates : rotates t markers burst history = pure (history.rotationBurstTime.isNone &&
      Classification.followsEvent markers.screenRotations burst.beginTime
        t.screenRotationWindow) := by
    rw [rotates, followsEvent_eq]
    cases history.rotationBurstTime.isNone <;> rfl
  rw [categorize, hrotates, pure_bind, Classification.categorize, anyEventIn_eq]
  simp only [pure_bind, apply_ite pure]

theorem classifyFrom_eq (t : Profile.Thresholds α) (timeline : Timeline α) (markers : Markers α)
    (periodicity : Periodicity.Result α) (index : ℕ) (history : History α)
    (bursts : List (Burst α)) (hlength : periodicity.cycles.length = index + bursts.length) :
    classifyFrom t timeline markers periodicity index history bursts =
      pure (Classification.classifyFrom t timeline markers history
        (bursts.zip (periodicity.cycles.drop index))) := by
  induction bursts generalizing index history with
  | nil => rfl
  | cons burst rest ih =>
    have hlt : index < periodicity.cycles.length := by
      rw [hlength, List.length_cons]
      omega
    have hcycle : periodicity.cycle index = periodicity.cycles[index] := by
      rw [Periodicity.Result.cycle, List.getElem?_eq_getElem hlt]
      rfl
    rw [classifyFrom, members_eq, pure_bind, categorize_eq, pure_bind, hcycle,
      List.drop_eq_getElem_cons hlt, List.zip_cons_cons, Classification.classifyFrom,
      ih (index + 1) _ (by rw [hlength, List.length_cons]; omega), pure_bind]

theorem classify_eq (t : Profile.Thresholds α) (bursts : List (Burst α)) (timeline : Timeline α)
    (markers : Markers α) :
    classify t bursts timeline markers =
      pure (Classification.classify t bursts timeline markers) := by
  rw [classify, detect_eq, pure_bind, classifyFrom_eq _ _ _ _ _ _ _ (by simp), pure_bind]
  rfl

end Classification

section Cluster

/-- Move the far end of the window from position `start` on by one, if the next time is within. -/
def advance (times : List α) (window : α) (start last : ℕ) : Checked (ℕ ⊕ ℕ) :=
  if last + 1 < times.length then do
    let next ← element times (last + 1)
    let first ← element times start
    return if next - first ≤ window then .inl (last + 1) else .inr last
  else return .inr last

/-- Set the marks from position `first` to `last`. -/
def mark (first last : ℕ) (marks : List Bool) : Checked (List Bool) := do
  let _ ← slice marks first (last + 1)
  return marks.mapIdx fun i marked => marked || decide (first ≤ i ∧ i ≤ last)

/-- Mark the times of the window from a position on, if they are enough. The far end found last and
the marks are handed on. -/
def slide (times : List α) (window : α) (size : ℕ) :
    ℕ × List Bool → ℕ → Checked (ℕ × List Bool)
  | (last, marks), start => do
    let last ← loop (advance times window start) (max last start)
    let count ← minus (last + 1) start
    if size ≤ count then return (last, ← mark start last marks)
    else return (last, marks)

def tightlyCoupledCount (bursts : List (Burst α)) (window : α) (size : ℕ) : Checked ℕ := do
  let times := (Burst.inCategory .tcpProtocolOnly bursts).map (·.beginTime)
  let (_, marks) ← (List.range times.length).foldlM (slide times window size)
    (0, List.replicate times.length false)
  return marks.countP id

variable {times : List α} {window time : α} {size start last : ℕ} {marks : List Bool}

theorem loop_advance (hstart : times[start]? = some time) :
    loop (advance times window start) last = pure (Cluster.reach times window time last) := by
  refine loop_eq (fun _ => True) (times.length - ·) (Cluster.reach times window time) ?_ trivial
  intro last _
  rw [advance, Cluster.reach]
  split
  · next hlt =>
    rw [element_eq (List.getElem?_eq_getElem hlt), element_eq hstart, pure_bind, pure_bind]
    split
    · exact .inr ⟨last + 1, rfl, trivial, by omega, rfl⟩
    · exact .inl rfl
  · exact .inl rfl

/-- The marks of the positions that windows cover are set. -/
def cover (windows : List (ℕ × ℕ)) (marks : List Bool) : List Bool :=
  marks.mapIdx fun i marked => marked || Cluster.covered windows i

@[simp] theorem length_cover (windows : List (ℕ × ℕ)) (marks : List Bool) :
    (cover windows marks).length = marks.length := List.length_mapIdx

theorem cover_nil (marks : List Bool) : cover [] marks = marks := by
  simp [cover, Cluster.covered, List.ext_getElem_iff]

theorem cover_cons (w : ℕ × ℕ) (windows : List (ℕ × ℕ)) (marks : List Bool) :
    cover (w :: windows) marks = cover windows (cover [w] marks) := by
  simp only [cover, Cluster.covered, List.mapIdx_mapIdx, List.any_cons, List.any_nil, Bool.or_false,
    Function.comp_def, Bool.or_assoc]

theorem mark_eq (hle : start ≤ last + 1) (hlt : last < marks.length) :
    mark start last marks = pure (cover [(start, last)] marks) := by
  rw [mark, slice_eq hle hlt, pure_bind]
  simp only [cover, Cluster.covered, List.any_cons, List.any_nil, Bool.or_false]

/-- The far end of a window is inside the list, and its start has not passed it. -/
theorem slide_eq (hstart : times[start]? = some time) (hlast : last < times.length)
    (hmarks : marks.length = times.length) :
    slide times window size (last, marks) start =
      pure (Cluster.reach times window time (max last start),
        if size ≤ Cluster.reach times window time (max last start) + 1 - start then
          cover [(start, Cluster.reach times window time (max last start))] marks
        else marks) := by
  have hlt := (List.getElem?_eq_some_iff.mp hstart).choose
  have hstop := Cluster.reach_lt times window time (max_lt hlast hlt)
  have hle := (le_max_right last start).trans (Cluster.le_reach times window time _)
  rw [slide, loop_advance hstart, pure_bind, minus_eq (Nat.le_succ_of_le hle), pure_bind,
    mark_eq (Nat.le_succ_of_le hle) (hmarks ▸ hstop), pure_bind]
  split <;> rfl

theorem foldlM_slide {rest : List α} (hrest : rest = times.drop start)
    (hlast : last ≤ times.length - 1) (hmarks : marks.length = times.length) :
    ∃ stop, (List.range' start rest.length).foldlM (slide times window size) (last, marks) =
      pure (stop, cover (Cluster.windowsFrom times window size start last rest) marks) := by
  induction rest generalizing start last marks with
  | nil => exact ⟨last, by rw [Cluster.windowsFrom, cover_nil]; rfl⟩
  | cons time rest ih =>
    have hstart : times[start]? = some time := by
      rw [← List.head?_drop, ← hrest, List.head?_cons]
    have hlt := (List.getElem?_eq_some_iff.mp hstart).choose
    have hin : last < times.length := by omega
    have hstop := Cluster.reach_lt times window time (max_lt hin hlt)
    have hnext : rest = times.drop (start + 1) := by
      rw [← List.tail_drop, ← hrest, List.tail_cons]
    rw [List.length_cons, List.range'_succ, List.foldlM_cons, slide_eq hstart hin hmarks,
      pure_bind, Cluster.windowsFrom]
    split
    · rw [cover_cons (start, _) (Cluster.windowsFrom _ _ _ _ _ _)]
      exact ih hnext (by omega) ((length_cover _ _).trans hmarks)
    · exact ih hnext (by omega) hmarks

/-- Marks that were all clear count the positions covered. -/
theorem countP_cover (windows : List (ℕ × ℕ)) (length : ℕ) :
    (cover windows (List.replicate length false)).countP id =
      (List.range length).countP (Cluster.covered windows) := by
  have hmarked : ∀ (i : ℕ) (marked : Bool),
      (cover windows (List.replicate length false))[i]? = some marked →
        Cluster.covered windows i = id marked := by
    intro i marked hi
    rw [cover, List.getElem?_mapIdx, Option.map_eq_some_iff] at hi
    obtain ⟨before, hbefore, rfl⟩ := hi
    rw [List.eq_of_mem_replicate (List.mem_of_getElem? hbefore), Bool.false_or, id]
  rw [← Cluster.countP_range hmarked, length_cover, List.length_replicate]

theorem tightlyCoupledCount_eq (bursts : List (Burst α)) (window : α) (size : ℕ) :
    tightlyCoupledCount bursts window size =
      pure (Cluster.tightlyCoupledCount bursts window size) := by
  rw [tightlyCoupledCount, Cluster.tightlyCoupledCount, Cluster.clusteredCount]
  generalize (Burst.inCategory .tcpProtocolOnly bursts).map (·.beginTime) = times
  obtain ⟨stop, hslides⟩ : ∃ stop, (List.range' 0 times.length).foldlM (slide times window size)
      (0, List.replicate times.length false) = pure (stop, _) :=
    foldlM_slide List.drop_zero.symm (Nat.zero_le _) List.length_replicate
  rw [← countP_cover, List.range_eq_range', hslides, pure_bind]

end Cluster
end BurstEnergy.Checked
