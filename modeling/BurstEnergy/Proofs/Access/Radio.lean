import BurstEnergy.Proofs.Access.Bursts
import BurstEnergy.Radio.Statistics
import BurstEnergy.Radio.Simulation

/-!
# The radio engine with checked accesses

Packets by time, positions on a ladder, simulation, statistics and the charges of bursts, by
positions. None of them relies on an order: a slice is taken between two cuts only when the first
is the lower one, a rung is read where a position was found on it, and the charges are as many as
the bursts. With the burst engine, `accesses_stay_in_bounds` holds for any numbers at all.
-/
namespace BurstEnergy.Checked
open Traffic (Timeline)
open Radio (Ladder Position StateInterval StateTotals Statistics)
variable {α : Type} [Scalar α] {model : EnergyModel α} {timeline : Timeline α} {duration : α}

def between (timeline : Timeline α) (start stop : α) : Checked (List (Traffic.Packet α)) := do
  let low ← cut (fun p => decide (p.timestamp < start)) timeline.packets
  let high ← cut (fun p => decide (p.timestamp < stop)) timeline.packets
  if high ≤ low then return [] else slice timeline.packets low high

theorem between_eq (timeline : Timeline α) (start stop : α) :
    between timeline start stop = pure (timeline.between start stop) := by
  have hhigh := cutLength_le (fun p => decide (p.timestamp < stop)) timeline.packets
  rw [between, cut_eq, cut_eq, pure_bind, pure_bind, Timeline.between]
  split
  · next hle => rw [Nat.sub_eq_zero_of_le hle, List.take_zero]
  · next hlt => exact slice_eq (not_le.mp hlt).le hhigh

section Simulation
variable {ladder : Ladder α} {released time : α}

/-- Try the rung at a stage, which began at `since`. -/
def descend (ladder : Ladder α) (time : α) : ℕ × α → Checked ((ℕ × α) ⊕ Position α)
  | (stage, since) =>
    if stage < ladder.rungs.length then do
      let rung ← element ladder.rungs stage
      return if time ≤ since + rung.timer then .inr (.rung stage since)
        else .inl (stage + 1, since + rung.timer)
    else return .inr (.idle since)

def position (ladder : Ladder α) (released time : α) : Checked (Position α) :=
  loop (descend ladder time) (0, released)

/-- The tail intervals of the rungs before stage `upto`. -/
def passed (ladder : Ladder α) (released : α) (upto : ℕ) : Checked (List (StateInterval α)) := do
  let rungs ← slice ladder.rungs 0 upto
  return Ladder.passed released rungs

def wakeAfter (ladder : Ladder α) (released beginTime : α) : Checked (List (StateInterval α)) := do
  match ← position ladder released beginTime with
  | .rung stage since =>
    let walked ← passed ladder released stage
    let rung ← element ladder.rungs stage
    return walked ++ Ladder.resume rung.state true rung.promotion since beginTime
  | .idle since =>
    let walked ← passed ladder released ladder.rungs.length
    return walked ++ Ladder.resume ladder.idle false ladder.idlePromotion since beginTime

def planAfter (ladder : Ladder α) (duration released : α) :
    List (Burst α) → Checked (List (StateInterval α))
  | [] => return ladder.settle released duration
  | burst :: rest => do
    let waking ← wakeAfter ladder released burst.beginTime
    return waking ++ ladder.transfer burst :: (← planAfter ladder duration burst.endTime rest)

def plan (ladder : Ladder α) (duration : α) : List (Burst α) → Checked (List (StateInterval α))
  | [] => return []
  | burst :: rest => do
    let waking := ladder.wakeFirst burst.beginTime
    return waking ++ ladder.transfer burst :: (← planAfter ladder duration burst.endTime rest)

def simulate (ladder : Ladder α) (bursts : List (Burst α)) (duration : α) :
    Checked (List (StateInterval α)) := do
  let planned ← plan ladder duration bursts
  return (Ladder.padLatest ladder.idle duration (planned.foldl StateInterval.extend [])).reverse

theorem position_eq (ladder : Ladder α) (released time : α) :
    position ladder released time = pure (ladder.position released time) := by
  -- What is left to try are the rungs from the stage on.
  refine loop_eq (fun _ => True) (fun s : ℕ × α => ladder.rungs.length - s.1)
    (fun s => Ladder.positionFrom s.1 s.2 time (ladder.rungs.drop s.1)) ?_ trivial
  rintro ⟨stage, since⟩ -
  rw [descend]
  split
  · next hlt =>
    rw [element_eq (List.getElem?_eq_getElem hlt), pure_bind, List.drop_eq_getElem_cons hlt,
      Ladder.positionFrom]
    split
    · exact .inl rfl
    · exact .inr ⟨_, rfl, trivial, by dsimp only; omega, rfl⟩
  · next hge =>
    rw [List.drop_eq_nil_of_le (not_lt.mp hge)]
    exact .inl rfl

theorem passed_eq {upto : ℕ} (hle : upto ≤ ladder.rungs.length) :
    passed ladder released upto = pure (Ladder.passed released (ladder.rungs.take upto)) := by
  rw [passed, slice_zero_eq hle, pure_bind]

/-- A position on a rung names a rung there is. -/
theorem wakeAfter_eq (ladder : Ladder α) (released beginTime : α) :
    wakeAfter ladder released beginTime = pure (ladder.wakeAfter released beginTime) := by
  rw [wakeAfter, position_eq, pure_bind, Ladder.wakeAfter]
  cases hposition : ladder.position released beginTime with
  | rung stage since =>
    have hlt := Ladder.stage_lt_of_position hposition
    have hrung := List.getElem?_eq_getElem hlt
    simp only [passed_eq hlt.le, element_eq hrung, hrung, pure_bind, Option.toList_some,
      List.flatMap_singleton]
  | idle since => simp only [passed_eq le_rfl, pure_bind, List.take_length]

theorem planAfter_eq (ladder : Ladder α) (duration released : α) (bursts : List (Burst α)) :
    planAfter ladder duration released bursts =
      pure (ladder.planAfter duration released bursts) := by
  induction bursts generalizing released with
  | nil => rfl
  | cons burst rest ih => rw [planAfter, wakeAfter_eq, ih, pure_bind, pure_bind, Ladder.planAfter]

theorem plan_eq (ladder : Ladder α) (duration : α) (bursts : List (Burst α)) :
    plan ladder duration bursts = pure (ladder.plan duration bursts) := by
  cases bursts with
  | nil => rfl
  | cons burst rest => rw [plan, planAfter_eq, pure_bind, Ladder.plan]

theorem simulate_eq (ladder : Ladder α) (bursts : List (Burst α)) (duration : α) :
    simulate ladder bursts duration = pure (ladder.simulate bursts duration) := by
  rw [simulate, plan_eq, pure_bind, Ladder.simulate]

end Simulation

section Reduction

def cost (model : EnergyModel α) (timeline : Timeline α) (i : StateInterval α) : Checked α := do
  let packets ← between timeline i.start i.stop
  return model i.start i.stop i.state packets

def visit (i : StateInterval α) (energy : α) (row : StateTotals α) : StateTotals α :=
  { row with
    seconds := row.seconds + i.duration
    energy := row.energy + energy
    tailSeconds := if i.tail then row.tailSeconds + i.duration else row.tailSeconds
    intervals := row.intervals + 1 }

/-- Book an interval on the row of its state, if there is one, and on the total energy. -/
def book (model : EnergyModel α) (timeline : Timeline α) :
    List (StateTotals α) × α → StateInterval α → Checked (List (StateTotals α) × α)
  | (rows, total), i =>
    if rows.any (·.state = i.state) then do
      let energy ← cost model timeline i
      -- A family lists no state twice, so this changes one row.
      return (rows.map fun row => if row.state = i.state then visit i energy row else row,
        total + energy)
    else return (rows, total)

/-- The statistics over rows that are complete, and the total energy. -/
def summarize (ladder : Ladder α) (duration : α) (rows : List (StateTotals α)) (total : α) :
    Statistics α :=
  let active := StateTotals.lookup rows ladder.active
  let transfer := active.seconds - active.tailSeconds
  let tail :=
    match ladder.firstTail with
    | some state => (StateTotals.lookup rows state).tailSeconds
    | none => 0
  { family := ladder.family
    duration := duration
    states := rows
    totalEnergy := total
    tailRatio := Scalar.share tail (tail + transfer)
    promotionRatio := Scalar.share (StateTotals.promotionSeconds rows) active.seconds
    familyRatios := .ofRows ladder.family rows }

def reduce (ladder : Ladder α) (model : EnergyModel α) (intervals : List (StateInterval α))
    (timeline : Timeline α) (duration : α) : Checked (Statistics α) := do
  let (rows, total) ← intervals.foldlM (book model timeline)
    (ladder.family.states.map StateTotals.empty, 0)
  let rows := rows.map fun row => { row with ratio := Scalar.share row.seconds duration }
  return summarize ladder duration rows total

/-- The row of a state after some intervals, its share of the trace not yet known. -/
def rowAfter (model : EnergyModel α) (timeline : Timeline α) (seen : List (StateInterval α))
    (state : Radio.State) : StateTotals α :=
  { StateTotals.ofIntervals model timeline 0 seen state with ratio := 0 }

/-- The rows of some states after some intervals, and the energy of the intervals in them. -/
def bookedAfter (model : EnergyModel α) (timeline : Timeline α) (states : List Radio.State)
    (seen : List (StateInterval α)) : List (StateTotals α) × α :=
  (states.map (rowAfter model timeline seen),
    Scalar.tally ((seen.filter fun i => states.contains i.state).map (·.cost model timeline)))

theorem cost_eq (model : EnergyModel α) (timeline : Timeline α) (i : StateInterval α) :
    cost model timeline i = pure (i.cost model timeline) := by
  rw [cost, between_eq, pure_bind, StateInterval.cost]

theorem rowAfter_append (seen : List (StateInterval α)) (i : StateInterval α)
    (state : Radio.State) :
    rowAfter model timeline (seen ++ [i]) state =
      if state = i.state then
        visit i (i.cost model timeline) (rowAfter model timeline seen state)
      else rowAfter model timeline seen state := by
  by_cases hstate : i.state = state
  · cases htail : i.tail <;>
      simp [rowAfter, StateTotals.ofIntervals, visit, hstate, htail, List.filter_append]
  · have hne : ¬ state = i.state := fun h => hstate h.symm
    simp [rowAfter, StateTotals.ofIntervals, hstate, hne, List.filter_append]

theorem book_eq (states : List Radio.State) (seen : List (StateInterval α)) (i : StateInterval α) :
    book model timeline (bookedAfter model timeline states seen) i =
      pure (bookedAfter model timeline states (seen ++ [i])) := by
  have hany : (states.map (rowAfter model timeline seen)).any (·.state = i.state) =
      states.contains i.state := by
    rw [Bool.eq_iff_iff, List.any_map, List.any_eq_true, List.contains_iff_mem]
    simp [rowAfter, StateTotals.ofIntervals]
  rw [bookedAfter, book, hany, bookedAfter, List.filter_append, List.filter_singleton]
  split
  · next hknown =>
    rw [cost_eq, pure_bind, hknown, cond_true, List.map_append, List.map_singleton,
      Scalar.tally_append_singleton, List.map_map]
    refine congrArg pure (Prod.ext (List.map_congr_left fun state _ => ?_) rfl)
    rw [Function.comp_apply, rowAfter_append]
    rfl
  · next hunknown =>
    have hrows : states.map (rowAfter model timeline (seen ++ [i])) =
        states.map (rowAfter model timeline seen) :=
      List.map_congr_left fun state hstate => by
        have hne : state ≠ i.state := fun h => hunknown (List.contains_iff_mem.mpr (h ▸ hstate))
        rw [rowAfter_append, if_neg hne]
    rw [Bool.eq_false_of_not_eq_true hunknown, cond_false, List.append_nil, hrows]

theorem foldlM_book (states : List Radio.State) (seen rest : List (StateInterval α)) :
    rest.foldlM (book model timeline) (bookedAfter model timeline states seen) =
      pure (bookedAfter model timeline states (seen ++ rest)) := by
  induction rest generalizing seen with
  | nil =>
    rw [List.append_nil]
    rfl
  | cons i rest ih => rw [List.foldlM_cons, book_eq, pure_bind, ih, List.append_cons seen i rest]

theorem reduce_eq (ladder : Ladder α) (model : EnergyModel α) (intervals : List (StateInterval α))
    (timeline : Timeline α) (duration : α) :
    reduce ladder model intervals timeline duration =
      pure (Statistics.reduce ladder model intervals timeline duration) := by
  -- Before the first interval the rows are the empty ones.
  have hbook : intervals.foldlM (book model timeline)
      (ladder.family.states.map StateTotals.empty, 0) =
        pure (bookedAfter model timeline ladder.family.states intervals) :=
    foldlM_book ladder.family.states [] intervals
  rw [reduce, hbook, pure_bind, bookedAfter]
  dsimp only
  rw [List.map_map]
  rfl

end Reduction

section Attribution
open Radio.Attribution (spans)
variable {intervals : List (StateInterval α)}

def chargeStart (intervals : List (StateInterval α)) (beginTime : α) : Checked α := do
  let before ← cut (fun i => decide (i.stop ≤ beginTime)) intervals
  match Nat.ppred before with
  | some last =>
    let i ← element intervals last
    return if Scalar.Agree i.stop beginTime ∧ i.state.isPromotion = true then i.start
      else beginTime
  | none => return beginTime

def spanEnergy (model : EnergyModel α) (intervals : List (StateInterval α)) (timeline : Timeline α)
    (start stop : α) : Checked α := do
  let first ← cut (fun i => decide (i.stop ≤ start)) intervals
  let later ← slice intervals first intervals.length
  let costs ← (later.takeWhile fun i => decide (i.start < stop)).mapM fun i =>
    cost model timeline
      { i with start := Scalar.larger i.start start, stop := Scalar.smaller i.stop stop }
  return Scalar.sum costs

/-- Charge the bursts from a position on, each up to the start of the next one's charge. -/
def chargeFrom (model : EnergyModel α) (intervals : List (StateInterval α)) (timeline : Timeline α)
    (duration : α) (starts : List α) (index : ℕ) : List (Burst α) → Checked (List (Burst α))
  | [] => return []
  | burst :: rest => do
    let start ← element starts index
    let energy ← spanEnergy model intervals timeline start (starts[index + 1]?.getD duration)
    let charged ← chargeFrom model intervals timeline duration starts (index + 1) rest
    return { burst with energy := energy } :: charged

def charge (model : EnergyModel α) (intervals : List (StateInterval α)) (timeline : Timeline α)
    (duration : α) (bursts : List (Burst α)) : Checked (List (Burst α)) := do
  let starts ← bursts.mapM fun b => chargeStart intervals b.beginTime
  chargeFrom model intervals timeline duration starts 0 bursts

theorem chargeStart_eq (intervals : List (StateInterval α)) (beginTime : α) :
    chargeStart intervals beginTime = pure (Radio.Attribution.chargeStart intervals beginTime) := by
  have hle := cutLength_le (fun i : StateInterval α => decide (i.stop ≤ beginTime)) intervals
  rw [chargeStart, cut_eq, pure_bind, Radio.Attribution.chargeStart]
  cases hcut : cutLength (fun i : StateInterval α => decide (i.stop ≤ beginTime)) intervals with
  | zero => rfl
  | succ last =>
    have hlast := List.getElem?_eq_getElem (l := intervals) (show last < intervals.length by omega)
    simp only [Nat.ppred_succ, element_eq hlast, hlast, pure_bind]

theorem spanEnergy_eq (model : EnergyModel α) (intervals : List (StateInterval α))
    (timeline : Timeline α) (start stop : α) :
    spanEnergy model intervals timeline start stop =
      pure (Radio.Attribution.spanEnergy model intervals timeline start stop) := by
  rw [spanEnergy, cut_eq, pure_bind, slice_length_eq (cutLength_le _ _), pure_bind,
    mapM_eq fun i _ => cost_eq model timeline _, pure_bind, Radio.Attribution.spanEnergy,
    Radio.Attribution.clipped, List.map_map]
  rfl

theorem chargeFrom_eq (starts : List α) (index : ℕ) (bursts : List (Burst α))
    (hlength : starts.length = index + bursts.length) :
    chargeFrom model intervals timeline duration starts index bursts =
      pure ((bursts.zip (spans duration (starts.drop index))).map fun (burst, start, stop) =>
        { burst with
          energy := Radio.Attribution.spanEnergy model intervals timeline start stop }) := by
  induction bursts generalizing index with
  | nil => rfl
  | cons burst rest ih =>
    have hlt : index < starts.length := by
      rw [hlength, List.length_cons]
      omega
    rw [chargeFrom, element_eq (List.getElem?_eq_getElem hlt), pure_bind, spanEnergy_eq, pure_bind,
      ih (index + 1) (by rw [hlength, List.length_cons]; omega), pure_bind,
      List.drop_eq_getElem_cons hlt, spans, List.zip_cons_cons, List.map_cons, List.head?_drop]

theorem charge_eq (model : EnergyModel α) (intervals : List (StateInterval α))
    (timeline : Timeline α) (duration : α) (bursts : List (Burst α)) :
    charge model intervals timeline duration bursts =
      pure (Radio.Attribution.charge model intervals timeline duration bursts) := by
  rw [charge, mapM_eq fun b _ => chargeStart_eq intervals b.beginTime, pure_bind,
    chargeFrom_eq _ 0 bursts (by simp), List.drop_zero, Radio.Attribution.charge]

end Attribution

/-- No engine reaches outside a list, and each of them ends, whatever the numbers, times and orders
of what it is given: with checked accesses it gives what it gives without. -/
theorem accesses_stay_in_bounds :
    (∀ (gap : α) (timeline : Timeline α),
      segment gap timeline = pure (Segmentation.segment gap timeline)) ∧
    (∀ (d : Periodicity.Detector α) (times : List α),
      detect d times = pure (Periodicity.detect d times)) ∧
    (∀ (t : Profile.Thresholds α) (bursts : List (Burst α)) (timeline : Timeline α)
      (markers : Traffic.Markers α),
      classify t bursts timeline markers =
        pure (Classification.classify t bursts timeline markers)) ∧
    (∀ (bursts : List (Burst α)) (window : α) (size : ℕ),
      tightlyCoupledCount bursts window size =
        pure (Cluster.tightlyCoupledCount bursts window size)) ∧
    (∀ (ladder : Ladder α) (released time : α),
      position ladder released time = pure (ladder.position released time)) ∧
    (∀ (ladder : Ladder α) (bursts : List (Burst α)) (duration : α),
      simulate ladder bursts duration = pure (ladder.simulate bursts duration)) ∧
    (∀ (ladder : Ladder α) (model : EnergyModel α) (intervals : List (StateInterval α))
      (timeline : Timeline α) (duration : α),
      reduce ladder model intervals timeline duration =
        pure (Statistics.reduce ladder model intervals timeline duration)) ∧
    (∀ (model : EnergyModel α) (intervals : List (StateInterval α)) (timeline : Timeline α)
      (duration : α) (bursts : List (Burst α)),
      charge model intervals timeline duration bursts =
        pure (Radio.Attribution.charge model intervals timeline duration bursts)) ∧
    (∀ (timeline : Timeline α) (start stop : α),
      between timeline start stop = pure (timeline.between start stop)) :=
  ⟨segment_eq, detect_eq, classify_eq, tightlyCoupledCount_eq, position_eq, simulate_eq, reduce_eq,
    charge_eq, between_eq⟩

end BurstEnergy.Checked
