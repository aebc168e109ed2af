import BurstEnergy.Burst.Classification
import BurstEnergy.Burst.Segmentation

/-!
# Figures and verdicts

What the classified bursts of a trace come to: clusters, totals, and verdicts on them.
-/

/-! ## Clusters of connection control

A cluster is a group of bursts of pure connection control that fit into one window of time.
`tightlyCoupledCount` slides a window over their begin times: for each start it moves the far end
as far as the window reaches, never back, and marks the covered bursts when there are enough.
-/
namespace BurstEnergy.Cluster
variable {α : Type} [Scalar α]

/-- Move the far end on while the next time is within the window from `start`. -/
def reach (times : List α) (window start : α) (last : Nat) : Nat :=
  if h : last + 1 < times.length then
    if times[last + 1] - start ≤ window then reach times window start (last + 1) else last
  else last
termination_by times.length - last

/-- The windows with enough bursts, each as its first and last position: `start` counts the times
already taken as the start of a window, and `last` is how far the previous window reached. -/
def windowsFrom (times : List α) (window : α) (size : Nat) (start last : Nat) :
    List α → List (Nat × Nat)
  | [] => []
  | time :: rest =>
    let last := reach times window time (max last start)
    let later := windowsFrom times window size (start + 1) last rest
    if size ≤ last + 1 - start then (start, last) :: later else later

/-- Some window covers the position. -/
def covered (windows : List (Nat × Nat)) (i : Nat) : Bool :=
  windows.any fun w => decide (w.1 ≤ i ∧ i ≤ w.2)

/-- The number of times in some window of `window` seconds that holds at least `size` of them. -/
def clusteredCount (times : List α) (window : α) (size : Nat) : Nat :=
  let windows := windowsFrom times window size 0 0 times
  (List.range times.length).countP (covered windows)

/-- The number of bursts of connection control that belong to a cluster. -/
def tightlyCoupledCount (bursts : List (Burst α)) (window : α) (size : Nat) : Nat :=
  clusteredCount ((Burst.inCategory .tcpProtocolOnly bursts).map (·.beginTime)) window size

theorem le_reach (times : List α) (window start : α) (last : Nat) :
    last ≤ reach times window start last := by
  fun_induction reach times window start last with
  | case1 last h hw ih => omega
  | case2 last h hw => exact Nat.le_refl _
  | case3 last h => exact Nat.le_refl _

theorem reach_lt (times : List α) (window start : α) {last : Nat} (hl : last < times.length) :
    reach times window start last < times.length := by
  fun_induction reach times window start last with
  | case1 last h hw ih => exact ih h
  | case2 last h hw => exact hl
  | case3 last h => exact hl

end BurstEnergy.Cluster

namespace BurstEnergy

/-! ## Burst collections

A collection is the classified bursts of a trace together with the figures that later rules ask
for: clusters, long bursts, the shortest cycle, the energy of all bursts, the longest run of
user-input bursts, and the burst due to a screen rotation.
-/

/-- Classified bursts and their figures. -/
structure Collection (α : Type) where
  bursts : List (Burst α)
  tightlyCoupledCount : Nat
  longBurstCount : Nat
  /-- The shortest cycle of any burst, zero when nothing repeats. -/
  minimumPeriodicRepeatTime : α
  totalEnergy : α
  /-- The length of the longest run of user-input bursts. -/
  userInputBurstCount : Nat
  screenRotationBurstTime : Option α
  deriving DecidableEq

namespace Collection
variable {α : Type} [Scalar α]

def countIn (category : Category) (bursts : List (Burst α)) : Nat :=
  (Burst.inCategory category bursts).length

def energyOfAll (bursts : List (Burst α)) : α := Scalar.sum (bursts.map (·.energy))

/-- The collection of classified bursts whose energies are known. -/
def assemble (t : Profile.Thresholds α) (classified : Classification.Result α) : Collection α where
  bursts := classified.bursts
  tightlyCoupledCount :=
    Cluster.tightlyCoupledCount classified.bursts t.tcpClusterWindow t.tcpClusterSize
  longBurstCount := countIn .longBurst classified.bursts
  minimumPeriodicRepeatTime := classified.periodicity.minimumRepeatTime
  totalEnergy := energyOfAll classified.bursts
  userInputBurstCount := classified.history.maxUserInputRun
  screenRotationBurstTime := classified.history.rotationBurstTime

def count (c : Collection α) (category : Category) : Nat := countIn category c.bursts

def energyOf (c : Collection α) (category : Category) : α :=
  energyOfAll (Burst.inCategory category c.bursts)

structure CategoryTotal (α : Type) where
  category : Category
  count : Nat
  energy : α
  deriving DecidableEq

/-- One line for each category, in the canonical order. -/
def summary (c : Collection α) : List (CategoryTotal α) :=
  Category.all.map fun category => ⟨category, c.count category, c.energyOf category⟩

end Collection

/-! ## Best practices

Verdicts on a finished collection and the figures behind them. Each verdict compares one figure
with a fixed limit.
-/

/-- Verdicts and figures derived from a collection. -/
structure Practices (α : Type) where
  tcpControlEnergy : α
  /-- That energy over the energy of all bursts. -/
  tcpControlEnergyRatio : α
  /-- When the costliest burst of connection control began, zero when none drew energy. -/
  largestTcpEnergyTime : α
  /-- When the longest burst began, zero when there is none. -/
  largestBurstTime : α
  screenRotationBurstTime : Option α
  userInputBurstCount : Nat
  connectionClosingPassed : Bool
  multipleTcpConnectionsPassed : Bool
  periodicTransferPassed : Bool
  screenRotationPassed : Bool
  prefetchingPassed : Bool
  wifiOffloadingPassed : Bool
  deriving DecidableEq

namespace Practices
variable {α : Type} [Scalar α]

/-- From this many clustered bursts of connection control on, connections are too many. -/
def multipleTcpConnectionsLimit : Nat := 4

/-- From this many user-input bursts in a row on, prefetching was missed. -/
def prefetchRunLimit : Nat := 5

/-- With more long bursts than this the transfer belongs on WiFi. -/
def wifiOffloadLongBurstLimit : Nat := 3

/-- From this share of the energy on, connections are closed too expensively. -/
def connectionClosingEnergyLimit : α := 0.05

/-- A figure and the begin time of the burst it belongs to. -/
structure Champion (α : Type) where
  figure : α
  beginTime : α
  deriving DecidableEq

/-- Keep the champion unless the challenger's figure is greater. -/
def Champion.meet (champion challenger : Champion α) : Champion α :=
  if champion.figure < challenger.figure then challenger else champion

/-- The first burst of greatest duration. -/
def longest? : List (Burst α) → Option (Champion α)
  | [] => none
  | burst :: rest =>
    some (rest.foldl (fun champion b => champion.meet ⟨b.duration, b.beginTime⟩)
      ⟨burst.duration, burst.beginTime⟩)

/-- The first burst of greatest energy, if that is above zero; else zero energy at time zero. -/
def costliest (bursts : List (Burst α)) : Champion α :=
  bursts.foldl (fun champion b => champion.meet ⟨b.energy, b.beginTime⟩) ⟨0, 0⟩

def evaluate (c : Collection α) : Practices α :=
  let control := Burst.inCategory .tcpProtocolOnly c.bursts
  let energy := Scalar.tally (control.map (·.energy))
  let ratio := Scalar.share energy c.totalEnergy
  { tcpControlEnergy := energy
    tcpControlEnergyRatio := ratio
    largestTcpEnergyTime := (costliest control).beginTime
    largestBurstTime := ((longest? c.bursts).map (·.beginTime)).getD 0
    screenRotationBurstTime := c.screenRotationBurstTime
    userInputBurstCount := c.userInputBurstCount
    connectionClosingPassed := decide (ratio < connectionClosingEnergyLimit)
    multipleTcpConnectionsPassed := decide (c.tightlyCoupledCount < multipleTcpConnectionsLimit)
    periodicTransferPassed := decide (Scalar.Agree c.minimumPeriodicRepeatTime 0)
    screenRotationPassed := c.screenRotationBurstTime.isNone
    prefetchingPassed := decide (c.userInputBurstCount < prefetchRunLimit)
    wifiOffloadingPassed := decide (c.longBurstCount ≤ wifiOffloadLongBurstLimit) }

def allPassed (p : Practices α) : Bool :=
  p.connectionClosingPassed && p.multipleTcpConnectionsPassed && p.periodicTransferPassed
    && p.screenRotationPassed && p.prefetchingPassed && p.wifiOffloadingPassed

end Practices

end BurstEnergy
