import BurstEnergy.Scalar
import BurstEnergy.StableSort

/-!
# States of a radio

Families and their power states, and the time that is spent in them.
-/
namespace BurstEnergy.Radio

/-! ## Radio families and power states

A device talks over one of three radio technologies. Each has a handful of power states: the
third-generation cellular radio knows IDLE, FACH, DCH and two promotions, LTE knows idle,
continuous reception, its tail, two sleep cycles and one promotion, and WiFi is active, in its
tail, or idle. Names are the texts shown to a person, codes the words used in documents.
-/

/-- A radio technology, fixed for the whole of one trace. -/
inductive Family where
  | cellular3G
  | cellularLte
  | wifi
  deriving DecidableEq, Repr

/-- A power state of some family. -/
inductive State where
  | idle
  | fach
  | dch
  | idleToDchPromotion
  | fachToDchPromotion
  | lteIdle
  | continuousReception
  | continuousReceptionTail
  | shortDrx
  | longDrx
  | idleToCrPromotion
  | wifiActive
  | wifiTail
  | wifiIdle
  deriving DecidableEq, Repr

namespace State

def all : List State :=
  [idle, fach, dch, idleToDchPromotion, fachToDchPromotion, lteIdle, continuousReception,
    continuousReceptionTail, shortDrx, longDrx, idleToCrPromotion, wifiActive, wifiTail, wifiIdle]

def rank (s : State) : Nat := all.idxOf s

def family : State → Family
  | idle | fach | dch | idleToDchPromotion | fachToDchPromotion => .cellular3G
  | lteIdle | continuousReception | continuousReceptionTail | shortDrx | longDrx
  | idleToCrPromotion => .cellularLte
  | wifiActive | wifiTail | wifiIdle => .wifi

/-- Spent waking the radio, before the traffic that woke it can flow. -/
def isPromotion : State → Bool
  | idleToDchPromotion | fachToDchPromotion | idleToCrPromotion => true
  | _ => false

/-- The lowest-power state of its family. -/
def isIdle : State → Bool
  | idle | lteIdle | wifiIdle => true
  | _ => false

def name : State → String
  | idle => "IDLE"
  | fach => "FACH"
  | dch => "DCH"
  | idleToDchPromotion => "IDLE->DCH"
  | fachToDchPromotion => "FACH->DCH"
  | lteIdle => "LTE IDLE"
  | continuousReception => "CR"
  | continuousReceptionTail => "CR TAIL"
  | shortDrx => "SHORT DRX"
  | longDrx => "LONG DRX"
  | idleToCrPromotion => "IDLE->CR"
  | wifiActive => "WIFI ACTIVE"
  | wifiTail => "WIFI TAIL"
  | wifiIdle => "WIFI IDLE"

def code : State → String
  | idle => "Idle"
  | fach => "Fach"
  | dch => "Dch"
  | idleToDchPromotion => "IdleToDchPromotion"
  | fachToDchPromotion => "FachToDchPromotion"
  | lteIdle => "LteIdle"
  | continuousReception => "ContinuousReception"
  | continuousReceptionTail => "ContinuousReceptionTail"
  | shortDrx => "ShortDrx"
  | longDrx => "LongDrx"
  | idleToCrPromotion => "IdleToCrPromotion"
  | wifiActive => "WifiActive"
  | wifiTail => "WifiTail"
  | wifiIdle => "WifiIdle"

def sort (states : List State) : List State :=
  stableSort (fun a b => decide (a.rank ≤ b.rank)) states

end State

namespace Family

def all : List Family := [cellular3G, cellularLte, wifi]

/-- The states of a family, the one of highest power first. -/
def states : Family → List State
  | cellular3G => [.dch, .idleToDchPromotion, .fachToDchPromotion, .fach, .idle]
  | cellularLte =>
    [.idleToCrPromotion, .continuousReception, .continuousReceptionTail, .shortDrx, .longDrx,
      .lteIdle]
  | wifi => [.wifiActive, .wifiTail, .wifiIdle]

/-- Where every simulation starts and where long silence ends. -/
def idleState : Family → State
  | cellular3G => .idle
  | cellularLte => .lteIdle
  | wifi => .wifiIdle

/-- The state held while traffic flows. -/
def activeState : Family → State
  | cellular3G => .dch
  | cellularLte => .continuousReception
  | wifi => .wifiActive

def name : Family → String
  | cellular3G => "3G"
  | cellularLte => "LTE"
  | wifi => "WiFi"

def code : Family → String
  | cellular3G => "Cellular3G"
  | cellularLte => "CellularLte"
  | wifi => "Wifi"

theorem mem_all (f : Family) : f ∈ all := by cases f <;> decide

theorem mem_states_iff (f : Family) (s : State) : s ∈ f.states ↔ s.family = f := by
  cases f <;> cases s <;> decide

theorem family_activeState (f : Family) : f.activeState.family = f := by cases f <;> rfl

theorem states_nodup (f : Family) : f.states.Nodup := by cases f <;> decide

end Family

/-! ## State intervals

An interval is time spent in one power state. Tail time is spent waiting for an inactivity timer
after traffic stopped. `coalesce` turns a list of planned intervals into the reported one: it
drops those without length and joins neighbours that continue each other.
-/
section Intervals
variable {α : Type} [Scalar α]

/-- Time from `start` to `stop` in one power state. -/
structure StateInterval (α : Type) where
  start : α
  stop : α
  state : State
  /-- Spent waiting for an inactivity timer. -/
  tail : Bool
  deriving DecidableEq

namespace StateInterval

def duration (i : StateInterval α) : α := i.stop - i.start

/-- `next` takes up where `i` ends, in the same state and for the same reason. -/
def Continues (i next : StateInterval α) : Prop :=
  i.state = next.state ∧ i.tail = next.tail ∧ Scalar.Agree i.stop next.start

instance (i next : StateInterval α) : Decidable (i.Continues next) :=
  inferInstanceAs (Decidable (_ ∧ _ ∧ _))

/-- Add an interval to a list kept latest first. One without length is dropped, and one that
continues the latest extends it. -/
def extend (latestFirst : List (StateInterval α)) (next : StateInterval α) :
    List (StateInterval α) :=
  if next.stop ≤ next.start then latestFirst
  else
    match latestFirst with
    | [] => [next]
    | latest :: earlier =>
      if latest.Continues next then { latest with stop := next.stop } :: earlier
      else next :: latest :: earlier

/-- The intervals of positive length in order, neighbours that continue each other joined. -/
def coalesce (planned : List (StateInterval α)) : List (StateInterval α) :=
  (planned.foldl extend []).reverse

@[simp] theorem coalesce_nil : coalesce ([] : List (StateInterval α)) = [] := rfl

@[simp] theorem extend_of_empty {latestFirst : List (StateInterval α)} {next : StateInterval α}
    (h : next.stop ≤ next.start) : extend latestFirst next = latestFirst := by
  simp [extend, h]

end StateInterval

end Intervals

end BurstEnergy.Radio
