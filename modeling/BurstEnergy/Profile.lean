import BurstEnergy.Error
import BurstEnergy.Radio.State
import BurstEnergy.Scalar
import BurstEnergy.Traffic

/-!
# Profiles

What is known of a device beforehand: the limits of the burst engine, the timers and powers of its
radio, and with them the energy of a span of radio time.
-/
namespace BurstEnergy.Profile

/-! ## Named fields of a record

The sections of a profile are records of measured values and counts. A `Field` names one entry of
such a record and says how to read and replace it; the list of all fields of a section, in the
order of its document form, drives checking, reading and writing alike.
-/

/-- How to read and replace one entry of a record: a measured value or a count. -/
inductive Access (ρ α : Type) where
  | real (get : ρ → α) (set : α → ρ → ρ)
  | count (get : ρ → Nat) (set : Nat → ρ → ρ)

/-- A named entry of a record. -/
structure Field (ρ α : Type) where
  name : String
  access : Access ρ α

namespace Field
variable {ρ α : Type}

def real (name : String) (get : ρ → α) (set : α → ρ → ρ) : Field ρ α := ⟨name, .real get set⟩

def count (name : String) (get : ρ → Nat) (set : Nat → ρ → ρ) : Field ρ α :=
  ⟨name, .count get set⟩

/-- The entry is the same in both records. -/
def Agrees (f : Field ρ α) (r s : ρ) : Prop :=
  match f.access with
  | .real get _ => get r = get s
  | .count get _ => get r = get s

/-- Copy an entry from one record to another. -/
def copy (f : Field ρ α) (source target : ρ) : ρ :=
  match f.access with
  | .real get set => set (get source) target
  | .count get set => set (get source) target

variable [Scalar α]

/-- Refuse values that are not finite or below zero. -/
def checkValue (name : String) (value : α) : Except (Error α) Unit :=
  if Scalar.isFinite value = false then .error (.invalidProfile name (.notFinite value))
  else if value < 0 then .error (.invalidProfile name (.negative value))
  else .ok ()

/-- Check a measured value; any count passes. -/
def check (f : Field ρ α) (record : ρ) : Except (Error α) Unit :=
  match f.access with
  | .real get _ => checkValue f.name (get record)
  | .count .. => .ok ()

def checkAll (fields : List (Field ρ α)) (record : ρ) : Except (Error α) Unit :=
  fields.forM fun f => f.check record

end Field

/-! ## Thresholds of the burst engine

Every limit that segmentation, classification and clustering consult, with its standard value and
the conditions a usable set of thresholds meets.
-/

/-- The limits of burst segmentation and classification. Durations are in seconds. -/
structure Thresholds (α : Type) where
  /-- The longest gap between packets of one burst; a gap of just this length is inside. -/
  burstGap : α
  /-- From this duration on a burst is long. -/
  longBurstDuration : α
  /-- From this many bytes on a burst is large. -/
  largeBurstSize : Nat
  /-- The shortest repeat cycle that counts as periodic. -/
  periodMinCycle : α
  /-- How far a periodic repeat may be off. -/
  periodCycleTolerance : α
  /-- The number of earlier repetitions that make a burst periodic. -/
  periodMinSamples : Nat
  /-- How long before a burst a user input still explains it. -/
  userInputWindow : α
  /-- How long after a screen rotation a burst is still due to it. -/
  screenRotationWindow : α
  /-- The window in which bursts of connection control form a cluster. -/
  tcpClusterWindow : α
  /-- The number of bursts of connection control that form a cluster. -/
  tcpClusterSize : Nat
  deriving DecidableEq

namespace Thresholds
variable {α : Type}

def fields : List (Field (Thresholds α) α) :=
  [.real "burst_gap" (·.burstGap) fun x t => { t with burstGap := x },
   .real "long_burst_duration" (·.longBurstDuration) fun x t => { t with longBurstDuration := x },
   .count "large_burst_size" (·.largeBurstSize) fun n t => { t with largeBurstSize := n },
   .real "period_min_cycle" (·.periodMinCycle) fun x t => { t with periodMinCycle := x },
   .real "period_cycle_tolerance" (·.periodCycleTolerance)
      fun x t => { t with periodCycleTolerance := x },
   .count "period_min_samples" (·.periodMinSamples) fun n t => { t with periodMinSamples := n },
   .real "user_input_window" (·.userInputWindow) fun x t => { t with userInputWindow := x },
   .real "screen_rotation_window" (·.screenRotationWindow)
      fun x t => { t with screenRotationWindow := x },
   .real "tcp_cluster_window" (·.tcpClusterWindow) fun x t => { t with tcpClusterWindow := x },
   .count "tcp_cluster_size" (·.tcpClusterSize) fun n t => { t with tcpClusterSize := n }]

variable [Scalar α]

def standard : Thresholds α where
  burstGap := 1.5
  longBurstDuration := 5.0
  largeBurstSize := 100000
  periodMinCycle := 10.0
  periodCycleTolerance := 1.0
  periodMinSamples := 3
  userInputWindow := 1.0
  screenRotationWindow := 0.5
  tcpClusterWindow := 60.0
  tcpClusterSize := 4

/-- Usable thresholds: no measured value is negative, the two sample counts are positive, and so
is the cluster window. -/
def validate (t : Thresholds α) : Except (Error α) Unit := do
  Field.checkAll fields t
  if t.periodMinSamples = 0 then .error (.invalidProfile "period_min_samples" .zeroCount)
  else if t.tcpClusterSize = 0 then .error (.invalidProfile "tcp_cluster_size" .zeroCount)
  else if Scalar.Agree t.tcpClusterWindow 0 then
    .error (.invalidProfile "tcp_cluster_window" .notPositive)
  else .ok ()

end Thresholds

/-! ## Radio timers and power constants

The part of a profile that depends on the radio family: how long each inactivity timer runs, how
long a promotion takes, and what each power state draws in watts. Where throughput matters, extra
watts are given for each megabit per second in either direction.
-/
section Radios
open Radio (State Family)

/-- Timers (seconds) and powers (watts) of a third-generation cellular radio. -/
structure UmtsRadio (α : Type) where
  dchTail : α
  fachTail : α
  idleToDchPromotion : α
  fachToDchPromotion : α
  powerDch : α
  powerFach : α
  powerIdle : α
  powerIdleToDch : α
  powerFachToDch : α
  deriving DecidableEq

/-- Timers (seconds) and powers (watts) of an LTE radio. -/
structure LteRadio (α : Type) where
  crTail : α
  shortDrx : α
  longDrx : α
  promotion : α
  powerPromotion : α
  powerCr : α
  alphaUp : α
  alphaDown : α
  powerCrTail : α
  powerShortDrx : α
  powerLongDrx : α
  powerIdle : α
  deriving DecidableEq

/-- Timer (seconds) and powers (watts) of a WiFi radio. -/
structure WifiRadio (α : Type) where
  wifiTail : α
  powerActive : α
  alphaUp : α
  alphaDown : α
  powerTail : α
  powerIdle : α
  deriving DecidableEq

variable {α : Type}

namespace UmtsRadio

def fields : List (Field (UmtsRadio α) α) :=
  [.real "dch_tail" (·.dchTail) fun x r => { r with dchTail := x },
   .real "fach_tail" (·.fachTail) fun x r => { r with fachTail := x },
   .real "idle_to_dch_promotion" (·.idleToDchPromotion)
      fun x r => { r with idleToDchPromotion := x },
   .real "fach_to_dch_promotion" (·.fachToDchPromotion)
      fun x r => { r with fachToDchPromotion := x },
   .real "power_dch" (·.powerDch) fun x r => { r with powerDch := x },
   .real "power_fach" (·.powerFach) fun x r => { r with powerFach := x },
   .real "power_idle" (·.powerIdle) fun x r => { r with powerIdle := x },
   .real "power_idle_to_dch" (·.powerIdleToDch) fun x r => { r with powerIdleToDch := x },
   .real "power_fach_to_dch" (·.powerFachToDch) fun x r => { r with powerFachToDch := x }]

def standard [Scalar α] : UmtsRadio α where
  dchTail := 5.0
  fachTail := 12.0
  idleToDchPromotion := 2.0
  fachToDchPromotion := 1.5
  powerDch := 0.8
  powerFach := 0.46
  powerIdle := 0
  powerIdleToDch := 0.55
  powerFachToDch := 0.46

end UmtsRadio

namespace LteRadio

def fields : List (Field (LteRadio α) α) :=
  [.real "cr_tail" (·.crTail) fun x r => { r with crTail := x },
   .real "short_drx" (·.shortDrx) fun x r => { r with shortDrx := x },
   .real "long_drx" (·.longDrx) fun x r => { r with longDrx := x },
   .real "promotion" (·.promotion) fun x r => { r with promotion := x },
   .real "power_promotion" (·.powerPromotion) fun x r => { r with powerPromotion := x },
   .real "power_cr" (·.powerCr) fun x r => { r with powerCr := x },
   .real "alpha_up" (·.alphaUp) fun x r => { r with alphaUp := x },
   .real "alpha_down" (·.alphaDown) fun x r => { r with alphaDown := x },
   .real "power_cr_tail" (·.powerCrTail) fun x r => { r with powerCrTail := x },
   .real "power_short_drx" (·.powerShortDrx) fun x r => { r with powerShortDrx := x },
   .real "power_long_drx" (·.powerLongDrx) fun x r => { r with powerLongDrx := x },
   .real "power_idle" (·.powerIdle) fun x r => { r with powerIdle := x }]

/-- The standard LTE radio. Wake-ups for paging are left out, so idle draws nothing. -/
def standard [Scalar α] : LteRadio α where
  crTail := 0.1
  shortDrx := 0.4
  longDrx := 11.0
  promotion := 0.26
  powerPromotion := 1.21
  powerCr := 1.06
  alphaUp := 0.438
  alphaDown := 0.052
  powerCrTail := 1.06
  powerShortDrx := 0.359
  powerLongDrx := 0.143
  powerIdle := 0

end LteRadio

namespace WifiRadio

def fields : List (Field (WifiRadio α) α) :=
  [.real "wifi_tail" (·.wifiTail) fun x r => { r with wifiTail := x },
   .real "power_active" (·.powerActive) fun x r => { r with powerActive := x },
   .real "alpha_up" (·.alphaUp) fun x r => { r with alphaUp := x },
   .real "alpha_down" (·.alphaDown) fun x r => { r with alphaDown := x },
   .real "power_tail" (·.powerTail) fun x r => { r with powerTail := x },
   .real "power_idle" (·.powerIdle) fun x r => { r with powerIdle := x }]

def standard [Scalar α] : WifiRadio α where
  wifiTail := 0.25
  powerActive := 0.403
  alphaUp := 0.283
  alphaDown := 0.137
  powerTail := 0.24
  powerIdle := 0

end WifiRadio

/-- The radio section of a profile. -/
inductive RadioModel (α : Type) where
  | umts (radio : UmtsRadio α)
  | lte (radio : LteRadio α)
  | wifi (radio : WifiRadio α)
  deriving DecidableEq

namespace RadioModel

def family : RadioModel α → Family
  | umts _ => .cellular3G
  | lte _ => .cellularLte
  | wifi _ => .wifi

/-- The steady power of a state in watts, throughput aside. A state of another family draws
nothing. -/
def power [Scalar α] : RadioModel α → State → α
  | umts r, .dch => r.powerDch
  | umts r, .fach => r.powerFach
  | umts r, .idle => r.powerIdle
  | umts r, .idleToDchPromotion => r.powerIdleToDch
  | umts r, .fachToDchPromotion => r.powerFachToDch
  | lte r, .idleToCrPromotion => r.powerPromotion
  | lte r, .continuousReception => r.powerCr
  | lte r, .continuousReceptionTail => r.powerCrTail
  | lte r, .shortDrx => r.powerShortDrx
  | lte r, .longDrx => r.powerLongDrx
  | lte r, .lteIdle => r.powerIdle
  | wifi r, .wifiActive => r.powerActive
  | wifi r, .wifiTail => r.powerTail
  | wifi r, .wifiIdle => r.powerIdle
  | _, _ => 0

/-- Extra watts for each uplink and each downlink megabit per second, in the states where the
throughput matters. -/
def throughputPower? : RadioModel α → State → Option (α × α)
  | lte r, .continuousReception => some (r.alphaUp, r.alphaDown)
  | wifi r, .wifiActive => some (r.alphaUp, r.alphaDown)
  | _, _ => none

/-- No timer, delay or power is negative. -/
def validate [Scalar α] : RadioModel α → Except (Error α) Unit
  | umts r => Field.checkAll UmtsRadio.fields r
  | lte r => Field.checkAll LteRadio.fields r
  | wifi r => Field.checkAll WifiRadio.fields r

def code : RadioModel α → String
  | umts _ => "Umts"
  | lte _ => "Lte"
  | wifi _ => "Wifi"

def standard [Scalar α] : Family → RadioModel α
  | .cellular3G => umts .standard
  | .cellularLte => lte .standard
  | .wifi => wifi .standard

end RadioModel

end Radios

end BurstEnergy.Profile

namespace BurstEnergy

/-! ## Device profiles

A profile stands for one device on one kind of network: a name, the thresholds of the burst
engine, and the radio section. There is one preset for each radio family.
-/

/-- The model of the device whose trace is analysed. -/
structure Profile (α : Type) where
  name : String
  thresholds : Profile.Thresholds α
  radio : Profile.RadioModel α
  deriving DecidableEq

namespace Profile
variable {α : Type}

def family (profile : Profile α) : Radio.Family := profile.radio.family

variable [Scalar α]

def presetName (family : Radio.Family) : String := s!"{family.name} default"

def preset (family : Radio.Family) : Profile α :=
  ⟨presetName family, .standard, .standard family⟩

/-- The profile in use when none is chosen. -/
def standard : Profile α := preset .cellular3G

/-- Refuse malformed values, those of the thresholds first. -/
def validate (profile : Profile α) : Except (Error α) Unit := do
  profile.thresholds.validate
  profile.radio.validate

def power (profile : Profile α) (state : Radio.State) : α := profile.radio.power state

end Profile

/-! ## Energy of a span of radio time

The energy of a span is its steady power times its length; in the states that carry traffic each
megabit per second of throughput adds to the power. A span without length costs nothing.
-/
section Energy
open Radio (State)
open Traffic (Packet Direction)

/-- Joules consumed in a state from a start to a stop time, given the packets seen meanwhile. -/
abbrev EnergyModel (α : Type) : Type := α → α → State → List (Packet α) → α

namespace Profile
variable {α : Type} [Scalar α]

/-- Megabits per second of a number of bytes spread over some seconds. -/
def megabitRate (bytes : Nat) (seconds : α) : α := bytes * 8.0 / 1000000.0 / seconds

/-- The power of a state in watts over a span, with what the throughput of its packets adds. -/
def loadedPower (profile : Profile α) (state : State) (packets : List (Packet α))
    (seconds : α) : α :=
  match profile.radio.throughputPower? state with
  | some (up, down) =>
    profile.power state
      + (up * megabitRate (Packet.bytesTowards .uplink packets) seconds
        + down * megabitRate (Packet.bytesTowards .downlink packets) seconds)
  | none => profile.power state

/-- The energy model of a profile. -/
def energy (profile : Profile α) : EnergyModel α := fun start stop state packets =>
  let seconds := stop - start
  if seconds ≤ 0 then 0 else profile.loadedPower state packets seconds * seconds

theorem energy_of_no_length (profile : Profile α) {start stop : α} (h : stop - start ≤ 0)
    (state : State) (packets : List (Packet α)) :
    profile.energy start stop state packets = 0 := by
  simp [energy, h]

end Profile

end Energy

end BurstEnergy
