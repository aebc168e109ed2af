import BurstEnergy.Traffic

/-!
# Bursts of a timeline

Bursts, and how a timeline is cut into them.
-/

/-! ## Bursts

A burst is a run of packets close together in time. It owns no packets: it refers to a half-open
range of positions of its timeline. Its category names the cause found for it.
-/
namespace BurstEnergy
open Traffic (Packet Timeline)

/-- The cause of a burst. -/
inductive Category where
  /-- Triggered by a user interaction. -/
  | userInput
  /-- The first burst after a change of screen orientation. -/
  | screenRotation
  /-- Connection control alone, no payload. -/
  | tcpProtocolOnly
  /-- Part of a repeating transfer. -/
  | periodic
  /-- A long or large transfer. -/
  | longBurst
  | other
  deriving DecidableEq, Repr, Inhabited

namespace Category

def all : List Category :=
  [userInput, screenRotation, tcpProtocolOnly, periodic, longBurst, other]

def unknown : Category := other

def label : Category → String
  | userInput => "User Input"
  | screenRotation => "Screen Rotation"
  | tcpProtocolOnly => "TCP Protocol"
  | periodic => "Periodic"
  | longBurst => "Long Burst"
  | other => "Other"

def code : Category → String
  | userInput => "UserInput"
  | screenRotation => "ScreenRotation"
  | tcpProtocolOnly => "TcpProtocolOnly"
  | periodic => "Periodic"
  | longBurst => "LongBurst"
  | other => "Other"

theorem mem_all (c : Category) : c ∈ all := by cases c <;> decide

theorem all_nodup : all.Nodup := by decide

end Category

/-- The positions from `first` up to but without `stop`. -/
structure PacketRange where
  first : Nat
  stop : Nat
  deriving DecidableEq, Repr

namespace PacketRange

/-- The number of positions; a reversed range has none. -/
def size (range : PacketRange) : Nat := range.stop - range.first

/-- The elements of a list at the positions of a range, none unless the range lies inside. -/
def slice {β : Type} (range : PacketRange) (xs : List β) : List β :=
  if range.first ≤ range.stop ∧ range.stop ≤ xs.length then
    (xs.drop range.first).take range.size
  else []

theorem length_slice {β : Type} {range : PacketRange} {xs : List β}
    (h : range.first ≤ range.stop) (hx : range.stop ≤ xs.length) :
    (range.slice xs).length = range.size := by
  simp [slice, size, h, hx]
  omega

end PacketRange

/-- A run of packets close together in time. -/
structure Burst (α : Type) where
  beginTime : α
  endTime : α
  category : Category
  /-- Joules charged to the burst. -/
  energy : α
  /-- The positions of its packets in the timeline. -/
  packets : PacketRange
  bytes : Nat
  deriving DecidableEq

namespace Burst
variable {α : Type} [Scalar α]

/-- A burst before any cause or energy is known. -/
def fresh (beginTime endTime : α) (packets : PacketRange) (bytes : Nat) : Burst α :=
  ⟨beginTime, endTime, .unknown, 0, packets, bytes⟩

def duration (burst : Burst α) : α := burst.endTime - burst.beginTime

def packetCount (burst : Burst α) : Nat := burst.packets.size

def members (burst : Burst α) (timeline : Timeline α) : List (Packet α) :=
  burst.packets.slice timeline.packets

def inCategory (category : Category) (bursts : List (Burst α)) : List (Burst α) :=
  bursts.filter (·.category = category)

end Burst
end BurstEnergy

/-! ## Segmentation

`segment gap` cuts a timeline into bursts: a packet that follows the one before it by more than
`gap` seconds opens a new burst. A distance of exactly `gap` stays inside.
-/
namespace BurstEnergy.Segmentation
open Traffic (Packet Timeline)
variable {α : Type}

/-- The burst being collected: where it began, its latest packet, and its bytes so far. -/
structure Run (α : Type) where
  first : Nat
  beginTime : α
  latestTime : α
  count : Nat
  bytes : Nat
  deriving DecidableEq

namespace Run

def start (first : Nat) (p : Packet α) : Run α :=
  ⟨first, p.timestamp, p.timestamp, 1, p.length⟩

def push (run : Run α) (p : Packet α) : Run α :=
  { run with latestTime := p.timestamp, count := run.count + 1, bytes := run.bytes + p.length }

def stop (run : Run α) : Nat := run.first + run.count

@[simp] theorem stop_start (first : Nat) (p : Packet α) : (start first p).stop = first + 1 := rfl

@[simp] theorem stop_push (run : Run α) (p : Packet α) : (run.push p).stop = run.stop + 1 := by
  simp [stop, push, Nat.add_assoc]

def close [Scalar α] (run : Run α) : Burst α :=
  .fresh run.beginTime run.latestTime ⟨run.first, run.stop⟩ run.bytes

end Run

variable [Scalar α]

/-- The bursts of the packets that follow a run, the run's own included. -/
def continueRun (gap : α) (run : Run α) : List (Packet α) → List (Burst α)
  | [] => [run.close]
  | p :: rest =>
    if p.timestamp - run.latestTime ≤ gap then continueRun gap (run.push p) rest
    else run.close :: continueRun gap (.start run.stop p) rest

/-- The bursts of a timeline, in order and without causes. -/
def segment (gap : α) (timeline : Timeline α) : List (Burst α) :=
  match timeline.packets with
  | [] => []
  | p :: rest => continueRun gap (.start 0 p) rest

@[simp] theorem segment_nil (gap : α) : segment gap ⟨[]⟩ = [] := rfl

end BurstEnergy.Segmentation
