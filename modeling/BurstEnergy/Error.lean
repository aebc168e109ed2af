import BurstEnergy.Decimal
import BurstEnergy.Radio.State

/-!
# Errors

Every error names the condition of the input or of the profile that failed and carries the values
that show it. Empty timelines and traces of no duration are valid and cause none. The wording is
in `Error.message` alone.
-/
namespace BurstEnergy

/-- Why a profile value is refused. -/
inductive ProfileFault (α : Type) where
  | notFinite (value : α)
  | negative (value : α)
  | zeroCount
  | notPositive
  | stated (text : String)
  deriving DecidableEq, Repr

/-- Why a trace, a profile or an analysis is refused. -/
inductive Error (α : Type) where
  | unsortedTimeline (index : Nat) (previous current : α)
  | invalidTimestamp (index : Nat) (value : α)
  | traceTooShort (lastPacket duration : α)
  | invalidDuration (value : α)
  | traceFormat (text : String)
  | invalidProfile (field : String) (fault : ProfileFault α)
  | familyMismatch (profile trace : Radio.Family)
  | profileFormat (text : String)
  deriving DecidableEq, Repr

def ProfileFault.message : ProfileFault Float → String
  | notFinite value => s!"not a finite number: {Decimal.messageText value}"
  | negative value => s!"negative value: {Decimal.messageText value}"
  | zeroCount => "must be at least 1"
  | notPositive => "must be positive"
  | stated text => text

namespace Error

/-- The fault lies in the profile, not in the captured trace. -/
def isConfiguration {α : Type} : Error α → Bool
  | invalidProfile .. | familyMismatch .. | profileFormat _ => true
  | _ => false

def message : Error Float → String
  | unsortedTimeline index previous current =>
    s!"Timeline not sorted: packet {index} at {Decimal.messageText current}s "
      ++ s!"precedes previous packet at {Decimal.messageText previous}s"
  | invalidTimestamp index value =>
    s!"Invalid timestamp on packet {index}: {Decimal.messageText value}"
  | traceTooShort lastPacket duration =>
    s!"Trace duration {Decimal.messageText duration}s "
      ++ s!"ends before last packet at {Decimal.messageText lastPacket}s"
  | invalidDuration value => s!"Invalid trace duration: {Decimal.messageText value}"
  | traceFormat text => s!"Malformed trace document: {text}"
  | invalidProfile field fault => s!"Invalid profile value for {field}: {fault.message}"
  | familyMismatch profile trace =>
    s!"Profile is for {profile.name} but trace was captured on {trace.name}"
  | profileFormat text => s!"Malformed profile document: {text}"

end Error

/-! ## Checks in sequence

A check returns nothing or the first error. Checks made one after the other pass when each of them
passes, and what is computed after them is then what is returned.
-/
section Sequences
variable {ε β : Type}

theorem bind_eq_ok_iff {γ : Type} {x : Except ε γ} {next : γ → Except ε β} {b : β} :
    x >>= next = .ok b ↔ ∃ c, x = .ok c ∧ next c = .ok b := by
  cases x <;> simp [bind, Except.bind]

theorem toOption_eq_some_iff {x : Except ε β} {b : β} : x.toOption = some b ↔ x = .ok b := by
  cases x <;> simp [Except.toOption]

theorem check_bind_eq_ok_iff {check : Except ε Unit} {next : Unit → Except ε β} {b : β} :
    check >>= next = .ok b ↔ check = .ok () ∧ next () = .ok b := by
  cases check with
  | error e => simp [bind, Except.bind]
  | ok u => simp [bind, Except.bind]

theorem check_bind_eq_error_iff {check : Except ε Unit} {next : Unit → Except ε β} {e : ε} :
    check >>= next = .error e ↔ check = .error e ∨ check = .ok () ∧ next () = .error e := by
  cases check with
  | error e' => simp [bind, Except.bind]
  | ok u => simp [bind, Except.bind]

end Sequences

end BurstEnergy
