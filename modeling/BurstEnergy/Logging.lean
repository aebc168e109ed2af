import BurstEnergy.Json.Text

/-!
# Log settings

How much the analysis logs and in which form. Level and format are read from short words, blanks
around them and the case of ASCII letters aside; a setting that is absent or not understood keeps
its standard value. The directive names the level for each part of the program.
-/

/-! ## Blank characters

The characters that count as white space in running text, and cutting them off both ends of a
text.
-/
namespace BurstEnergy.Text

/-- The ranges of code points with the property White_Space. -/
def blankRanges : List (Nat × Nat) :=
  [(0x9, 0xD), (0x20, 0x20), (0x85, 0x85), (0xA0, 0xA0), (0x1680, 0x1680), (0x2000, 0x200A),
    (0x2028, 0x2029), (0x202F, 0x202F), (0x205F, 0x205F), (0x3000, 0x3000)]

def isBlank (c : Char) : Bool :=
  blankRanges.any fun (first, last) => decide (first ≤ c.toNat ∧ c.toNat ≤ last)

/-- A text without the white space at its ends. -/
def trim (chars : List Char) : List Char :=
  ((chars.dropWhile isBlank).reverse.dropWhile isBlank).reverse

/-- There are 25 blank characters. -/
example : (blankRanges.map fun (first, last) => last + 1 - first).sum = 25 := by decide

end BurstEnergy.Text

namespace BurstEnergy.Logging
open Json

/-- The least severe kind of event that is logged. -/
inductive Level where
  | error
  | warn
  | info
  | debug
  | trace
  deriving DecidableEq, Repr

inductive Format where
  /-- Lines for a person. -/
  | human
  /-- One JSON object for each event. -/
  | json
  deriving DecidableEq, Repr

/-- A word that names no level or no format. -/
inductive WordError where
  | unknownLevel (text : String)
  | unknownFormat (text : String)
  deriving DecidableEq, Repr

def WordError.message : WordError → String
  | unknownLevel text => s!"unknown log level: {text}"
  | unknownFormat text => s!"unknown log format: {text}"

/-- The word in a text: blanks at its ends and the case of its ASCII letters do not matter. -/
def wordOf (text : String) : String :=
  String.ofList ((Text.trim text.toList).map Char.toLower)

namespace Level

def all : List Level := [error, warn, info, debug, trace]

def standard : Level := info

def code : Level → String
  | error => "error"
  | warn => "warn"
  | info => "info"
  | debug => "debug"
  | trace => "trace"

def ofText (text : String) : Except WordError Level :=
  let word := wordOf text
  if word = "warning" then .ok warn
  else
    match all.find? (·.code = word) with
    | some level => .ok level
    | none => .error (.unknownLevel text)

end Level

namespace Format

def all : List Format := [human, json]

def standard : Format := human

def code : Format → String
  | human => "human"
  | json => "json"

def ofText (text : String) : Except WordError Format :=
  let word := wordOf text
  if word = "human" ∨ word = "text" then .ok human
  else if word = "json" ∨ word = "jsonl" then .ok json
  else .error (.unknownFormat text)

end Format

structure Settings where
  level : Level
  format : Format
  timestamps : Bool
  deriving DecidableEq, Repr

namespace Settings

def standard : Settings := ⟨.standard, .standard, true⟩

/-- Quiet settings for test runs. -/
def quiet : Settings := ⟨.warn, .human, false⟩

/-- Settings from words that may be absent. -/
def ofWords (level format : Option String) : Settings :=
  { standard with
    level := (level.bind fun text => (Level.ofText text).toOption).getD standard.level
    format := (format.bind fun text => (Format.ofText text).toOption).getD standard.format }

/-- The parts of the program that log. -/
def targets : List String :=
  ["tailspin_core", "tailspin_burst", "tailspin_radio", "tailspin_analysis"]

/-- The filter that lets through the events of every part up to the level. -/
def directive (s : Settings) : String :=
  String.intercalate "," (targets.map fun target => s!"{target}={s.level.code}")

/-- Read settings; every field has to be present. -/
def ofJson? : Decoder Settings := fun v => do
  match ← Decode.entries? ["level", "format", "timestamps"] v with
  | [level, format, timestamps] =>
    return ⟨← Decode.required (Decode.choice Level.code Level.all) level,
      ← Decode.required (Decode.choice Format.code Format.all) format,
      ← Decode.required Decode.bool timestamps⟩
  | _ => none

end Settings
end BurstEnergy.Logging
