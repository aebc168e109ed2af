import BurstEnergy.Json.Text
import BurstEnergy.Profile

/-!
# Profile documents

The JSON form of profiles. A field that is missing takes the standard value of its section. The
radio section carries a tag with its family beside its fields, in any place, or in front of them
when it is an array; it can be read only after the tag is known, so all of it is kept until then.
-/
namespace BurstEnergy.Profile
open Json

/-- How many containers deep the values of a radio section may be nested. -/
def keptLevels : Nat := 125

section Records
variable {ρ : Type}

def Field.toJson (record : ρ) (f : Field ρ Float) : Value :=
  match f.access with
  | .real get _ => .ofFloat (get record)
  | .count get _ => .ofNat (get record)

def Field.put? (f : Field ρ Float) (v : Value) (record : ρ) : Option ρ :=
  match f.access with
  | .real _ set => (Decode.real v).map (set · record)
  | .count _ set => (Decode.count 64 v).map (set · record)

def Field.members (fields : List (Field ρ Float)) (record : ρ) : List (String × Value) :=
  fields.map fun f => (f.name, f.toJson record)

/-- Replace the entries that are present, each by its own field. -/
def Field.putAll? (record : ρ) : List (Field ρ Float × Option Value) → Option ρ
  | [] => some record
  | (_, none) :: rest => putAll? record rest
  | (f, some v) :: rest => do putAll? (← f.put? v record) rest

/-- Read a record whose missing entries keep their standard values. -/
def Field.read? (fields : List (Field ρ Float)) (standard : ρ) : Decoder ρ := fun v => do
  Field.putAll? standard (fields.zip (← Decode.entries? (fields.map (·.name)) v))

end Records

def Thresholds.toJson (t : Thresholds Float) : Value := .ofMembers (Field.members fields t)

def Thresholds.ofJson? : Decoder (Thresholds Float) := Field.read? fields standard

namespace RadioModel

/-- The name of the member that tells radio sections apart. -/
def tagName : String := "family"

def members : RadioModel Float → List (String × Value)
  | umts r => Field.members UmtsRadio.fields r
  | lte r => Field.members LteRadio.fields r
  | wifi r => Field.members WifiRadio.fields r

def toJson (radio : RadioModel Float) : Value :=
  .ofMembers ((tagName, .ofString radio.code) :: radio.members)

/-- Read the fields of the section that a tag announces. -/
def ofTagged? (tag : String) (fields : Value) : Option (RadioModel Float) :=
  if tag = "Umts" then (Field.read? UmtsRadio.fields .standard fields).map umts
  else if tag = "Lte" then (Field.read? LteRadio.fields .standard fields).map lte
  else if tag = "Wifi" then (Field.read? WifiRadio.fields .standard fields).map wifi
  else none

def ofJson? : Decoder (RadioModel Float)
  | .object members => do
    let tag ← Decode.required Decode.text (← Decode.memberNamed? members tagName)
    let others := members.filter (·.1 ≠ some tagName)
    if Value.keepableMembers keptLevels others then ofTagged? tag (.object others) else none
  | .array (tag :: fields) => do
    let tag ← Decode.text tag
    if Value.keepableElements keptLevels fields then ofTagged? tag (.array fields) else none
  | _ => none

end RadioModel

def toJson (profile : Profile Float) : Value :=
  .ofMembers [("name", .ofString profile.name), ("thresholds", profile.thresholds.toJson),
    ("radio", profile.radio.toJson)]

/-- Read a profile; only the radio section has to be present. -/
def ofJson? : Decoder (Profile Float) := fun v => do
  match ← Decode.entries? ["name", "thresholds", "radio"] v with
  | [name, thresholds, radio] =>
    return ⟨← Decode.defaulted "" Decode.text name,
      ← Decode.defaulted .standard Thresholds.ofJson? thresholds,
      ← Decode.required RadioModel.ofJson? radio⟩
  | _ => none

def toDocument (profile : Profile Float) : String := profile.toJson.compact

/-- Read a profile document and check the profile. -/
def ofDocument (document : String) : Except (Error Float) (Profile Float) :=
  match Decoder.ofText? ofJson? document with
  | some profile => do
    profile.validate
    return profile
  | none => .error (.profileFormat Decoder.malformed)

end BurstEnergy.Profile
