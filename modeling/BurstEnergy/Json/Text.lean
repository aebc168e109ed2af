import BurstEnergy.Json.Value

/-!
# JSON texts

Values are read from texts and written to them, and records are read from values.
-/
namespace BurstEnergy.Json

/-! ## Reading JSON values

The reader takes tokens one by one and keeps the containers that are still open on a stack, so no
text is nested too deeply for it. Its state says what may come next.
-/

/-- An open container that waits for a value, with what it holds so far, latest first. -/
inductive Frame where
  | array (elements : List Value)
  /-- The value is for the member of this name. -/
  | object (name : Content) (members : List (Content × Value))

/-- The state of the reader: what it expects, inside which open containers. -/
inductive Reader where
  /-- A value. -/
  | due (frames : List Frame)
  /-- The first value of an array, or its end. -/
  | firstElement (frames : List Frame)
  /-- The first name of an object, or its end. -/
  | firstName (frames : List Frame)
  /-- A further name of an object. -/
  | nextName (members : List (Content × Value)) (frames : List Frame)
  /-- The colon after a name. -/
  | colon (name : Content) (members : List (Content × Value)) (frames : List Frame)
  /-- A comma or the end of an array. -/
  | afterElement (elements : List Value) (frames : List Frame)
  /-- A comma or the end of an object. -/
  | afterMember (members : List (Content × Value)) (frames : List Frame)
  /-- Nothing: the value is complete. -/
  | complete (value : Value)

namespace Reader

/-- Put a complete value where it belongs. -/
def place (v : Value) : List Frame → Reader
  | [] => .complete v
  | .array elements :: rest => .afterElement (v :: elements) rest
  | .object name members :: rest => .afterMember ((name, v) :: members) rest

/-- Take the first token of a value. -/
def beginValue? (frames : List Frame) : Token → Option Reader
  | .null => some (place .null frames)
  | .bool b => some (place (.bool b) frames)
  | .number n => some (place (.number n) frames)
  | .string text => some (place (.string text) frames)
  | .openArray => some (.firstElement frames)
  | .openObject => some (.firstName frames)
  | _ => none

def step? : Reader → Token → Option Reader
  | .due frames, token => beginValue? frames token
  | .firstElement frames, .closeArray => some (place (.array []) frames)
  | .firstElement frames, token => beginValue? (.array [] :: frames) token
  | .firstName frames, .closeObject => some (place (.object []) frames)
  | .firstName frames, .string name => some (.colon name [] frames)
  | .nextName members frames, .string name => some (.colon name members frames)
  | .colon name members frames, .colon => some (.due (.object name members :: frames))
  | .afterElement elements frames, .comma => some (.due (.array elements :: frames))
  | .afterElement elements frames, .closeArray => some (place (.array elements.reverse) frames)
  | .afterMember members frames, .comma => some (.nextName members frames)
  | .afterMember members frames, .closeObject => some (place (.object members.reverse) frames)
  | _, _ => none

def run? (reader : Reader) : List Token → Option Reader
  | [] => some reader
  | token :: rest =>
    match reader.step? token with
    | some next => run? next rest
    | none => none

theorem run?_append (reader : Reader) (front back : List Token) :
    reader.run? (front ++ back) = (reader.run? front).bind (·.run? back) := by
  induction front generalizing reader with
  | nil => rfl
  | cons token rest ih =>
    simp only [List.cons_append, run?]
    cases reader.step? token with
    | none => rfl
    | some next => exact ih next

def value? : Reader → Option Value
  | .complete v => some v
  | _ => none

end Reader

/-- The value that a row of tokens spells. -/
def Value.ofTokens? (tokens : List Token) : Option Value := do
  (← (Reader.due []).run? tokens).value?

def Value.parse? (text : String) : Option Value := do
  Value.ofTokens? (← Token.scan? text.toList)

/-! ## Writing JSON values

A value is written as its tokens without blanks, or set out over lines with two spaces for each
level. Strings escape the quote, the backslash and the control characters below the space.
-/

def hexDigit (n : Nat) : Char :=
  if n < 10 then Char.ofNat ('0'.toNat + n) else Char.ofNat ('a'.toNat + (n - 10))

/-- A character inside a written string. -/
def escapeChar (c : Char) : List Char :=
  if c = '"' then ['\\', '"']
  else if c = '\\' then ['\\', '\\']
  else if c = '\x08' then ['\\', 'b']
  else if c = '\x0c' then ['\\', 'f']
  else if c = '\n' then ['\\', 'n']
  else if c = '\r' then ['\\', 'r']
  else if c = '\t' then ['\\', 't']
  else if c.toNat < 0x20 then
    ['\\', 'u', '0', '0', hexDigit (c.toNat / 16), hexDigit (c.toNat % 16)]
  else [c]

/-- A string in quotes. One without a text is written empty. -/
def quote (text : Content) : List Char :=
  '"' :: (text.getD "").toList.flatMap escapeChar ++ ['"']

def Token.chars : Token → List Char
  | .openArray => ['[']
  | .closeArray => [']']
  | .openObject => ['\x7b']
  | .closeObject => ['\x7d']
  | .comma => [',']
  | .colon => [':']
  | .null => ['n', 'u', 'l', 'l']
  | .bool true => ['t', 'r', 'u', 'e']
  | .bool false => ['f', 'a', 'l', 's', 'e']
  | .number n => n.chars
  | .string text => quote text

namespace Value

mutual

def tokens : Value → List Token
  | .null => [.null]
  | .bool b => [.bool b]
  | .number n => [.number n]
  | .string text => [.string text]
  | .array [] => [.openArray, .closeArray]
  | .array (v :: rest) => .openArray :: tokens v ++ elementTokens rest
  | .object [] => [.openObject, .closeObject]
  | .object ((name, v) :: rest) =>
    .openObject :: .string name :: .colon :: tokens v ++ memberTokens rest

/-- The tokens of the further elements of an array and of its end. -/
def elementTokens : List Value → List Token
  | [] => [.closeArray]
  | v :: rest => .comma :: tokens v ++ elementTokens rest

/-- The tokens of the further members of an object and of its end. -/
def memberTokens : List (Content × Value) → List Token
  | [] => [.closeObject]
  | (name, v) :: rest => .comma :: .string name :: .colon :: tokens v ++ memberTokens rest

end

/-- The text of a value without blanks. -/
def compact (v : Value) : String := String.ofList (v.tokens.flatMap Token.chars)

/-- The start of a line at a level. -/
def newLine (level : Nat) : List Char := '\n' :: List.replicate (2 * level) ' '

mutual

/-- The characters of a value that is set out over lines, at a level. -/
def prettyChars (level : Nat) : Value → List Char
  | .array (v :: rest) =>
    '[' :: newLine (level + 1) ++ prettyChars (level + 1) v ++ prettyElements level rest
  | .object ((name, v) :: rest) =>
    '\x7b' :: newLine (level + 1) ++ quote name ++ [':', ' '] ++ prettyChars (level + 1) v
      ++ prettyMembers level rest
  | .null => Token.null.chars
  | .bool b => (Token.bool b).chars
  | .number n => n.chars
  | .string text => quote text
  | .array [] => ['[', ']']
  | .object [] => ['\x7b', '\x7d']

/-- The further elements of an array and its end. -/
def prettyElements (level : Nat) : List Value → List Char
  | [] => newLine level ++ [']']
  | v :: rest =>
    ',' :: newLine (level + 1) ++ prettyChars (level + 1) v ++ prettyElements level rest

/-- The further members of an object and its end. -/
def prettyMembers (level : Nat) : List (Content × Value) → List Char
  | [] => newLine level ++ ['\x7d']
  | (name, v) :: rest =>
    ',' :: newLine (level + 1) ++ quote name ++ [':', ' '] ++ prettyChars (level + 1) v
      ++ prettyMembers level rest

end

/-- The text of a value set out over lines. -/
def pretty (v : Value) : String := String.ofList (prettyChars 0 v)

end Value

/-! ## Reading records from JSON values

A record is an object with a member for each field, in any order and beside members of other
names, or an array of the fields in their order. `entries?` brings both forms to one shape: a
list with the value given for each field, or none. What a missing field means is for the record
to say.
-/

/-- A reader of one kind of value. -/
abbrev Decoder (β : Type) : Type := Value → Option β

def Decoder.ofText? {β : Type} (decoder : Decoder β) (text : String) : Option β :=
  (Value.parse? text).bind decoder

/-- The reason given when a text does not spell a document of its kind. -/
def Decoder.malformed : String := "the document does not have the expected form"

namespace Decode

/-- A measured value; whole numbers are welcome too. -/
def real : Decoder Float
  | .number n => n.toFloat?
  | _ => none

/-- A count of at most `bits` bits, written as a whole number without a sign. -/
def count (bits : Nat) : Decoder Nat
  | .number n => n.toNat?.filter fun k => decide (k < Nat.pow 2 bits)
  | _ => none

def bool : Decoder Bool
  | .bool b => some b
  | _ => none

def text : Decoder String
  | .string s => s
  | _ => none

def list {β : Type} (element : Decoder β) : Decoder (List β)
  | .array elements => elements.mapM element
  | _ => none

/-- One of several alternatives by its word, bare or as the name of a lone null member. -/
def choice {β : Type} (code : β → String) (alternatives : List β) : Decoder β
  | .string (some word) => alternatives.find? (code · = word)
  | .object [(some word, .null)] => alternatives.find? (code · = word)
  | _ => none

def valuesNamed (name : String) (members : List (Content × Value)) : List Value :=
  (members.filter (·.1 = some name)).map (·.2)

/-- The value of the member with a name, if any; more than one is a fault. -/
def memberNamed? (members : List (Content × Value)) (name : String) : Option (Option Value) :=
  match valuesNamed name members with
  | [] => some none
  | [v] => some (some v)
  | _ => none

/-- The entries of fields given in their order; the later ones may be missing. -/
def entriesInOrder? {β : Type} (names : List β) (elements : List Value) :
    Option (List (Option Value)) :=
  if elements.length ≤ names.length then
    some (elements.map some ++ List.replicate (names.length - elements.length) none)
  else none

/-- The entries of fields given as members. Every name has to have a text. -/
def entriesByName? (names : List String) (members : List (Content × Value)) :
    Option (List (Option Value)) :=
  if members.all (·.1.isSome) then names.mapM (memberNamed? members) else none

/-- The entries of the fields of a record, in the order of the names. -/
def entries? (names : List String) : Decoder (List (Option Value))
  | .array elements => entriesInOrder? names elements
  | .object members => entriesByName? names members
  | _ => none

/-- A field that has to be present. -/
def required {β : Type} (decoder : Decoder β) (entry : Option Value) : Option β :=
  entry.bind decoder

/-- A field that has a value of its own when it is missing. -/
def defaulted {β : Type} (standard : β) (decoder : Decoder β) : Option Value → Option β
  | none => some standard
  | some v => decoder v

end Decode

end BurstEnergy.Json
