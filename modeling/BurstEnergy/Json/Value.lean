import BurstEnergy.Decimal

/-!
# JSON values and their words

Values as a program holds them, and the tokens that a text of them is made of.
-/
namespace BurstEnergy.Json

/-! ## JSON values

Values keep the order of object members and the spelling of numbers. A string is `none` when its
escapes name half of a surrogate pair, so that it has no text; such strings are tolerated only
where a reader skips them.
-/
section Values
open Decimal (Numeral)

/-- The text of a string, none if it has no meaning as text. -/
abbrev Content : Type := Option String

/-- A JSON value. -/
inductive Value where
  | null
  | bool (value : Bool)
  | number (numeral : Numeral)
  | string (text : Content)
  | array (elements : List Value)
  | object (members : List (Content × Value))

namespace Value

def ofString (text : String) : Value := .string (some text)

def ofNat (n : Nat) : Value := .number (.ofNat n)

/-- A measured value, null when it is not finite. -/
def ofFloat (x : Float) : Value :=
  match Decimal.Layout.document.numeral? x with
  | some n => .number n
  | none => .null

/-- A value that may be missing. -/
def ofOption {β : Type} (write : β → Value) : Option β → Value
  | some b => write b
  | none => .null

def ofList {β : Type} (write : β → Value) (elements : List β) : Value :=
  .array (elements.map write)

def ofMembers (members : List (String × Value)) : Value :=
  .object (members.map fun (name, value) => (some name, value))

mutual

/-- A reader that keeps a value for later can do so: it is nested in itself at most `levels`
containers deep, its strings have a text and its numbers are finite. -/
def keepable (levels : Nat) : Value → Bool
  | .null | .bool _ => true
  | .number n => n.toFloat?.isSome
  | .string text => text.isSome
  | .array elements =>
    match levels with
    | 0 => false
    | inner + 1 => keepableElements inner elements
  | .object members =>
    match levels with
    | 0 => false
    | inner + 1 => keepableMembers inner members

def keepableElements (levels : Nat) : List Value → Bool
  | [] => true
  | v :: rest => keepable levels v && keepableElements levels rest

def keepableMembers (levels : Nat) : List (Content × Value) → Bool
  | [] => true
  | (name, v) :: rest => name.isSome && keepable levels v && keepableMembers levels rest

end

end Value

end Values

/-! ## Tokens of JSON texts

A JSON text is a row of tokens with blanks between them. The lexer goes through the characters
once; its state is the token it is in the middle of and the tokens it has finished. A bare word
is one of the three literals or a numeral, and ends at the first character that cannot belong to
either. String contents are collected as pieces, so that two escapes which form a surrogate pair
are joined only when the string is complete.
-/
section Tokens
open Decimal (Numeral)

inductive Token where
  | openArray
  | closeArray
  | openObject
  | closeObject
  | comma
  | colon
  | null
  | bool (value : Bool)
  | number (numeral : Numeral)
  | string (text : Content)
  deriving DecidableEq, Repr

/-- A character between tokens that has no meaning. -/
def isBlank (c : Char) : Bool := c = ' ' || c = '\t' || c = '\n' || c = '\r'

def isDigit (c : Char) : Bool := decide ('0' ≤ c ∧ c ≤ '9')

/-- A character that a bare word may contain. -/
def isWordChar (c : Char) : Bool :=
  isDigit c || decide ('a' ≤ c ∧ c ≤ 'z') || c = 'E' || c = '+' || c = '-' || c = '.'

/-- The token that a single character is. -/
def punctuation? : Char → Option Token
  | '[' => some .openArray
  | ']' => some .closeArray
  | '\x7b' => some .openObject
  | '\x7d' => some .closeObject
  | ',' => some .comma
  | ':' => some .colon
  | _ => none

/-- The sign at the front of a row of characters, and the rest. -/
def takeSign : List Char → Bool × List Char
  | '-' :: rest => (true, rest)
  | rest => (false, rest)

/-- The digits after a point; there has to be one. Without a point the fraction is empty. -/
def takeFraction? : List Char → Option (List Char × List Char)
  | '.' :: rest =>
    match rest.takeWhile isDigit with
    | [] => none
    | digits => some (digits, rest.dropWhile isDigit)
  | rest => some ([], rest)

/-- The digits of an exponent up to the end of the word; there has to be one. -/
def exponentDigits? (isNegative : Bool) (digits : List Char) : Option (Bool × List Char) :=
  if digits.isEmpty || !digits.all isDigit then none else some (isNegative, digits)

/-- The exponent part that makes up all the rest of a word. -/
def takeExponent? : List Char → Option (Option (Bool × List Char))
  | [] => some none
  | c :: rest =>
    if c = 'e' || c = 'E' then
      match rest with
      | '+' :: digits => (exponentDigits? false digits).map some
      | '-' :: digits => (exponentDigits? true digits).map some
      | digits => (exponentDigits? false digits).map some
    else none

/-- Whole digits: at least one, and no zero in front of others. -/
def isWholePart : List Char → Bool
  | [] => false
  | ['0'] => true
  | c :: _ => c ≠ '0'

/-- The numeral that a word spells. -/
def numeralOfWord? (word : List Char) : Option Numeral := do
  let (negative, unsigned) := takeSign word
  let whole := unsigned.takeWhile isDigit
  if !isWholePart whole then none
  else
    let (fraction, rest) ← takeFraction? (unsigned.dropWhile isDigit)
    let exponent ← takeExponent? rest
    return ⟨negative, whole, fraction, exponent⟩

/-- The token that a bare word is. -/
def wordToken? (word : List Char) : Option Token :=
  if word = ['n', 'u', 'l', 'l'] then some .null
  else if word = ['t', 'r', 'u', 'e'] then some (.bool true)
  else if word = ['f', 'a', 'l', 's', 'e'] then some (.bool false)
  else (numeralOfWord? word).map .number

/-- A piece of a string: a character, or a 16-bit unit given by an escape. -/
inductive Piece where
  | char (c : Char)
  | unit (value : Nat)
  deriving DecidableEq, Repr

namespace Piece

/-- The first half of a surrogate pair. -/
def IsHigh (value : Nat) : Prop := 0xD800 ≤ value ∧ value < 0xDC00

/-- The second half of a surrogate pair. -/
def IsLow (value : Nat) : Prop := 0xDC00 ≤ value ∧ value < 0xE000

instance (value : Nat) : Decidable (IsHigh value) := inferInstanceAs (Decidable (_ ∧ _))

instance (value : Nat) : Decidable (IsLow value) := inferInstanceAs (Decidable (_ ∧ _))

/-- The character that a surrogate pair stands for. -/
def joinPair (high low : Nat) : Char :=
  Char.ofNat (0x10000 + (high - 0xD800) * 0x400 + (low - 0xDC00))

/-- The characters of a row of pieces, none if half of a surrogate pair stands alone. -/
def chars? : List Piece → Option (List Char)
  | [] => some []
  | .char c :: rest => (chars? rest).map (c :: ·)
  | .unit high :: .unit low :: rest =>
    if IsHigh high then
      if IsLow low then (chars? rest).map (joinPair high low :: ·) else none
    else if IsLow high then none
    else (chars? (.unit low :: rest)).map (Char.ofNat high :: ·)
  | .unit value :: rest =>
    if IsHigh value ∨ IsLow value then none else (chars? rest).map (Char.ofNat value :: ·)

/-- The text of a string given by its pieces, the latest first. -/
def text (latestFirst : List Piece) : Content := (chars? latestFirst.reverse).map String.ofList

end Piece

/-- The character that a one-letter escape stands for. -/
def escaped? : Char → Option Char
  | '"' => some '"'
  | '\\' => some '\\'
  | '/' => some '/'
  | 'b' => some '\x08'
  | 'f' => some '\x0c'
  | 'n' => some '\n'
  | 'r' => some '\r'
  | 't' => some '\t'
  | _ => none

def hexValue? (c : Char) : Option Nat :=
  if isDigit c then some (c.toNat - '0'.toNat)
  else if 'a' ≤ c ∧ c ≤ 'f' then some (c.toNat - 'a'.toNat + 10)
  else if 'A' ≤ c ∧ c ≤ 'F' then some (c.toNat - 'A'.toNat + 10)
  else none

/-- The token the lexer is in the middle of. What it has seen of it is kept latest first. -/
inductive Unfinished where
  | between
  | word (letters : List Char)
  | text (pieces : List Piece)
  | escape (pieces : List Piece)
  /-- A 16-bit unit of which `left` digits are missing and the others have the value `value`. -/
  | unit (pieces : List Piece) (left value : Nat)

/-- The state of the lexer. -/
structure Lexer where
  current : Unfinished
  /-- The finished tokens, latest first. -/
  tokens : List Token

namespace Lexer

def start : Lexer := ⟨.between, []⟩

/-- Begin a new token, or pass over a blank. -/
def begin? (tokens : List Token) (c : Char) : Option Lexer :=
  if isBlank c then some ⟨.between, tokens⟩
  else if c = '"' then some ⟨.text [], tokens⟩
  else if isWordChar c then some ⟨.word [c], tokens⟩
  else (punctuation? c).map fun token => ⟨.between, token :: tokens⟩

def step? (lexer : Lexer) (c : Char) : Option Lexer :=
  match lexer.current with
  | .between => begin? lexer.tokens c
  | .word letters =>
    if isWordChar c then some ⟨.word (c :: letters), lexer.tokens⟩
    else do begin? ((← wordToken? letters.reverse) :: lexer.tokens) c
  | .text pieces =>
    if c = '"' then some ⟨.between, .string (Piece.text pieces) :: lexer.tokens⟩
    else if c = '\\' then some ⟨.escape pieces, lexer.tokens⟩
    else if c.toNat < 0x20 then none
    else some ⟨.text (.char c :: pieces), lexer.tokens⟩
  | .escape pieces =>
    if c = 'u' then some ⟨.unit pieces 4 0, lexer.tokens⟩
    else (escaped? c).map fun meant => ⟨.text (.char meant :: pieces), lexer.tokens⟩
  | .unit pieces left value => do
    let total := 16 * value + (← hexValue? c)
    if left ≤ 1 then some ⟨.text (.unit total :: pieces), lexer.tokens⟩
    else some ⟨.unit pieces (left - 1) total, lexer.tokens⟩

/-- The tokens at the end of the text, in order. -/
def finish? (lexer : Lexer) : Option (List Token) :=
  match lexer.current with
  | .between => some lexer.tokens.reverse
  | .word letters => do return ((← wordToken? letters.reverse) :: lexer.tokens).reverse
  | _ => none

def run? (lexer : Lexer) : List Char → Option Lexer
  | [] => some lexer
  | c :: rest =>
    match lexer.step? c with
    | some next => run? next rest
    | none => none

theorem run?_append (lexer : Lexer) (front back : List Char) :
    lexer.run? (front ++ back) = (lexer.run? front).bind (·.run? back) := by
  induction front generalizing lexer with
  | nil => rfl
  | cons c rest ih =>
    simp only [List.cons_append, run?]
    cases lexer.step? c with
    | none => rfl
    | some next => exact ih next

end Lexer

/-- The tokens of a text. -/
def Token.scan? (chars : List Char) : Option (List Token) := do
  (← Lexer.start.run? chars).finish?

end Tokens

end BurstEnergy.Json
