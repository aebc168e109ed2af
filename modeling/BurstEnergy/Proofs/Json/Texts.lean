import BurstEnergy.Json.Text
import BurstEnergy.Proofs.Json.Numerals

/-!
# Written tokens are read back

A token that can be read is a numeral that is well formed, a string with a text, or any of the
others. The text of a row of such tokens is read as the same row, as long as no two words stand side
by side; in the tokens of a value none do.
-/
namespace BurstEnergy.Json

/-! ## Strings -/

namespace Piece

/-- The piece that a written character is read as. Control characters without a letter of their own
are written as units. -/
def ofChar (c : Char) : Piece :=
  if c = '\x08' ∨ c = '\x0c' ∨ c = '\n' ∨ c = '\r' ∨ c = '\t' then .char c
  else if c.toNat < 0x20 then .unit c.toNat
  else .char c

/-- A unit of a control character stands for that character, whatever follows it. -/
theorem chars?_unit {value : ℕ} (h : value < 0x20) (rest : List Piece) :
    chars? (.unit value :: rest) = (chars? rest).map (Char.ofNat value :: ·) := by
  have hhigh : ¬ IsHigh value := fun hhigh => absurd hhigh.1 (by omega)
  have hlow : ¬ IsLow value := fun hlow => absurd hlow.1 (by omega)
  rcases rest with _ | ⟨_ | _, rest⟩ <;> simp [chars?, hhigh, hlow]

theorem chars?_map_ofChar (chars : List Char) : chars? (chars.map ofChar) = some chars := by
  induction chars with
  | nil => rfl
  | cons c rest ih =>
    rw [List.map_cons, ofChar]
    split
    · simp [chars?, ih]
    · split
      · next hsmall => simp [chars?_unit hsmall, ih]
      · simp [chars?, ih]

theorem text_reverse_map (text : String) :
    Piece.text (text.toList.map ofChar).reverse = some text := by
  rw [Piece.text, List.reverse_reverse, chars?_map_ofChar, Option.map_some, String.ofList_toList]

end Piece

theorem hexValue?_hexDigit {k : ℕ} (h : k < 16) : hexValue? (hexDigit k) = some k := by
  interval_cases k <;> rfl

namespace Lexer
variable {done : List Token} {pieces : List Piece}

theorem run?_cons {lexer next : Lexer} {c : Char} (h : lexer.step? c = some next)
    (rest : List Char) : lexer.run? (c :: rest) = next.run? rest := by
  rw [run?, h]

/-- A control character that is written by its number is read as a unit of that number. -/
theorem run?_unit {value : ℕ} (h : value < 0x20) :
    run? ⟨.text pieces, done⟩ ['\\', 'u', '0', '0', hexDigit (value / 16), hexDigit (value % 16)] =
      some ⟨.text (.unit value :: pieces), done⟩ := by
  have hvalue : 16 * (value / 16) + value % 16 = value := Nat.div_add_mod value 16
  have hfirst := hexValue?_hexDigit (show value / 16 < 16 by omega)
  have hsecond := hexValue?_hexDigit (Nat.mod_lt value (by decide))
  have hzero : hexValue? '0' = some 0 := by decide
  simp [run?, step?, hfirst, hsecond, hzero, hvalue]

theorem run?_escapeChar (c : Char) : run? ⟨.text pieces, done⟩ (escapeChar c) =
    some ⟨.text (.ofChar c :: pieces), done⟩ := by
  by_cases hc : c = '"' ∨ c = '\\' ∨ c = '\x08' ∨ c = '\x0c' ∨ c = '\n' ∨ c = '\r' ∨ c = '\t'
  · rcases hc with rfl | rfl | rfl | rfl | rfl | rfl | rfl <;> rfl
  · simp only [not_or] at hc
    obtain ⟨hquote, hslash, hback, hfeed, hline, hreturn, htab⟩ := hc
    by_cases hsmall : c.toNat < 0x20
    · have hpiece : Piece.ofChar c = .unit c.toNat := by simp [Piece.ofChar, *]
      have hescape : escapeChar c =
          ['\\', 'u', '0', '0', hexDigit (c.toNat / 16), hexDigit (c.toNat % 16)] := by
        simp [escapeChar, *]
      rw [hpiece, hescape, run?_unit hsmall]
    · have hpiece : Piece.ofChar c = .char c := by simp [Piece.ofChar, *]
      have hescape : escapeChar c = [c] := by simp [escapeChar, *]
      rw [hpiece, hescape]
      simp [run?, step?, *]

theorem run?_escapeChars (chars : List Char) :
    run? ⟨.text pieces, done⟩ (chars.flatMap escapeChar) =
      some ⟨.text ((chars.map Piece.ofChar).reverse ++ pieces), done⟩ := by
  induction chars generalizing pieces with
  | nil => rfl
  | cons c rest ih =>
    rw [List.flatMap_cons, run?_append, run?_escapeChar, Option.bind_some, ih, List.map_cons,
      List.reverse_cons, List.append_assoc, List.singleton_append]

theorem run?_quote (text : String) :
    run? ⟨.between, done⟩ (quote (some text)) = some ⟨.between, .string (some text) :: done⟩ := by
  have hopen : step? ⟨.between, done⟩ '"' = some ⟨.text [], done⟩ := rfl
  rw [quote, List.cons_append, run?_cons hopen, run?_append, Option.getD_some, run?_escapeChars,
    Option.bind_some, List.append_nil, ← Piece.text_reverse_map text]
  rfl

end Lexer

/-! ## Tokens -/

namespace Token

/-- A token whose text is read as that token. -/
def Readable : Token → Prop
  | number n => n.WellFormed
  | string text => text.isSome = true
  | _ => True

/-- A token that is written as a bare word, which goes on until a character that no word has. -/
def isWord : Token → Bool
  | null | bool _ | number _ => true
  | _ => false

/-- Two tokens that may follow each other without a blank. -/
def Apart (first second : Token) : Prop := ¬ (first.isWord = true ∧ second.isWord = true)

end Token

namespace Lexer
variable {lexer : Lexer} {done : List Token} {token : Token}

/-- The lexer is done with these tokens, the latest first. It may be in the middle of the latest. -/
inductive Holds : Lexer → List Token → Prop
  | between (done : List Token) : Holds ⟨.between, done⟩ done
  | word {letters : List Char} {token : Token} (done : List Token)
      (isWord : token.isWord = true) (h : wordToken? letters.reverse = some token) :
      Holds ⟨.word letters, done⟩ (token :: done)

theorem finish?_of_holds (h : lexer.Holds done) : lexer.finish? = some done.reverse := by
  cases h with
  | between => rfl
  | word done _ h => simp [finish?, h]

theorem run?_wordChars {word letters : List Char} (h : ∀ c ∈ word, isWordChar c = true) :
    run? ⟨.word letters, done⟩ word = some ⟨.word (word.reverse ++ letters), done⟩ := by
  induction word generalizing letters with
  | nil => rfl
  | cons c rest ih =>
    obtain ⟨hc, hrest⟩ := List.forall_mem_cons.mp h
    have hstep : step? ⟨.word letters, done⟩ c = some ⟨.word (c :: letters), done⟩ := if_pos hc
    rw [run?_cons hstep, ih hrest, List.reverse_cons, List.append_assoc, List.singleton_append]

theorem begin?_of_isWordChar {c : Char} (h : isWordChar c = true) :
    begin? done c = some ⟨.word [c], done⟩ := by
  have hblank : isBlank c = false := by
    by_contra hblank
    simp only [isBlank, Bool.not_eq_false, Bool.or_eq_true, decide_eq_true_eq] at hblank
    rcases hblank with ((rfl | rfl) | rfl) | rfl <;> exact absurd h (by decide)
  have hquote : c ≠ '"' := by
    rintro rfl
    exact absurd h (by decide)
  simp [begin?, hblank, hquote, h]

theorem run?_word {word : List Char} (hne : word ≠ []) (hchars : ∀ c ∈ word, isWordChar c = true) :
    run? ⟨.between, done⟩ word = some ⟨.word word.reverse, done⟩ := by
  cases word with
  | nil => exact absurd rfl hne
  | cons c rest =>
    obtain ⟨hc, hrest⟩ := List.forall_mem_cons.mp hchars
    have hstep : step? ⟨.between, done⟩ c = some ⟨.word [c], done⟩ := begin?_of_isWordChar hc
    rw [run?_cons hstep, run?_wordChars hrest, List.reverse_cons]

/-- A word is held as soon as its characters are taken. -/
theorem exists_run?_word {word : List Char} (hword : token.isWord = true)
    (hchars : ∀ c ∈ word, isWordChar c = true) (htoken : wordToken? word = some token) :
    ∃ next, run? ⟨.between, done⟩ word = some next ∧ next.Holds (token :: done) := by
  have hne : word ≠ [] := by
    rintro rfl
    cases htoken
  refine ⟨_, run?_word hne hchars, .word done hword ?_⟩
  rw [List.reverse_reverse]
  exact htoken

/-- A lexer that holds tokens and takes one that is not a word first finishes the latest. -/
theorem Holds.run?_chars (h : lexer.Holds done) (hword : token.isWord = false) :
    lexer.run? token.chars = run? ⟨.between, done⟩ token.chars := by
  cases h with
  | between => rfl
  | word done _ h =>
    cases token with
    | null | bool | number => cases hword
    | _ => simp [Token.chars, quote, run?, step?, h, isWordChar, isDigit]

/-- One more token is taken when it may follow the latest one. -/
theorem Holds.exists_run? (h : lexer.Holds done) (hr : token.Readable)
    (hapart : ∀ latest ∈ done.head?, latest.Apart token) :
    ∃ next, lexer.run? token.chars = some next ∧ next.Holds (token :: done) := by
  cases hword : token.isWord with
  | false =>
    rw [h.run?_chars hword]
    cases token with
    | null | bool | number => cases hword
    | string text =>
      obtain ⟨text, rfl⟩ := Option.isSome_iff_exists.mp hr
      exact ⟨_, run?_quote text, .between _⟩
    | _ => exact ⟨_, rfl, .between _⟩
  | true =>
    have hbetween : lexer = ⟨.between, done⟩ := by
      cases h with
      | between => rfl
      | word _ hlatest _ => exact absurd ⟨hlatest, hword⟩ (hapart _ rfl)
    subst hbetween
    cases token with
    | null => exact exists_run?_word hword (List.all_eq_true.mp rfl) rfl
    | bool b => cases b <;> exact exists_run?_word hword (List.all_eq_true.mp rfl) rfl
    | number n =>
      exact exists_run?_word hword (fun _ => isWordChar_of_mem_chars hr) (wordToken?_chars hr)
    | _ => cases hword

/-- A row of readable tokens is taken when no two words are side by side in it. -/
theorem Holds.exists_run?_flatMap {tokens : List Token} (h : lexer.Holds done)
    (hr : ∀ t ∈ tokens, t.Readable) (hapart : tokens.IsChain Token.Apart)
    (hfirst : ∀ latest ∈ done.head?, ∀ t ∈ tokens.head?, latest.Apart t) :
    ∃ next, lexer.run? (tokens.flatMap Token.chars) = some next ∧
      next.Holds (tokens.reverse ++ done) := by
  induction tokens generalizing lexer done with
  | nil => exact ⟨lexer, rfl, h⟩
  | cons token rest ih =>
    obtain ⟨htoken, hrest⟩ := List.forall_mem_cons.mp hr
    obtain ⟨hnext, hapart⟩ := List.isChain_cons.mp hapart
    obtain ⟨mid, hmid, hmidHolds⟩ := h.exists_run? htoken fun t ht => hfirst t ht token rfl
    have hlatest : ∀ latest ∈ (token :: done).head?, ∀ t ∈ rest.head?, latest.Apart t := by
      intro latest hlatest
      obtain rfl := Option.some.inj hlatest
      exact hnext
    obtain ⟨next, hrun, hholds⟩ := ih hmidHolds hrest hapart hlatest
    refine ⟨next, ?_, ?_⟩
    · rw [List.flatMap_cons, run?_append, hmid, Option.bind_some, hrun]
    · rwa [List.reverse_cons, List.append_assoc, List.singleton_append]

end Lexer

/-- The text of a row of readable tokens is read as that row. -/
theorem Token.scan?_flatMap_chars {tokens : List Token} (hr : ∀ t ∈ tokens, t.Readable)
    (hapart : tokens.IsChain Token.Apart) :
    Token.scan? (tokens.flatMap Token.chars) = some tokens := by
  obtain ⟨next, hrun, hholds⟩ :=
    (Lexer.Holds.between []).exists_run?_flatMap hr hapart (by simp)
  rw [List.append_nil] at hholds
  rw [Token.scan?, Lexer.start, hrun]
  exact (Lexer.finish?_of_holds hholds).trans (congrArg some tokens.reverse_reverse)

end BurstEnergy.Json
