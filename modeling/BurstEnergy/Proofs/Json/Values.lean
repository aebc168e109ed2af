import BurstEnergy.Proofs.Json.Records
import BurstEnergy.Proofs.Json.Texts

/-!
# Values and objects in texts

Values are read back from their texts, and records from rearranged objects.
-/
namespace BurstEnergy.Json

/-! ## Written values are read back

The tokens of a value are read as that value wherever a value is due, so the text of a value that
can be written is the text of no other: its numerals are well formed and its strings have a text.
-/
namespace Value

/-- A value whose text is read as that value. -/
def Writable (v : Value) : Prop := ∀ t ∈ v.tokens, t.Readable

/-! ## Tokens of a value -/

theorem head?_elementTokens (elements : List Value) :
    ∀ t ∈ (elementTokens elements).head?, t.isWord = false := by
  cases elements <;> simp [elementTokens, Token.isWord]

theorem head?_memberTokens (members : List (Content × Value)) :
    ∀ t ∈ (memberTokens members).head?, t.isWord = false := by
  cases members <;> simp [memberTokens, Token.isWord]

end Value

namespace Token
variable {token : Token} {front back tokens : List Token}

theorem apart_left (h : token.isWord = false) (next : Token) : token.Apart next :=
  fun both => by simp [h] at both

theorem isChain_cons_of_not_word (h : token.isWord = false) (ht : tokens.IsChain Apart) :
    (token :: tokens).IsChain Apart :=
  ht.cons fun next _ => apart_left h next

theorem isChain_append_of_not_word (hfront : front.IsChain Apart) (hback : back.IsChain Apart)
    (h : ∀ t ∈ back.head?, t.isWord = false) : (front ++ back).IsChain Apart :=
  hfront.append hback fun _ _ next hnext both => by simp [h next hnext] at both

end Token

namespace Value
open Token (isChain_cons_of_not_word isChain_append_of_not_word)

mutual

/-- No two words are side by side in the tokens of a value. -/
theorem isChain_tokens : (v : Value) → v.tokens.IsChain Token.Apart
  | .null | .bool _ | .number _ | .string _ => .singleton _
  | .array [] => isChain_cons_of_not_word rfl (.singleton _)
  | .object [] => isChain_cons_of_not_word rfl (.singleton _)
  | .array (v :: rest) => by
    rw [tokens]
    exact isChain_cons_of_not_word rfl
      (isChain_append_of_not_word (isChain_tokens v) (isChain_elementTokens rest)
        (head?_elementTokens rest))
  | .object ((name, v) :: rest) => by
    rw [tokens]
    exact isChain_cons_of_not_word rfl <| isChain_cons_of_not_word rfl <|
      isChain_cons_of_not_word rfl
        (isChain_append_of_not_word (isChain_tokens v) (isChain_memberTokens rest)
          (head?_memberTokens rest))

theorem isChain_elementTokens : (elements : List Value) →
    (elementTokens elements).IsChain Token.Apart
  | [] => .singleton _
  | v :: rest => by
    rw [elementTokens]
    exact isChain_cons_of_not_word rfl
      (isChain_append_of_not_word (isChain_tokens v) (isChain_elementTokens rest)
        (head?_elementTokens rest))

theorem isChain_memberTokens : (members : List (Content × Value)) →
    (memberTokens members).IsChain Token.Apart
  | [] => .singleton _
  | (name, v) :: rest => by
    rw [memberTokens]
    exact isChain_cons_of_not_word rfl <| isChain_cons_of_not_word rfl <|
      isChain_cons_of_not_word rfl
        (isChain_append_of_not_word (isChain_tokens v) (isChain_memberTokens rest)
          (head?_memberTokens rest))

end

end Value

/-! ## Reading the tokens of a value -/

namespace Reader

theorem run?_cons {reader next : Reader} {token : Token} (h : reader.step? token = some next)
    (rest : List Token) : reader.run? (token :: rest) = next.run? rest := by
  rw [run?, h]

/-- The first value of an array is read as any further one. -/
theorem run?_firstElement (frames : List Frame) (v : Value) :
    run? (.firstElement frames) v.tokens = run? (.due (.array [] :: frames)) v.tokens := by
  rcases v with _ | _ | _ | _ | (_ | _) | (_ | ⟨⟨_, _⟩, _⟩) <;> rfl

mutual

/-- The tokens of a value are read as that value, inside whatever is open. -/
theorem run?_tokens : (v : Value) → (frames : List Frame) →
    run? (.due frames) v.tokens = some (place v frames)
  | .null, _ | .bool _, _ | .number _, _ | .string _, _ => rfl
  | .array [], _ => rfl
  | .object [], _ => rfl
  | .array (v :: rest), frames => by
    have hopen : step? (.due frames) .openArray = some (.firstElement frames) := rfl
    rw [Value.tokens, List.cons_append, run?_cons hopen, run?_append, run?_firstElement,
      run?_tokens v, Option.bind_some]
    exact run?_elementTokens rest [v] frames
  | .object ((name, v) :: rest), frames => by
    have hopen : step? (.due frames) .openObject = some (.firstName frames) := rfl
    have hname : step? (.firstName frames) (.string name) = some (.colon name [] frames) := rfl
    have hcolon : step? (.colon name [] frames) .colon = some (.due (.object name [] :: frames)) :=
      rfl
    rw [Value.tokens, List.cons_append, run?_cons hopen, List.cons_append, run?_cons hname,
      List.cons_append, run?_cons hcolon, run?_append, run?_tokens v, Option.bind_some]
    exact run?_memberTokens rest [(name, v)] frames

theorem run?_elementTokens : (elements held : List Value) → (frames : List Frame) →
    run? (.afterElement held frames) (Value.elementTokens elements) =
      some (place (.array (held.reverse ++ elements)) frames)
  | [], held, frames => by
    rw [Value.elementTokens, List.append_nil]
    rfl
  | v :: rest, held, frames => by
    have hcomma : step? (.afterElement held frames) .comma = some (.due (.array held :: frames)) :=
      rfl
    rw [Value.elementTokens, List.cons_append, run?_cons hcomma, run?_append, run?_tokens v,
      Option.bind_some, List.append_cons, ← List.reverse_cons]
    exact run?_elementTokens rest (v :: held) frames

theorem run?_memberTokens : (members held : List (Content × Value)) → (frames : List Frame) →
    run? (.afterMember held frames) (Value.memberTokens members) =
      some (place (.object (held.reverse ++ members)) frames)
  | [], held, frames => by
    rw [Value.memberTokens, List.append_nil]
    rfl
  | (name, v) :: rest, held, frames => by
    have hcomma : step? (.afterMember held frames) .comma = some (.nextName held frames) := rfl
    have hname : step? (.nextName held frames) (.string name) = some (.colon name held frames) :=
      rfl
    have hcolon : step? (.colon name held frames) .colon =
        some (.due (.object name held :: frames)) := rfl
    rw [Value.memberTokens, List.cons_append, run?_cons hcomma, List.cons_append, run?_cons hname,
      List.cons_append, run?_cons hcolon, run?_append, run?_tokens v, Option.bind_some,
      List.append_cons, ← List.reverse_cons]
    exact run?_memberTokens rest ((name, v) :: held) frames

end

end Reader

theorem Value.ofTokens?_tokens (v : Value) : Value.ofTokens? v.tokens = some v := by
  rw [ofTokens?, Reader.run?_tokens]
  rfl

/-- The text of a value is read as that value. -/
theorem Value.parse?_compact {v : Value} (h : v.Writable) : Value.parse? v.compact = some v := by
  rw [parse?, compact, String.toList_ofList, Token.scan?_flatMap_chars h v.isChain_tokens]
  exact v.ofTokens?_tokens

/-! ## Values that can be written -/

namespace Value
variable {elements : List Value} {members : List (Content × Value)}

@[simp] theorem writable_null : Writable .null := by simp [Writable, tokens, Token.Readable]

@[simp] theorem writable_bool (b : Bool) : Writable (.bool b) := by
  simp [Writable, tokens, Token.Readable]

theorem writable_number {n : Decimal.Numeral} (h : n.WellFormed) : Writable (.number n) := by
  simpa [Writable, tokens, Token.Readable] using h

@[simp] theorem writable_ofString (text : String) : (ofString text).Writable := by
  simp [Writable, ofString, tokens, Token.Readable]

@[simp] theorem writable_ofNat (k : ℕ) : (ofNat k).Writable := writable_number (wellFormed_ofNat k)

@[simp] theorem writable_ofFloat (x : Float) : (ofFloat x).Writable := by
  unfold ofFloat
  split
  · next hn => exact writable_number (wellFormed_of_numeral? hn)
  · exact writable_null

theorem readable_elementTokens (h : ∀ v ∈ elements, v.Writable) :
    ∀ t ∈ elementTokens elements, t.Readable := by
  induction elements with
  | nil => simp [elementTokens, Token.Readable]
  | cons v rest ih =>
    obtain ⟨hv, hrest⟩ := List.forall_mem_cons.mp h
    rw [elementTokens, List.cons_append, List.forall_mem_cons, List.forall_mem_append]
    exact ⟨trivial, hv, ih hrest⟩

theorem readable_memberTokens (h : ∀ m ∈ members, m.1.isSome = true ∧ m.2.Writable) :
    ∀ t ∈ memberTokens members, t.Readable := by
  induction members with
  | nil => simp [memberTokens, Token.Readable]
  | cons m rest ih =>
    obtain ⟨⟨hname, hv⟩, hrest⟩ := List.forall_mem_cons.mp h
    simp only [memberTokens, List.cons_append, List.forall_mem_cons, List.forall_mem_append]
    exact ⟨trivial, hname, trivial, hv, ih hrest⟩

theorem writable_array (h : ∀ v ∈ elements, v.Writable) : Writable (.array elements) := by
  cases elements with
  | nil => simp [Writable, tokens, Token.Readable]
  | cons v rest =>
    obtain ⟨hv, hrest⟩ := List.forall_mem_cons.mp h
    rw [Writable, tokens, List.cons_append, List.forall_mem_cons, List.forall_mem_append]
    exact ⟨trivial, hv, readable_elementTokens hrest⟩

theorem writable_object (h : ∀ m ∈ members, m.1.isSome = true ∧ m.2.Writable) :
    Writable (.object members) := by
  cases members with
  | nil => simp [Writable, tokens, Token.Readable]
  | cons m rest =>
    obtain ⟨⟨hname, hv⟩, hrest⟩ := List.forall_mem_cons.mp h
    simp only [Writable, tokens, List.cons_append, List.forall_mem_cons, List.forall_mem_append]
    exact ⟨trivial, hname, trivial, hv, readable_memberTokens hrest⟩

theorem writable_ofList {β : Type} {write : β → Value} {xs : List β}
    (h : ∀ x ∈ xs, (write x).Writable) : (ofList write xs).Writable :=
  writable_array (List.forall_mem_map.mpr h)

theorem writable_ofMembers {members : List (String × Value)} (h : ∀ m ∈ members, m.2.Writable) :
    (ofMembers members).Writable :=
  writable_object (List.forall_mem_map.mpr fun m hm => ⟨rfl, h m hm⟩)

end Value

/-! ## Written numbers and words -/

/-- The text of a measured value is read as that value. Readers of this form round twice, so this
is a condition on the value. -/
def ReadsBack (x : Float) : Prop :=
  Decoder.ofText? Decode.real (Value.ofFloat x).compact = some x

instance (x : Float) : Decidable (ReadsBack x) := inferInstanceAs (Decidable (_ = _))

theorem readsBack_iff {x : Float} : ReadsBack x ↔ Measures (.ofFloat x) x := by
  rw [ReadsBack, Decoder.ofText?, Value.parse?_compact (Value.writable_ofFloat x),
    Option.bind_some, Decode.real_eq_some_iff]

theorem counts_ofNat {bits k : ℕ} (h : k < 2 ^ bits) : Counts bits (.ofNat k) k :=
  ⟨_, rfl, toNat?_ofNat k, h⟩

/-! ## Objects written another way

The members of an object may stand in any order, and members that a reader does not know may stand
among them. A record is spelled by such an object as by the one it was.
-/
section Rearrangements
variable {v : Value} {name : String} {names known : List String} {entries : List (Option Value)}
  {given : List (String × Value)} {levels : ℕ}

/-- A value without any inside it: a string, a truth value, or null. -/
inductive Value.Plain : Value → Prop
  | null : Plain .null
  | bool (b : Bool) : Plain (.bool b)
  | text (s : String) : Plain (.ofString s)

/-- An object of the given members in any order, among plain ones whose names are not known. -/
def Rearranges (known : List String) (given : List (String × Value)) (v : Value) : Prop :=
  ∃ members added, v = .ofMembers members ∧ members.Perm (given ++ added) ∧
    ∀ m ∈ added, m.1 ∉ known ∧ m.2.Plain

theorem Value.Plain.writable (h : v.Plain) : v.Writable := by
  cases h with
  | null => exact writable_null
  | bool b => exact writable_bool b
  | text s => exact writable_ofString s

theorem Value.Plain.keepable (h : v.Plain) : v.keepable levels = true := by
  cases h <;> cases levels <;> rfl

theorem Value.keepableMembers_iff {members : List (Content × Value)} :
    keepableMembers levels members = true ↔
      ∀ m ∈ members, m.1.isSome = true ∧ m.2.keepable levels = true := by
  induction members with
  | nil => simp [keepableMembers]
  | cons m rest ih => simp [keepableMembers, ih]

namespace Rearranges

theorem refl (known : List String) (given : List (String × Value)) :
    Rearranges known given (.ofMembers given) :=
  ⟨given, [], rfl, by rw [List.append_nil], List.forall_mem_nil _⟩

theorem writable (h : Rearranges known given v) (hg : ∀ m ∈ given, m.2.Writable) : v.Writable := by
  obtain ⟨members, added, rfl, hperm, hadded⟩ := h
  refine Value.writable_ofMembers fun m hm => ?_
  rcases List.mem_append.mp (hperm.mem_iff.mp hm) with hm | hm
  · exact hg m hm
  · exact (hadded m hm).2.writable

theorem keepable (h : Rearranges known given v) (hg : ∀ m ∈ given, m.2.keepable levels = true) :
    ∃ members, v = .object members ∧ Value.keepableMembers levels members = true := by
  obtain ⟨members, added, rfl, hperm, hadded⟩ := h
  refine ⟨_, rfl, Value.keepableMembers_iff.mpr (List.forall_mem_map.mpr fun m hm => ⟨rfl, ?_⟩)⟩
  rcases List.mem_append.mp (hperm.mem_iff.mp hm) with hm | hm
  · exact hg m hm
  · exact (hadded m hm).2.keepable

/-- A record is spelled by the members that are given, wherever they stand. -/
theorem spells (h : Rearranges known given v) (hg : (given.map (·.1)).Nodup)
    (hknown : ∀ name ∈ names, name ∈ known)
    (hentries : List.Forall₂ (Lists given) names entries) : Spells names v entries := by
  obtain ⟨members, added, rfl, hperm, hadded⟩ := h
  refine .object ?_ ?_
  · intro m hm
    obtain ⟨w, -, rfl⟩ := List.mem_map.mp hm
    rfl
  · refine ((List.forall₂_and_left _ _).mpr ⟨hknown, hentries⟩).imp fun name entry hentry => ?_
    obtain ⟨hname, hlists⟩ := hentry
    refine gives_of_perm hperm hg (fun hm => ?_) hlists
    obtain ⟨m, hmem, rfl⟩ := List.mem_map.mp hm
    exact (hadded m hmem).1 hname

theorem take {w : Value} (h : Rearranges (name :: known) ((name, w) :: given) v)
    (hg : (((name, w) :: given).map (·.1)).Nodup) : ∃ members, v = .object members ∧
      Decode.memberNamed? members name = some (some w) ∧
      Rearranges known given (.object (members.filter (·.1 ≠ some name))) := by
  obtain ⟨members, added, rfl, hperm, hadded⟩ := h
  have hnone : name ∉ given.map (·.1) := (List.nodup_cons.mp hg).1
  have hgiven : ∀ m ∈ given, m.1 ≠ name := by
    rintro m hm rfl
    exact hnone (List.mem_map_of_mem hm)
  have hothers : ∀ m ∈ added, m.1 ≠ name := fun m hm heq =>
    (hadded m hm).1 (heq ▸ List.mem_cons_self)
  refine ⟨_, rfl, Decode.memberNamed?_eq_some_iff.mpr ?_, members.filter (·.1 ≠ name), added, ?_,
    ?_, fun m hm =>
      ⟨fun hknown => (hadded m hm).1 (List.mem_cons_of_mem _ hknown), (hadded m hm).2⟩⟩
  · refine gives_of_perm hperm hg (fun hm => ?_) (.value List.mem_cons_self)
    obtain ⟨m, hm, heq⟩ := List.mem_map.mp hm
    exact hothers m hm heq
  · simp [Value.ofMembers, List.filter_map, Function.comp_def]
  · have hkeep : (given ++ added).filter (·.1 ≠ name) = given ++ added := by
      refine List.filter_eq_self.mpr fun m hm => decide_eq_true ?_
      exact (List.mem_append.mp hm).elim (hgiven m) (hothers m)
    have hfilter := hperm.filter (·.1 ≠ name)
    rwa [List.cons_append, List.filter_cons_of_neg (by simp), hkeep] at hfilter

end Rearranges

end Rearrangements

end BurstEnergy.Json
