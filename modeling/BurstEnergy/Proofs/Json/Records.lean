import Mathlib
import BurstEnergy.Json.Text

/-!
# What a record reader accepts

A value spells a record when it is an object that gives each field at most once, in any order and
beside members of other names, or an array of the first fields. The reader of entries accepts these
values and no others, so what it returns can be read off the value alone. The same is said of the
readers of numbers, words and lists.
-/
namespace BurstEnergy.Json
variable {β : Type} {members : List (Content × Value)} {name : String} {names : List String}
  {v : Value} {entry : Option Value} {entries : List (Option Value)}

/-- What members give for a name: nothing, or the value of the only one of that name. -/
inductive Gives (members : List (Content × Value)) (name : String) : Option Value → Prop
  | nothing (absent : ∀ m ∈ members, m.1 ≠ some name) : Gives members name none
  | value {before after : List (Content × Value)} {v : Value}
      (split : members = before ++ (some name, v) :: after)
      (only : ∀ m ∈ before ++ after, m.1 ≠ some name) : Gives members name (some v)

/-- A value that spells the entries of a record with the given names. -/
inductive Spells (names : List String) : Value → List (Option Value) → Prop
  | object {members : List (Content × Value)} {entries : List (Option Value)}
      (texts : ∀ m ∈ members, m.1.isSome = true)
      (given : List.Forall₂ (Gives members) names entries) : Spells names (.object members) entries
  | array {elements : List Value} {missing : ℕ}
      (length : elements.length + missing = names.length) :
      Spells names (.array elements) (elements.map some ++ List.replicate missing none)

/-- A value that spells a measured value. -/
def Measures (v : Value) (x : Float) : Prop := ∃ n, v = .number n ∧ n.toFloat? = some x

/-- A value that spells a count of at most `bits` bits: a whole number without a sign. -/
def Counts (bits : ℕ) (v : Value) (k : ℕ) : Prop :=
  ∃ n, v = .number n ∧ n.toNat? = some k ∧ k < 2 ^ bits

/-- A value that spells an alternative: its word, or an object of a lone null member of that
name. -/
def Words (code : β → String) (v : Value) (b : β) : Prop :=
  v = .string (some (code b)) ∨ v = .object [(some (code b), .null)]

/-! ## Members in any order -/

/-- What a list of members of different names holds for a name. -/
inductive Lists (given : List (String × Value)) (name : String) : Option Value → Prop
  | nothing (absent : name ∉ given.map (·.1)) : Lists given name none
  | value {v : Value} (mem : (name, v) ∈ given) : Lists given name (some v)

section Members
variable {members given added : List (String × Value)}

theorem gives_of_mem (hm : (name, v) ∈ members) (hone : (members.map (·.1)).count name = 1) :
    Gives (members.map fun (name, value) => (some name, value)) name (some v) := by
  obtain ⟨before, after, rfl⟩ := List.append_of_mem hm
  have hnone : name ∉ before.map (·.1) ∧ name ∉ after.map (·.1) := by
    simp only [List.map_append, List.map_cons, List.count_append, List.count_cons_self] at hone
    exact ⟨List.count_eq_zero.mp (by omega), List.count_eq_zero.mp (by omega)⟩
  rw [List.map_append, List.map_cons]
  refine .value rfl (List.forall_mem_append.mpr ⟨?_, ?_⟩)
  all_goals
    intro m hm
    obtain ⟨w, hw, rfl⟩ := List.mem_map.mp hm
    intro heq
    obtain rfl := Option.some.inj heq
  · exact hnone.1 (List.mem_map_of_mem hw)
  · exact hnone.2 (List.mem_map_of_mem hw)

theorem gives_of_not_mem (hm : name ∉ members.map (·.1)) :
    Gives (members.map fun (name, value) => (some name, value)) name none := by
  refine .nothing fun m hm' heq => ?_
  obtain ⟨w, hw, rfl⟩ := List.mem_map.mp hm'
  obtain rfl := Option.some.inj heq
  exact hm (List.mem_map_of_mem hw)

/-- What members give does not depend on their order, nor on members of other names. -/
theorem gives_of_perm (hp : members.Perm (given ++ added)) (hg : (given.map (·.1)).Nodup)
    (ha : name ∉ added.map (·.1)) (h : Lists given name entry) :
    Gives (members.map fun (name, value) => (some name, value)) name entry := by
  cases h with
  | nothing habsent =>
    refine gives_of_not_mem fun hm => ?_
    rw [(hp.map _).mem_iff, List.map_append, List.mem_append] at hm
    exact hm.elim habsent ha
  | value hm =>
    refine gives_of_mem (hp.mem_iff.mpr (List.mem_append_left _ hm)) ?_
    rw [(hp.map _).count_eq, List.map_append, List.count_append, List.count_eq_zero.mpr ha]
    exact List.count_eq_one_of_mem hg (List.mem_map_of_mem hm)

/-- Members of different names spell a record of just these names. -/
theorem spells_ofMembers (given : List (String × Value)) (hg : (given.map (·.1)).Nodup) :
    Spells (given.map (·.1)) (.ofMembers given) (given.map fun m => some m.2) := by
  refine .object ?_ ?_
  · intro m hm
    obtain ⟨w, -, rfl⟩ := List.mem_map.mp hm
    rfl
  · rw [List.forall₂_map_left_iff, List.forall₂_map_right_iff, List.forall₂_same]
    have hp : given.Perm (given ++ []) := by rw [List.append_nil]
    exact fun m hm => gives_of_perm hp hg (by simp) (.value hm)

end Members

theorem mapM_eq_some_iff {γ : Type} {read : γ → Option β} {xs : List γ} {ys : List β} :
    xs.mapM read = some ys ↔ List.Forall₂ (fun x y => read x = some y) xs ys := by
  induction xs generalizing ys with
  | nil => simp [eq_comm]
  | cons x rest ih =>
    rw [List.mapM_cons, List.forall₂_cons_left_iff]
    simp only [Option.bind_eq_bind, Option.bind_eq_some_iff, Option.pure_def, Option.some.injEq, ih]
    exact exists_congr fun y => by tauto

namespace Decode

theorem valuesNamed_eq_nil_iff :
    valuesNamed name members = [] ↔ ∀ m ∈ members, m.1 ≠ some name := by
  simp [valuesNamed]

theorem valuesNamed_eq_singleton_iff : valuesNamed name members = [v] ↔
    ∃ before after, members = before ++ (some name, v) :: after ∧
      ∀ m ∈ before ++ after, m.1 ≠ some name := by
  rw [valuesNamed, List.map_eq_cons_iff]
  constructor
  · rintro ⟨⟨key, w⟩, found, hfilter, rfl, hnone⟩
    obtain rfl := List.map_eq_nil_iff.mp hnone
    obtain ⟨before, after, rfl, hbefore, hkey, hafter⟩ := List.filter_eq_cons_iff.mp hfilter
    obtain rfl : key = some name := of_decide_eq_true hkey
    refine ⟨before, after, rfl, List.forall_mem_append.mpr ⟨fun m hm => ?_, fun m hm => ?_⟩⟩
    · simpa using hbefore m hm
    · simpa using List.filter_eq_nil_iff.mp hafter m hm
  · rintro ⟨before, after, rfl, honly⟩
    obtain ⟨hbefore, hafter⟩ := List.forall_mem_append.mp honly
    refine ⟨(some name, v), [], List.filter_eq_cons_iff.mpr ?_, rfl, rfl⟩
    refine ⟨before, after, rfl, fun m hm => by simpa using hbefore m hm, by simp, ?_⟩
    exact List.filter_eq_nil_iff.mpr fun m hm => by simpa using hafter m hm

theorem memberNamed?_eq_some_iff :
    memberNamed? members name = some entry ↔ Gives members name entry := by
  constructor
  · intro h
    unfold memberNamed? at h
    split at h
    · next hnone =>
      obtain rfl := Option.some.inj h
      exact .nothing (valuesNamed_eq_nil_iff.mp hnone)
    · next w hone =>
      obtain rfl := Option.some.inj h
      obtain ⟨before, after, hsplit, honly⟩ := valuesNamed_eq_singleton_iff.mp hone
      exact .value hsplit honly
    · cases h
  · intro h
    cases h with
    | nothing habsent => rw [memberNamed?, valuesNamed_eq_nil_iff.mpr habsent]
    | value hsplit honly =>
      rw [memberNamed?, valuesNamed_eq_singleton_iff.mpr ⟨_, _, hsplit, honly⟩]

theorem entriesInOrder?_eq_some_iff {elements : List Value} :
    entriesInOrder? names elements = some entries ↔
      ∃ missing, elements.length + missing = names.length ∧
        entries = elements.map some ++ List.replicate missing none := by
  unfold entriesInOrder?
  split
  · next hle =>
    constructor
    · intro h
      exact ⟨_, Nat.add_sub_cancel' hle, (Option.some.inj h).symm⟩
    · rintro ⟨missing, hlength, rfl⟩
      rw [← hlength, Nat.add_sub_cancel_left]
  · next hle =>
    refine iff_of_false nofun ?_
    rintro ⟨missing, hlength, -⟩
    omega

theorem entriesByName?_eq_some_iff : entriesByName? names members = some entries ↔
    (∀ m ∈ members, m.1.isSome = true) ∧ List.Forall₂ (Gives members) names entries := by
  simp [entriesByName?, mapM_eq_some_iff, memberNamed?_eq_some_iff]

/-- The reader of entries accepts just the values that spell a record. -/
theorem entries?_eq_some_iff : entries? names v = some entries ↔ Spells names v entries := by
  constructor
  · intro h
    cases v with
    | array elements =>
      obtain ⟨missing, hlength, rfl⟩ := entriesInOrder?_eq_some_iff.mp h
      exact .array hlength
    | object members =>
      obtain ⟨htexts, hgiven⟩ := entriesByName?_eq_some_iff.mp h
      exact .object htexts hgiven
    | _ => cases h
  · intro h
    cases h with
    | object htexts hgiven => exact entriesByName?_eq_some_iff.mpr ⟨htexts, hgiven⟩
    | array hlength => exact entriesInOrder?_eq_some_iff.mpr ⟨_, hlength, rfl⟩

theorem real_eq_some_iff {x : Float} : real v = some x ↔ Measures v x := by
  cases v <;> simp [real, Measures]

theorem count_eq_some_iff {bits k : ℕ} : count bits v = some k ↔ Counts bits v k := by
  cases v <;> simp [count, Counts, Option.filter_eq_some_iff]

theorem bool_eq_some_iff {b : Bool} : bool v = some b ↔ v = .bool b := by
  cases v <;> simp [bool]

theorem required_eq_some_iff {decoder : Decoder β} {b : β} :
    required decoder entry = some b ↔ ∃ w, entry = some w ∧ decoder w = some b :=
  Option.bind_eq_some_iff

theorem defaulted_eq_some_iff {standard b : β} {decoder : Decoder β} :
    defaulted standard decoder entry = some b ↔
      entry = none ∧ b = standard ∨ ∃ w, entry = some w ∧ decoder w = some b := by
  cases entry <;> simp [defaulted, eq_comm]

theorem list_eq_some_iff {decoder : Decoder β} {spelled : Value → β → Prop}
    (h : ∀ {w x}, decoder w = some x ↔ spelled w x) {xs : List β} :
    list decoder v = some xs ↔ ∃ elements, v = .array elements ∧
      List.Forall₂ spelled elements xs := by
  have hspelled : (fun w x => decoder w = some x) = spelled := by
    ext w x
    exact h
  cases v <;> simp [list, mapM_eq_some_iff, hspelled]

theorem choice_eq_some_iff {code : β → String} {alternatives : List β}
    (hinj : Function.Injective code) (hall : ∀ b, b ∈ alternatives) {b : β} :
    choice code alternatives v = some b ↔ Words code v b := by
  have hcode {word : String} {c : β}
      (h : alternatives.find? (fun c => code c = word) = some c) : code c = word := by
    simpa using List.find?_some h
  have hfind {word : String} :
      alternatives.find? (fun c => code c = word) = some b ↔ word = code b := by
    refine ⟨fun h => (hcode h).symm, ?_⟩
    rintro rfl
    have hsome : (alternatives.find? fun c => code c = code b).isSome = true :=
      List.find?_isSome.mpr ⟨b, hall b, by simp⟩
    obtain ⟨c, hc⟩ := Option.isSome_iff_exists.mp hsome
    rw [hc, hinj (hcode hc)]
  unfold choice Words
  split
  · next word => simp [hfind]
  · next word => simp [hfind]
  · next hword hmember =>
    refine iff_of_false nofun ?_
    rintro (rfl | rfl)
    · exact hword _ rfl
    · exact hmember _ rfl

end Decode
end BurstEnergy.Json
