import BurstEnergy.Document.Profile
import BurstEnergy.Proofs.Json.Values
import BurstEnergy.Proofs.Profile.Validation

/-!
# Profile documents are read back, with defaults for what is missing

A profile document may be written with its members in any order, among members nobody knows, and
without some of its fields. Reading it gives the profile with the standard values of their sections
in place of the fields left out, and that profile passes its checks as the whole one did.
-/
namespace BurstEnergy
open Json

namespace Profile

/-! ## What is left out -/

/-- The members that stay when those with some names are dropped. -/
def kept (dropped : String → Bool) (members : List (String × Value)) : List (String × Value) :=
  members.filter fun m => !dropped m.1

/-- What a profile document leaves out: the name, the thresholds as a whole, or fields of the
thresholds and of the radio section by their names. -/
structure Omission where
  name : Bool
  thresholds : Bool
  thresholdFields : String → Bool
  radioFields : String → Bool

def Omission.nothing : Omission := ⟨false, false, fun _ => false, fun _ => false⟩

def Thresholds.filled (t : Thresholds Float) (o : Omission) : Thresholds Float :=
  if o.thresholds then .standard else Field.copyChosen o.thresholdFields .standard t fields

def RadioModel.filled (o : Omission) : RadioModel Float → RadioModel Float
  | umts r => umts (Field.copyChosen o.radioFields .standard r UmtsRadio.fields)
  | lte r => lte (Field.copyChosen o.radioFields .standard r LteRadio.fields)
  | wifi r => wifi (Field.copyChosen o.radioFields .standard r WifiRadio.fields)

/-- The profile with standard values for what is left out. -/
def filled (profile : Profile Float) (o : Omission) : Profile Float where
  name := if o.name then "" else profile.name
  thresholds := profile.thresholds.filled o
  radio := profile.radio.filled o

/-- The document of a profile written another way: the members of each object in any order, among
plain members of unknown names, and without what is left out. -/
def Rewritten (profile : Profile Float) (o : Omission) (v : Value) : Prop :=
  ∃ thresholds radio,
    Rearranges ((Field.members Thresholds.fields profile.thresholds).map (·.1))
      (kept o.thresholdFields (Field.members Thresholds.fields profile.thresholds)) thresholds ∧
    Rearranges (RadioModel.tagName :: profile.radio.members.map (·.1))
      ((RadioModel.tagName, .ofString profile.radio.code) ::
        kept o.radioFields profile.radio.members) radio ∧
    Rearranges ["name", "thresholds", "radio"]
      ((if o.name then [] else [("name", .ofString profile.name)])
        ++ (if o.thresholds then [] else [("thresholds", thresholds)]) ++ [("radio", radio)]) v

/-! ## Sections -/

namespace Field
variable {ρ : Type} {f : Field ρ Float} {fields : List (Field ρ Float)} {record standard r s : ρ}
  {dropped : String → Bool} {v : Value}

/-- The text of an entry is read as that entry, if it is a finite value or a count of 64 bits. -/
def ReadsBack (f : Field ρ Float) (record : ρ) : Prop :=
  match f.access with
  | .real get _ => (get record).isFinite = true → Json.ReadsBack (get record)
  | .count get _ => get record < 2 ^ 64

instance (f : Field ρ Float) (record : ρ) : Decidable (f.ReadsBack record) :=
  match f with
  | ⟨_, .real get _⟩ =>
    inferInstanceAs (Decidable ((get record).isFinite = true → Json.ReadsBack (get record)))
  | ⟨_, .count get _⟩ => inferInstanceAs (Decidable (get record < 2 ^ 64))

theorem check_congr (h : f.Agrees r s) : f.check r = f.check s := by
  obtain ⟨name, access⟩ := f
  cases access with
  | real get set => exact congrArg (checkValue name) h
  | count get set => rfl

/-- An entry that was written is put back as it was. -/
theorem put?_toJson (hf : f.ReadsBack record) (hcheck : f.check record = .ok ()) (target : ρ) :
    f.put? (f.toJson record) target = some (f.copy record target) := by
  obtain ⟨name, access⟩ := f
  cases access with
  | real get set =>
    have hfinite := (checkValue_eq_ok_iff.mp hcheck).1
    have hread := Decode.real_eq_some_iff.mpr (readsBack_iff.mp (hf hfinite))
    simp [put?, toJson, copy, hread]
  | count get set =>
    have hread := Decode.count_eq_some_iff.mpr (counts_ofNat hf)
    simp [put?, toJson, copy, hread]

theorem writable_toJson (f : Field ρ Float) (record : ρ) : (f.toJson record).Writable := by
  unfold toJson
  split
  · exact Value.writable_ofFloat _
  · exact Value.writable_ofNat _

theorem mem_kept_members {m : String × Value} (hm : m ∈ kept dropped (members fields record)) :
    ∃ f ∈ fields, dropped f.name = false ∧ m = (f.name, f.toJson record) := by
  obtain ⟨hm, hkept⟩ := List.mem_filter.mp hm
  obtain ⟨f, hf, rfl⟩ := List.mem_map.mp hm
  exact ⟨f, hf, by simpa using hkept, rfl⟩

theorem map_name_members (fields : List (Field ρ Float)) (record : ρ) :
    (members fields record).map (·.1) = fields.map (·.name) := by
  simp [members]

theorem nodup_kept_members (h : MakeUp fields) :
    ((kept dropped (members fields record)).map (·.1)).Nodup := by
  have hnames : ((members fields record).map (·.1)).Nodup := by
    rw [map_name_members]
    exact h.names
  exact hnames.sublist (List.filter_sublist.map _)

/-- The members that stay hold the entries that were not dropped. -/
theorem lists_kept_members (fields : List (Field ρ Float)) (record : ρ)
    (dropped : String → Bool) :
    List.Forall₂ (Lists (kept dropped (members fields record))) (fields.map (·.name))
      (fields.map fun f => if dropped f.name then none else some (f.toJson record)) := by
  rw [List.forall₂_map_left_iff, List.forall₂_map_right_iff, List.forall₂_same]
  intro f hf
  cases hname : dropped f.name with
  | true =>
    refine .nothing fun hm => ?_
    obtain ⟨m, hm, heq⟩ := List.mem_map.mp hm
    obtain ⟨g, -, hkept, rfl⟩ := mem_kept_members hm
    rw [← heq, hkept] at hname
    cases hname
  | false => exact .value (List.mem_filter.mpr ⟨List.mem_map_of_mem hf, by simp [hname]⟩)

/-- The entries that were not dropped are put over the standard ones. -/
theorem putAll?_kept (hread : ∀ f ∈ fields, ∀ target,
    f.put? (f.toJson record) target = some (f.copy record target)) (target : ρ) :
    putAll? target (fields.map fun f =>
        (f, if dropped f.name then none else some (f.toJson record))) =
      some (copyChosen (fun name => !dropped name) record target fields) := by
  induction fields generalizing target with
  | nil => rfl
  | cons f rest ih =>
    obtain ⟨hf, hrest⟩ := List.forall_mem_cons.mp hread
    rw [List.map_cons, copyChosen]
    cases hname : dropped f.name with
    | true => exact ih hrest target
    | false => simpa [putAll?, hf] using ih hrest (f.copy record target)

/-- A section that leaves fields out is read with their standard values. -/
theorem read?_of_rearranges (h : MakeUp fields) (hread : ∀ f ∈ fields, f.ReadsBack record)
    (hcheck : ∀ f ∈ fields, f.check record = .ok ())
    (hv : Rearranges ((members fields record).map (·.1)) (kept dropped (members fields record)) v) :
    Field.read? fields standard v = some (copyChosen dropped standard record fields) := by
  rw [map_name_members] at hv
  have hspells := hv.spells (nodup_kept_members h) (fun _ => id)
    (lists_kept_members fields record dropped)
  have hput : ∀ f ∈ fields, ∀ target,
      f.put? (f.toJson record) target = some (f.copy record target) :=
    fun f hf => put?_toJson (hread f hf) (hcheck f hf)
  rw [read?, Decode.entries?_eq_some_iff.mpr hspells, ← h.copyChosen_not, ← putAll?_kept hput,
    List.map_prod_left_eq_zip]
  rfl

/-- A section that leaves fields out passes the checks the whole one and the standard one pass. -/
theorem MakeUp.check_copyChosen (h : MakeUp fields) (hr : ∀ f ∈ fields, f.check record = .ok ())
    (hs : ∀ f ∈ fields, f.check standard = .ok ()) :
    ∀ f ∈ fields, f.check (copyChosen dropped standard record fields) = .ok () := by
  intro f hf
  rw [check_congr (h.agrees_copyChosen hf)]
  split
  · exact hs f hf
  · exact hr f hf

def isReal (f : Field ρ Float) : Bool :=
  match f.access with
  | .real .. => true
  | .count .. => false

theorem keepable_toJson (hf : f.ReadsBack record) (hcheck : f.check record = .ok ())
    (hreal : f.isReal = true) (levels : ℕ) : (f.toJson record).keepable levels = true := by
  obtain ⟨name, access⟩ := f
  cases access with
  | real get set =>
    have hfinite := (checkValue_eq_ok_iff.mp hcheck).1
    obtain ⟨n, hvalue, hn⟩ := readsBack_iff.mp (hf hfinite)
    simp [toJson, hvalue, Value.keepable, hn]
  | count get set => cases hreal

end Field

namespace Thresholds
variable {t : Thresholds Float} {o : Omission} {v : Value}

theorem validate_filled (h : t.validate = .ok ()) : (t.filled o).validate = .ok () := by
  have hstandard : (standard : Thresholds Float).validate = .ok () := by decide +kernel
  unfold filled
  split
  · exact hstandard
  · obtain ⟨hfields, hsamples, hsize, hwindow⟩ := validate_eq_ok_iff.mp h
    obtain ⟨hsfields, hssamples, hssize, hswindow⟩ := validate_eq_ok_iff.mp hstandard
    have hagrees (f : Field (Thresholds Float) Float) (hf : f ∈ fields) :
        f.Agrees (Field.copyChosen o.thresholdFields standard t fields)
          (if o.thresholdFields f.name then standard else t) := makeUp.agrees_copyChosen hf
    refine validate_eq_ok_iff.mpr ⟨makeUp.check_copyChosen hfields hsfields, ?_⟩
    generalize Field.copyChosen o.thresholdFields standard t fields = result at hagrees ⊢
    simp only [fields, List.forall_mem_cons, Field.real, Field.count, Field.Agrees] at hagrees
    obtain ⟨-, -, -, -, -, hrsamples, -, -, hrwindow, hrsize, -⟩ := hagrees
    rw [hrsamples, hrsize, hrwindow]
    refine ⟨?_, ?_, ?_⟩ <;> split <;> assumption

theorem ofJson?_filled (hread : ∀ f ∈ fields, f.ReadsBack t) (h : t.validate = .ok ())
    (hv : Rearranges ((Field.members fields t).map (·.1))
      (kept o.thresholdFields (Field.members fields t)) v) (ho : o.thresholds = false) :
    ofJson? v = some (t.filled o) := by
  rw [ofJson?, Field.read?_of_rearranges makeUp hread (validate_eq_ok_iff.mp h).1 hv, filled, ho]
  rfl

end Thresholds

namespace RadioModel
variable {ρ : Type} {fields : List (Field ρ Float)} {record : ρ} {radio : RadioModel Float}
  {o : Omission} {v : Value} {dropped : String → Bool} {code : String}

/-- The texts of the entries of a radio section are read as these entries. -/
def ReadsBack : RadioModel Float → Prop
  | umts r => ∀ f ∈ UmtsRadio.fields, f.ReadsBack r
  | lte r => ∀ f ∈ LteRadio.fields, f.ReadsBack r
  | wifi r => ∀ f ∈ WifiRadio.fields, f.ReadsBack r

instance : (radio : RadioModel Float) → Decidable radio.ReadsBack
  | umts r => inferInstanceAs (Decidable (∀ f ∈ UmtsRadio.fields, f.ReadsBack r))
  | lte r => inferInstanceAs (Decidable (∀ f ∈ LteRadio.fields, f.ReadsBack r))
  | wifi r => inferInstanceAs (Decidable (∀ f ∈ WifiRadio.fields, f.ReadsBack r))

/-- The tag of a radio section is found wherever it stands, and the other members make up the
record that it announces. -/
theorem ofJson?_of_rearranges (h : Field.MakeUp fields) (htag : tagName ∉ fields.map (·.name))
    (hreal : ∀ f ∈ fields, f.isReal = true) (hread : ∀ f ∈ fields, f.ReadsBack record)
    (hcheck : ∀ f ∈ fields, f.check record = .ok ())
    (hv : Rearranges (tagName :: (Field.members fields record).map (·.1))
      ((tagName, .ofString code) :: kept dropped (Field.members fields record)) v) (standard : ρ) :
    ∃ w, ofJson? v = ofTagged? code w ∧
      Field.read? fields standard w = some (Field.copyChosen dropped standard record fields) := by
  have hnodup : (((tagName, Value.ofString code) ::
      kept dropped (Field.members fields record)).map (·.1)).Nodup := by
    refine List.nodup_cons.mpr ⟨fun hm => htag ?_, Field.nodup_kept_members h⟩
    obtain ⟨m, hm, heq⟩ := List.mem_map.mp hm
    obtain ⟨f, hf, -, rfl⟩ := Field.mem_kept_members hm
    have hname : f.name = tagName := heq
    exact hname ▸ List.mem_map_of_mem hf
  obtain ⟨members, rfl, htagged, hrest⟩ := hv.take hnodup
  have hkeepable : ∀ m ∈ kept dropped (Field.members fields record),
      m.2.keepable keptLevels = true := by
    intro m hm
    obtain ⟨f, hf, -, rfl⟩ := Field.mem_kept_members hm
    exact Field.keepable_toJson (hread f hf) (hcheck f hf) (hreal f hf) keptLevels
  obtain ⟨others, hothers, hkeep⟩ := hrest.keepable hkeepable
  obtain rfl := Value.object.inj hothers
  refine ⟨_, ?_, Field.read?_of_rearranges h hread hcheck hrest⟩
  simp only [ofJson?, htagged, Decode.required, Decode.text, Value.ofString, hkeep,
    Option.bind_eq_bind, Option.bind_some, ↓reduceIte]

theorem ofJson?_filled (hread : radio.ReadsBack) (h : radio.validate = .ok ())
    (hv : Rearranges (tagName :: radio.members.map (·.1))
      ((tagName, .ofString radio.code) :: kept o.radioFields radio.members) v) :
    ofJson? v = some (radio.filled o) := by
  cases radio with
  | umts r =>
    obtain ⟨w, hw, hr⟩ := ofJson?_of_rearranges UmtsRadio.makeUp (by decide) (by decide) hread
      (Field.checkAll_eq_ok_iff.mp h) hv .standard
    exact hw.trans (congrArg (Option.map umts) hr)
  | lte r =>
    obtain ⟨w, hw, hr⟩ := ofJson?_of_rearranges LteRadio.makeUp (by decide) (by decide) hread
      (Field.checkAll_eq_ok_iff.mp h) hv .standard
    exact hw.trans (congrArg (Option.map lte) hr)
  | wifi r =>
    obtain ⟨w, hw, hr⟩ := ofJson?_of_rearranges WifiRadio.makeUp (by decide) (by decide) hread
      (Field.checkAll_eq_ok_iff.mp h) hv .standard
    exact hw.trans (congrArg (Option.map wifi) hr)

theorem validate_filled (h : radio.validate = .ok ()) : (radio.filled o).validate = .ok () := by
  have hstandard (family : Radio.Family) :
      (standard family : RadioModel Float).validate = .ok () := by
    cases family <;> decide +kernel
  cases radio with
  | umts r =>
    exact Field.checkAll_eq_ok_iff.mpr (UmtsRadio.makeUp.check_copyChosen
      (Field.checkAll_eq_ok_iff.mp h) (Field.checkAll_eq_ok_iff.mp (hstandard .cellular3G)))
  | lte r =>
    exact Field.checkAll_eq_ok_iff.mpr (LteRadio.makeUp.check_copyChosen
      (Field.checkAll_eq_ok_iff.mp h) (Field.checkAll_eq_ok_iff.mp (hstandard .cellularLte)))
  | wifi r =>
    exact Field.checkAll_eq_ok_iff.mpr (WifiRadio.makeUp.check_copyChosen
      (Field.checkAll_eq_ok_iff.mp h) (Field.checkAll_eq_ok_iff.mp (hstandard .wifi)))

theorem writable_kept_members (radio : RadioModel Float) (dropped : String → Bool) :
    ∀ m ∈ kept dropped radio.members, m.2.Writable := by
  intro m hm
  cases radio <;>
  · obtain ⟨f, -, -, rfl⟩ := Field.mem_kept_members hm
    exact f.writable_toJson _

theorem filled_nothing (radio : RadioModel Float) : radio.filled .nothing = radio := by
  cases radio with
  | umts r => exact congrArg umts (UmtsRadio.makeUp.copyChosen_false _ r)
  | lte r => exact congrArg lte (LteRadio.makeUp.copyChosen_false _ r)
  | wifi r => exact congrArg wifi (WifiRadio.makeUp.copyChosen_false _ r)

end RadioModel

/-! ## Whole documents -/

section Documents
variable {profile : Profile Float} {o : Omission} {v : Value}

theorem validate_filled (h : profile.validate = .ok ()) : (profile.filled o).validate = .ok () := by
  obtain ⟨hthresholds, hradio⟩ := validate_eq_ok_iff.mp h
  exact validate_eq_ok_iff.mpr
    ⟨Thresholds.validate_filled hthresholds, RadioModel.validate_filled hradio⟩

theorem filled_nothing (profile : Profile Float) : profile.filled .nothing = profile := by
  have hthresholds : profile.thresholds.filled .nothing = profile.thresholds := by
    rw [Thresholds.filled, Omission.nothing, if_neg Bool.false_ne_true]
    exact Thresholds.makeUp.copyChosen_false _ _
  rw [filled, hthresholds, RadioModel.filled_nothing]
  rfl

theorem rewritten_toJson (profile : Profile Float) : profile.Rewritten .nothing profile.toJson := by
  have hkept (members : List (String × Value)) : kept (fun _ => false) members = members :=
    List.filter_eq_self.mpr fun _ _ => rfl
  refine ⟨profile.thresholds.toJson, profile.radio.toJson, ?_, ?_, .refl _ _⟩
  · rw [Omission.nothing, hkept]
    exact .refl _ _
  · rw [Omission.nothing, hkept]
    exact .refl _ _

theorem writable_of_rewritten (h : profile.Rewritten o v) : v.Writable := by
  obtain ⟨thresholds, radio, hthresholds, hradio, hv⟩ := h
  have hthresholds' : thresholds.Writable := hthresholds.writable fun m hm => by
    obtain ⟨f, -, -, rfl⟩ := Field.mem_kept_members hm
    exact f.writable_toJson _
  have hradio' : radio.Writable := hradio.writable (List.forall_mem_cons.mpr
    ⟨Value.writable_ofString _, RadioModel.writable_kept_members profile.radio o.radioFields⟩)
  refine hv.writable ?_
  simp only [List.forall_mem_append]
  refine ⟨⟨?_, ?_⟩, by simpa using hradio'⟩
  · cases o.name <;> simp
  · cases o.thresholds <;> simp [hthresholds']

/-- A document that leaves fields out is read as the profile with standard values for them. -/
theorem ofJson?_of_rewritten (hvalid : profile.validate = .ok ())
    (ht : ∀ f ∈ Thresholds.fields, f.ReadsBack profile.thresholds) (hr : profile.radio.ReadsBack)
    (h : profile.Rewritten o v) : ofJson? v = some (profile.filled o) := by
  obtain ⟨hvthresholds, hvradio⟩ := validate_eq_ok_iff.mp hvalid
  obtain ⟨thresholds, radio, hthresholds, hradio, hv⟩ := h
  have hspells : Spells ["name", "thresholds", "radio"] v
      [if o.name then none else some (.ofString profile.name),
        if o.thresholds then none else some thresholds, some radio] := by
    refine hv.spells ?_ (fun _ => id) ?_
    · cases o.name <;> cases o.thresholds <;> simp
    · refine .cons ?_ (.cons ?_ (.cons (.value (by simp)) .nil))
      · cases o.name
        · exact .value (by simp)
        · exact .nothing (by cases o.thresholds <;> simp)
      · cases o.thresholds
        · exact .value (by simp)
        · exact .nothing (by cases o.name <;> simp)
  have hthresholds' : Decode.defaulted .standard Thresholds.ofJson?
      (if o.thresholds then none else some thresholds) = some (profile.thresholds.filled o) := by
    cases ho : o.thresholds with
    | true => simp [Decode.defaulted, Thresholds.filled, ho]
    | false => exact Thresholds.ofJson?_filled ht hvthresholds hthresholds ho
  have hname : Decode.defaulted "" Decode.text
      (if o.name then none else some (.ofString profile.name)) = some (profile.filled o).name := by
    cases ho : o.name <;> simp [Decode.defaulted, filled, ho, Decode.text, Value.ofString]
  have hradio' := RadioModel.ofJson?_filled hr hvradio hradio
  simp [ofJson?, Decode.entries?_eq_some_iff.mpr hspells, hthresholds', hname, Decode.required,
    hradio', filled]

/-- A profile that passes its checks is read back from its document, however the members of the
objects are ordered and whatever plain members are added, and whatever text spells the result;
fields that are left out take the standard values of their section, and with nothing left out the
profile is the same. -/
theorem read_rewritten (hvalid : profile.validate = .ok ())
    (ht : ∀ f ∈ Thresholds.fields, f.ReadsBack profile.thresholds) (hr : profile.radio.ReadsBack) :
    (∀ o v, profile.Rewritten o v → Value.parse? v.compact = some v ∧
      ∀ document, Value.parse? document = some v →
        ofDocument document = .ok (profile.filled o)) ∧
    profile.filled .nothing = profile ∧ ofDocument profile.toDocument = .ok profile := by
  have hread (o : Omission) (v : Value) (h : profile.Rewritten o v) (document : String)
      (hdocument : Value.parse? document = some v) :
      ofDocument document = .ok (profile.filled o) := by
    have htext : Decoder.ofText? ofJson? document = some (profile.filled o) := by
      rw [Decoder.ofText?, hdocument]
      exact ofJson?_of_rewritten hvalid ht hr h
    rw [ofDocument, htext]
    exact check_bind_eq_ok_iff.mpr ⟨validate_filled hvalid, rfl⟩
  refine ⟨fun o v h => ⟨Value.parse?_compact (writable_of_rewritten h), hread o v h⟩,
    filled_nothing profile, ?_⟩
  have hown := profile.rewritten_toJson
  rw [toDocument, hread _ _ hown _ (Value.parse?_compact (writable_of_rewritten hown)),
    filled_nothing]

end Documents

/-! ## A document with most fields left out -/

/-- A profile of a phone under test. -/
def labPhone : Profile Float where
  name := "lab phone"
  thresholds := { Thresholds.standard with burstGap := 2.0 }
  radio := .lte { LteRadio.standard with crTail := 0.2, longDrx := 9.0 }

/-- Of its thresholds and its radio section only one field each is stated. -/
def labOmission : Omission := ⟨false, false, (· ≠ "burst_gap"), (· ≠ "cr_tail")⟩

/-- The radio section as stated, with the tag at its end and a remark. -/
def labRadio : Value :=
  .ofMembers [("cr_tail", .ofFloat 0.2), ("remark", .null), ("family", .ofString "Lte")]

def labThresholds : Value := .ofMembers [("burst_gap", .ofFloat 2.0)]

/-- What the document states, the radio section first. -/
def labValue : Value :=
  .ofMembers [("radio", labRadio), ("name", .ofString "lab phone"), ("thresholds", labThresholds)]

theorem rewritten_labValue : labPhone.Rewritten labOmission labValue := by
  refine ⟨labThresholds, labRadio, .refl _ _, ⟨_, [("remark", .null)], rfl, ?_, ?_⟩,
    ⟨_, [], rfl, ?_, List.forall_mem_nil _⟩⟩
  · exact List.perm_append_singleton ("family", Value.ofString "Lte")
      [("cr_tail", .ofFloat 0.2), ("remark", .null)]
  · exact List.forall_mem_singleton.mpr ⟨by decide, .null⟩
  · exact (List.perm_append_singleton ("radio", labRadio)
      [("name", .ofString "lab phone"), ("thresholds", labThresholds)]).symm

theorem read_rewritten_labValue : labPhone.Rewritten labOmission labValue ∧
    ofDocument labValue.compact = .ok (labPhone.filled labOmission) ∧
    (labPhone.filled labOmission).radio = .lte { LteRadio.standard with crTail := 0.2 } := by
  have hvalid : labPhone.validate = .ok () := by decide +kernel
  obtain ⟨hread, -⟩ := read_rewritten hvalid (by decide +kernel) (by decide +kernel)
  obtain ⟨hparse, hdocument⟩ := hread _ _ rewritten_labValue
  exact ⟨rewritten_labValue, hdocument _ hparse, rfl⟩

end Profile
end BurstEnergy
