import Mathlib.Data.List.DropRight
import Mathlib.Data.List.Infix
import Mathlib.Order.Bounds.Basic
import Mathlib.Tactic
import BurstEnergy.Burst.Classification

/-!
# History of a classification

What is remembered of the bursts so far, and that it sums them up.
-/

/-! ## What the history of a classification remembers

The history is a fold over the category and the begin of every burst so far. Of the rotations it
keeps the first one, and of the runs of user input the length of the longest: the run that is going
on is the longest end of the sequence made of user input only.
-/
namespace BurstEnergy
variable {α : Type}

/-- What a burst adds to the history. -/
def Burst.step (burst : Burst α) : Category × α := (burst.category, burst.beginTime)

namespace Classification
namespace History
variable {history : History α} {steps : List (Category × α)} {category : Category} {t : α}

def after (history : History α) (steps : List (Category × α)) : History α :=
  steps.foldl (fun history step => history.advance step.1 step.2) history

@[simp] theorem after_nil (history : History α) : history.after [] = history := rfl

@[simp] theorem after_cons (history : History α) (step : Category × α)
    (steps : List (Category × α)) :
    history.after (step :: steps) = (history.advance step.1 step.2).after steps := rfl

@[simp] theorem after_concat (history : History α) (steps : List (Category × α))
    (step : Category × α) :
    history.after (steps ++ [step]) = (history.after steps).advance step.1 step.2 := by
  simp [after]

theorem rotationBurstTime_advance :
    (history.advance category t).rotationBurstTime =
      history.rotationBurstTime.or (if category = .screenRotation then some t else none) := by
  cases hr : history.rotationBurstTime <;> simp [advance, hr]

/-- The rotation remembered is the first one, unless one was known before. -/
theorem rotationBurstTime_after (history : History α) (steps : List (Category × α)) :
    (history.after steps).rotationBurstTime =
      history.rotationBurstTime.or
        ((steps.filter (·.1 = .screenRotation)).head?.map (·.2)) := by
  induction steps generalizing history with
  | nil => simp
  | cons step rest ih =>
    by_cases hc : step.1 = .screenRotation <;>
      simp [ih, rotationBurstTime_advance, hc]

/-- The run that is going on is the user input that a sequence ends with. -/
theorem le_userInputRun_iff (steps : List (Category × α)) (k : ℕ) :
    k ≤ (start.after steps).userInputRun ↔
      List.replicate k .userInput <:+ steps.map Prod.fst := by
  induction steps using List.reverseRecOn generalizing k with
  | nil => simp [start, List.replicate_eq_nil_iff]
  | append_singleton steps step ih =>
    cases k with
    | zero => simp
    | succ k =>
      rw [after_concat, List.map_append, List.map_singleton, List.suffix_concat_iff,
        List.replicate_succ']
      by_cases hc : step.1 = .userInput
      · simp [advance, hc, ih]
      · simp [advance, hc, Ne.symm hc]

/-- The longest run is the longest stretch of user input in a sequence. -/
theorem le_maxUserInputRun_iff (steps : List (Category × α)) (k : ℕ) :
    k ≤ (start.after steps).maxUserInputRun ↔
      List.replicate k .userInput <:+: steps.map Prod.fst := by
  induction steps using List.reverseRecOn with
  | nil => simp [start, List.replicate_eq_nil_iff]
  | append_singleton steps step ih =>
    have hrun := le_userInputRun_iff (steps ++ [step]) k
    rw [after_concat] at hrun ⊢
    rw [List.map_append, List.map_singleton] at hrun ⊢
    -- a stretch either ends with the new step, as the run going on does, or lies before it
    rw [List.infix_concat_iff, ← hrun, ← ih, or_comm]
    exact le_max_iff

end History

variable [Scalar α] {t : Profile.Thresholds α} {timeline : Traffic.Timeline α}
  {markers : Traffic.Markers α}

theorem history_classifyFrom (history : History α) (items : List (Burst α × Option α)) :
    (classifyFrom t timeline markers history items).2 =
      history.after ((classifyFrom t timeline markers history items).1.map Burst.step) := by
  induction items generalizing history with
  | nil => rfl
  | cons item rest ih => exact ih _

theorem history_classify (bursts : List (Burst α)) :
    (classify t bursts timeline markers).history =
      History.start.after ((classify t bursts timeline markers).bursts.map Burst.step) :=
  history_classifyFrom _ _

/-- The rotation remembered is the begin of the first burst due to one. -/
theorem rotationBurstTime_classify (bursts : List (Burst α)) :
    (classify t bursts timeline markers).history.rotationBurstTime =
      (Burst.inCategory .screenRotation
        (classify t bursts timeline markers).bursts).head?.map (·.beginTime) := by
  rw [history_classify, History.rotationBurstTime_after, List.filter_map, List.head?_map,
    Option.map_map]
  rfl

/-- Only a burst without a rotation before it is found due to one. -/
theorem isNone_of_categorize {burst : Burst α} {members : List (Traffic.Packet α)}
    {cycle : Option α} {history : History α}
    (h : categorize t markers burst members cycle history = .screenRotation) :
    history.rotationBurstTime = none := by
  cases hr : history.rotationBurstTime with
  | none => rfl
  | some time =>
    simp only [categorize, hr] at h
    grind

/-- At most one burst is due to a rotation, and none when a rotation was known before. -/
theorem length_screenRotation_classifyFrom (history : History α)
    (items : List (Burst α × Option α)) :
    (Burst.inCategory .screenRotation
      (classifyFrom t timeline markers history items).1).length ≤
        if history.rotationBurstTime.isNone then 1 else 0 := by
  induction items generalizing history with
  | nil => exact Nat.zero_le _
  | cons item rest ih =>
    have hlater := ih (history.advance
      (categorize t markers item.1 (item.1.members timeline) item.2 history) item.1.beginTime)
    rw [History.rotationBurstTime_advance] at hlater
    by_cases hc : categorize t markers item.1 (item.1.members timeline) item.2 history =
        .screenRotation
    · have hnone := isNone_of_categorize hc
      simpa [classifyFrom, Burst.inCategory, hc, hnone] using hlater
    · simpa [classifyFrom, Burst.inCategory, hc] using hlater

theorem length_screenRotation_classify (bursts : List (Burst α)) :
    (Burst.inCategory .screenRotation (classify t bursts timeline markers).bursts).length ≤ 1 :=
  length_screenRotation_classifyFrom .start _

end Classification
end BurstEnergy

/-! ## Runs of user input

The history counts the run of user input that is going on and keeps the length of the longest one.
Whatever it counted before, after more steps these are lengths of runs of the steps themselves, each
cut where its neighbours are no user input. The run that the steps start with goes on from the one
that was going on. Counters have no bound here.
-/
namespace BurstEnergy.Classification
variable {α : Type}

/-- A run of user input between two parts of a sequence, as long as it can be. -/
structure InputRun (before run rest : List (Category × α)) : Prop where
  nonempty : run ≠ []
  input : ∀ step ∈ run, step.1 = .userInput
  opens : ∀ step ∈ before.getLast?, step.1 ≠ .userInput
  closes : ∀ step ∈ rest.head?, step.1 ≠ .userInput

/-- The lengths of the runs in a sequence, where the one it starts with goes on from `going` steps
before it. -/
def runLengths (going : ℕ) (steps : List (Category × α)) : Set ℕ :=
  {n | ∃ before run rest, steps = before ++ run ++ rest ∧ InputRun before run rest ∧
    n = run.length + if before = [] then going else 0}

section Runs
variable {before run rest steps : List (Category × α)} {step : Category × α} {going : ℕ}

/-- A step put before a sequence leaves its runs, unless it is user input and touches the first. -/
theorem inputRun_cons_left :
    InputRun (step :: before) run rest ↔
      InputRun before run rest ∧ (before = [] → step.1 ≠ .userInput) := by
  cases before with
  | nil =>
    constructor
    · intro h
      exact ⟨⟨h.nonempty, h.input, by simp, h.closes⟩, fun _ => h.opens step rfl⟩
    · rintro ⟨h, hstep⟩
      exact ⟨h.nonempty, h.input, by simpa using hstep rfl, h.closes⟩
  | cons first front =>
    have hlast : (step :: first :: front).getLast? = (first :: front).getLast? :=
      List.getLast?_cons_cons
    constructor
    · intro h
      exact ⟨⟨h.nonempty, h.input, hlast ▸ h.opens, h.closes⟩, nofun⟩
    · rintro ⟨h, -⟩
      exact ⟨h.nonempty, h.input, hlast.symm ▸ h.opens, h.closes⟩

@[simp] theorem runLengths_nil : runLengths going ([] : List (Category × α)) = ∅ := by
  refine Set.eq_empty_iff_forall_notMem.mpr ?_
  rintro n ⟨before, run, rest, hsplit, hrun, -⟩
  simp_all [hrun.nonempty]

theorem runLengths_cons_of_ne (h : step.1 ≠ .userInput) :
    runLengths going (step :: steps) = runLengths 0 steps := by
  ext n
  constructor
  · rintro ⟨_ | ⟨first, before⟩, run, rest, hsplit, hrun, rfl⟩
    · obtain ⟨first, run, rfl⟩ := List.exists_cons_of_ne_nil hrun.nonempty
      obtain ⟨rfl, -⟩ := List.cons.inj hsplit
      exact absurd (hrun.input step List.mem_cons_self) h
    · obtain ⟨rfl, rfl⟩ := List.cons.inj hsplit
      exact ⟨before, run, rest, rfl, (inputRun_cons_left.mp hrun).1, by simp⟩
  · rintro ⟨before, run, rest, rfl, hrun, rfl⟩
    exact ⟨step :: before, run, rest, rfl, inputRun_cons_left.mpr ⟨hrun, fun _ => h⟩, by simp⟩

/-- A step of user input is part of the run that follows it, or a run of its own. -/
theorem mem_runLengths_cons_of_eq (h : step.1 = .userInput) {n : ℕ} :
    n ∈ runLengths going (step :: steps) ↔ n ∈ runLengths (going + 1) steps ∨
      n = going + 1 ∧ ∀ next ∈ steps.head?, next.1 ≠ .userInput := by
  constructor
  · rintro ⟨_ | ⟨first, before⟩, run, rest, hsplit, hrun, rfl⟩
    · obtain ⟨first, run, rfl⟩ := List.exists_cons_of_ne_nil hrun.nonempty
      obtain ⟨rfl, rfl⟩ := List.cons.inj hsplit
      by_cases hone : run = []
      · exact .inr ⟨by simp [hone, Nat.add_comm], by simpa [hone] using hrun.closes⟩
      · have hinput := (List.forall_mem_cons.mp hrun.input).2
        refine .inl ⟨[], run, rest, rfl, ⟨hone, hinput, by simp, hrun.closes⟩, ?_⟩
        simp
        omega
    · obtain ⟨rfl, rfl⟩ := List.cons.inj hsplit
      obtain ⟨hrun, hbefore⟩ := inputRun_cons_left.mp hrun
      have hne : before ≠ [] := fun hnil => hbefore hnil h
      exact .inl ⟨before, run, rest, rfl, hrun, by simp [hne]⟩
  · rintro (⟨before, run, rest, rfl, hrun, rfl⟩ | ⟨rfl, hnext⟩)
    · by_cases hnil : before = []
      · subst hnil
        have hinput : ∀ first ∈ step :: run, first.1 = .userInput :=
          List.forall_mem_cons.mpr ⟨h, hrun.input⟩
        refine ⟨[], step :: run, rest, rfl, ⟨by simp, hinput, by simp, hrun.closes⟩, ?_⟩
        simp
        omega
      · exact ⟨step :: before, run, rest, rfl,
          inputRun_cons_left.mpr ⟨hrun, fun hnil' => absurd hnil' hnil⟩, by simp [hnil]⟩
    · exact ⟨[], [step], steps, rfl, ⟨by simp, by simpa using h, by simp, hnext⟩,
        by simp [Nat.add_comm]⟩

/-- Where user input follows, the run that is going on gets longer. -/
theorem exists_lt_mem_runLengths (h : ∃ next ∈ steps.head?, next.1 = .userInput) (going : ℕ) :
    ∃ n ∈ runLengths going steps, going < n := by
  let isInput (step : Category × α) : Bool := decide (step.1 = .userInput)
  obtain ⟨next, hnext, hinput⟩ := h
  obtain ⟨tail, rfl⟩ := List.head?_eq_some_iff.mp hnext
  refine ⟨_, ⟨[], (next :: tail).takeWhile isInput, (next :: tail).dropWhile isInput,
    List.takeWhile_append_dropWhile.symm, ⟨?_, ?_, by simp, ?_⟩, rfl⟩, ?_⟩
  · simp [isInput, hinput]
  · intro step hstep
    simpa [isInput] using List.mem_takeWhile_imp hstep
  · intro step hstep
    have hnot := List.head?_dropWhile_not isInput (next :: tail)
    rw [Option.mem_def.mp hstep] at hnot
    simpa [isInput] using hnot
  · simp [isInput, hinput]

/-- What is longest among the later runs, and the run that a step of user input makes longer, is
longest among the runs from that step on. -/
theorem isGreatest_cons_of_eq (h : step.1 = .userInput) {known longest : ℕ}
    (hlater : IsGreatest (insert (max known (going + 1)) (runLengths (going + 1) steps)) longest) :
    IsGreatest (insert known (runLengths going (step :: steps))) longest := by
  obtain ⟨hmem, hupper⟩ := hlater
  have hmax : max known (going + 1) ≤ longest := hupper (Set.mem_insert _ _)
  have hruns : ∀ n ∈ runLengths (going + 1) steps, n ≤ longest :=
    fun n hn => hupper (Set.mem_insert_of_mem _ hn)
  constructor
  · rcases hmem with hlongest | hmem
    · by_cases hknown : longest = known
      · exact .inl hknown
      · -- No user input follows, or the run would go on and be longer than the longest.
        refine .inr ((mem_runLengths_cons_of_eq h).mpr
          (.inr ⟨by omega, fun next hnext hinput => ?_⟩))
        obtain ⟨n, hn, hlt⟩ := exists_lt_mem_runLengths ⟨next, hnext, hinput⟩ (going + 1)
        have hle := hruns n hn
        omega
    · exact .inr ((mem_runLengths_cons_of_eq h).mpr (.inl hmem))
  · rintro n (rfl | hn)
    · omega
    · rcases (mem_runLengths_cons_of_eq h).mp hn with hn | ⟨rfl, -⟩
      · exact hruns n hn
      · omega

end Runs

namespace History

/-- The run that is going on is what a sequence ends with, and goes back to before the sequence when
there is nothing else in it. -/
theorem userInputRun_after (history : History α) (steps : List (Category × α)) :
    (history.after steps).userInputRun =
      (steps.rtakeWhile fun step => step.1 = .userInput).length +
        if ∀ step ∈ steps, step.1 = .userInput then history.userInputRun else 0 := by
  induction steps using List.reverseRecOn with
  | nil => simp
  | append_singleton steps step ih =>
    have hall : (∀ other ∈ steps ++ [step], other.1 = .userInput) ↔
        (∀ other ∈ steps, other.1 = .userInput) ∧ step.1 = .userInput := by
      rw [List.forall_mem_append, List.forall_mem_singleton]
    by_cases hc : step.1 = .userInput
    · rw [if_congr (hall.trans (and_iff_left hc)) rfl rfl]
      simp [advance, hc, ih, Nat.add_right_comm]
    · rw [if_neg fun h => hc (hall.mp h).2]
      simp [advance, hc]

/-- The longest run is the longest one known before, or one of the sequence. -/
theorem isGreatest_maxUserInputRun (history : History α) (steps : List (Category × α)) :
    IsGreatest (insert history.maxUserInputRun (runLengths history.userInputRun steps))
      (history.after steps).maxUserInputRun := by
  induction steps generalizing history with
  | nil => simp
  | cons step steps ih =>
    have hlater := ih (history.advance step.1 step.2)
    rw [after_cons]
    by_cases hc : step.1 = .userInput
    · simp only [advance, hc, if_true] at hlater ⊢
      exact isGreatest_cons_of_eq hc hlater
    · simpa [advance, hc, runLengths_cons_of_ne hc] using hlater

/-- The history sums up all steps since a history before them: the run that is going on, the longest
run and the first rotation. From the start, the longest run holds `k` bursts just when some `k` in a
row are user input. -/
theorem after_sums_up_steps (history : History α) (steps : List (Category × α)) :
    (history.after steps).userInputRun =
        (steps.rtakeWhile fun step => step.1 = .userInput).length +
          (if ∀ step ∈ steps, step.1 = .userInput then history.userInputRun else 0) ∧
      IsGreatest (insert history.maxUserInputRun (runLengths history.userInputRun steps))
        (history.after steps).maxUserInputRun ∧
      (history.after steps).rotationBurstTime =
        history.rotationBurstTime.or
          ((steps.find? fun step => step.1 = .screenRotation).map fun step => step.2) ∧
      ∀ k, k ≤ (start.after steps).maxUserInputRun ↔
        List.replicate k .userInput <:+: steps.map Prod.fst := by
  refine ⟨userInputRun_after history steps, isGreatest_maxUserInputRun history steps, ?_,
    le_maxUserInputRun_iff steps⟩
  rw [rotationBurstTime_after, List.head?_filter]

/-- A run of two that was going on reaches into the steps and ends there. -/
example : ((⟨none, 2, 0⟩ : History ℕ).after
    [(.userInput, 5), (.screenRotation, 6), (.userInput, 7)]) = ⟨some 6, 1, 3⟩ := by decide

end History
end BurstEnergy.Classification
