import Mathlib
import BurstEnergy.CutPoint

/-!
# Computations with checked accesses

The engines reach into lists by positions they have worked out, and hardly test a position before
they use it. Here accesses can fail: an element or a slice outside a list and a difference
below zero are faults, and a loop that goes on for ever has no outcome at all. To say that such a
computation equals `pure x` is to say that it ends, without a fault, and with `x`.
-/
namespace BurstEnergy

/-- What stops a computation: a position outside a list, a slice that is not inside one, or a
difference of counts below zero. -/
inductive AccessFault where
  | outOfRange (index length : ℕ)
  | badSlice (first stop length : ℕ)
  | underflow (minuend subtrahend : ℕ)
  deriving DecidableEq, Repr

/-- A computation with checked accesses: if it ends at all, it gives a value or a fault. -/
abbrev Checked (β : Type) : Type := ExceptT AccessFault Part β

namespace Checked
variable {β γ σ : Type}

def element (xs : List β) (index : ℕ) : Checked β :=
  match xs[index]? with
  | some x => pure x
  | none => throw (.outOfRange index xs.length)

def slice (xs : List β) (first stop : ℕ) : Checked (List β) :=
  if first ≤ stop ∧ stop ≤ xs.length then pure ((xs.drop first).take (stop - first))
  else throw (.badSlice first stop xs.length)

def minus (minuend subtrahend : ℕ) : Checked ℕ :=
  if subtrahend ≤ minuend then pure (minuend - subtrahend)
  else throw (.underflow minuend subtrahend)

/-- Where a step leads: out of a loop, with a fault or a value, or to the next state. -/
def leads : Except AccessFault (σ ⊕ β) → Except AccessFault β ⊕ σ
  | .error fault => .inl (.error fault)
  | .ok (.inl next) => .inr next
  | .ok (.inr done) => .inl (.ok done)

/-- Repeat a step from a state on until it gives a value. Nothing says that it ever does. -/
def loop (step : σ → Checked (σ ⊕ β)) (s : σ) : Checked β :=
  ExceptT.mk (PFun.fix (fun s => (step s).run.map leads) s)

theorem element_eq {xs : List β} {index : ℕ} {x : β} (h : xs[index]? = some x) :
    element xs index = pure x := by
  rw [element, h]

theorem slice_eq {xs : List β} {first stop : ℕ} (h : first ≤ stop) (hx : stop ≤ xs.length) :
    slice xs first stop = pure ((xs.drop first).take (stop - first)) := if_pos ⟨h, hx⟩

theorem slice_zero_eq {xs : List β} {stop : ℕ} (hx : stop ≤ xs.length) :
    slice xs 0 stop = pure (xs.take stop) := slice_eq (Nat.zero_le stop) hx

theorem slice_length_eq {xs : List β} {first : ℕ} (hx : first ≤ xs.length) :
    slice xs first xs.length = pure (xs.drop first) := by
  rw [slice_eq hx le_rfl, ← List.length_drop, List.take_length]

theorem minus_eq {minuend subtrahend : ℕ} (h : subtrahend ≤ minuend) :
    minus minuend subtrahend = pure (minuend - subtrahend) := if_pos h

theorem loop_done {step : σ → Checked (σ ⊕ β)} {s : σ} {done : β}
    (h : step s = pure (.inr done)) : loop step s = pure done :=
  Part.eq_some_iff.mpr (PFun.fix_stop (by rw [h]; exact Part.mem_some _))

theorem loop_next {step : σ → Checked (σ ⊕ β)} {s next : σ}
    (h : step s = pure (.inl next)) : loop step s = loop step next :=
  congrArg ExceptT.mk (PFun.fix_fwd_eq (by rw [h]; exact Part.mem_some _))

/-- A loop ends with the result of its state when every step that goes on keeps an invariant and
the result and lowers a measure, and every step that ends gives the result. -/
theorem loop_eq {step : σ → Checked (σ ⊕ β)} (Inv : σ → Prop) (measure : σ → ℕ) (result : σ → β)
    (hstep : ∀ s, Inv s → step s = pure (.inr (result s)) ∨
      ∃ next, step s = pure (.inl next) ∧ Inv next ∧ measure next < measure s ∧
        result next = result s) {s : σ} (hs : Inv s) : loop step s = pure (result s) := by
  generalize hn : measure s = n
  induction n using Nat.strong_induction_on generalizing s with
  | _ n ih =>
    rcases hstep s hs with hdone | ⟨next, hnext, hinv, hlt, hresult⟩
    · exact loop_done hdone
    · rw [loop_next hnext, ← hresult]
      exact ih (measure next) (hn ▸ hlt) hinv rfl

theorem mapM_eq {f : β → Checked γ} {g : β → γ} {xs : List β} (h : ∀ x ∈ xs, f x = pure (g x)) :
    xs.mapM f = pure (xs.map g) := by
  induction xs with
  | nil => rfl
  | cons x rest ih =>
    obtain ⟨hx, hrest⟩ := List.forall_mem_cons.mp h
    rw [List.mapM_cons, hx, ih hrest, pure_bind, pure_bind, List.map_cons]

/-- One halving of the positions that hold a cut. -/
def halve (p : β → Bool) (xs : List β) : ℕ × ℕ → Checked ((ℕ × ℕ) ⊕ ℕ)
  | (base, size) =>
    if 1 < size then do
      let probed ← element xs (base + size / 2)
      let rest ← minus size (size / 2)
      return .inl (if p probed then base + size / 2 else base, rest)
    else do
      let probed ← element xs base
      return .inr (if p probed then base + 1 else base)

/-- The number of elements before the cut of a list by a property. -/
def cut (p : β → Bool) (xs : List β) : Checked ℕ :=
  if xs.length = 0 then return 0 else loop (halve p xs) (0, xs.length)

/-- A search by halving probes inside the list and ends, whatever the property. -/
theorem cut_eq (p : β → Bool) (xs : List β) : cut p xs = pure (cutLength p xs) := by
  rw [cut, cutLength, cutPoint]
  split
  · rfl
  · next hne =>
    -- There is always a position left to probe, and all that are left are inside the list.
    refine loop_eq (fun s => 0 < s.2 ∧ s.1 + s.2 ≤ xs.length) Prod.snd
      (fun s => cutPointFrom (fun i => xs[i]?.any p) s.1 s.2) ?_ (by omega)
    rintro ⟨base, size⟩ ⟨hpos, hle⟩
    dsimp only at hpos hle ⊢
    rw [halve, cutPointFrom]
    split
    · next hsize =>
      have hprobe := List.getElem?_eq_getElem (l := xs) (show base + size / 2 < xs.length by omega)
      rw [element_eq hprobe, minus_eq (by omega), pure_bind, pure_bind]
      refine .inr ⟨_, rfl, ?_⟩
      simp only [hprobe, Option.any_some]
      split <;> exact ⟨by omega, by omega, rfl⟩
    · next hsize =>
      have hprobe := List.getElem?_eq_getElem (l := xs) (show base < xs.length by omega)
      simp only [element_eq hprobe, pure_bind, hprobe, Option.any_some, true_or]

end Checked
end BurstEnergy
