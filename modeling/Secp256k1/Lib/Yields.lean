import Mathlib.Data.Option.Basic

/-!
# Computations that return

`Yields x P`: the computation `x` does not fault, and what it returns satisfies `P`. `Below x y`:
what `x` returns, `y` returns as well.
-/

def Yields {α : Type} (x : Option α) (P : α → Prop) : Prop := ∃ a, x = some a ∧ P a

namespace Yields

variable {α β : Type} {x : Option α} {P Q : α → Prop}

theorem some {a : α} (h : P a) : Yields (Option.some a) P := ⟨a, rfl, h⟩

theorem pure {a : α} (h : P a) : Yields (Pure.pure a) P := ⟨a, rfl, h⟩

theorem mono (h : Yields x P) (hq : ∀ a, P a → Q a) : Yields x Q := by
  obtain ⟨a, ha, hp⟩ := h
  exact ⟨a, ha, hq a hp⟩

theorem and (hp : Yields x P) (hq : Yields x Q) : Yields x fun a => P a ∧ Q a := by
  obtain ⟨a, ha, h⟩ := hp
  obtain ⟨b, hb, h'⟩ := hq
  rw [ha] at hb
  cases hb
  exact ⟨a, ha, h, h'⟩

/-- The rule of sequence. -/
theorem bind {f : α → Option β} {R : β → Prop} (h : Yields x P)
    (hf : ∀ a, P a → Yields (f a) R) : Yields (x >>= f) R := by
  obtain ⟨a, rfl, hp⟩ := h
  exact hf a hp

/-- What a computation returns is what it yields. -/
theorem of_eq_some {a : α} (h : Yields x P) (ha : x = Option.some a) : P a := by
  obtain ⟨b, hb, hp⟩ := h
  rw [ha] at hb
  cases hb
  exact hp

theorem ne_none (h : Yields x P) : x ≠ none := by
  obtain ⟨a, rfl, -⟩ := h
  exact Option.some_ne_none a

end Yields

def Below {α : Type} (x y : Option α) : Prop := ∀ a, x = some a → y = some a

namespace Below

variable {α β : Type} {x y : Option α}

theorem refl (x : Option α) : Below x x := fun _ h => h

theorem bind {f g : α → Option β} (h : Below x y) (hf : ∀ a, Below (f a) (g a)) :
    Below (x >>= f) (y >>= g) := by
  intro b hb
  obtain ⟨a, ha, hfa⟩ := Option.bind_eq_some_iff.mp hb
  rw [h a ha]
  exact hf a b hfa

theorem ite {c : Prop} [Decidable c] {x' y' : Option α} (h : Below x y) (h' : Below x' y') :
    Below (if c then x else x') (if c then y else y') := by
  split
  · exact h
  · exact h'

end Below
