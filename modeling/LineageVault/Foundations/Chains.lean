import Mathlib.Order.Basic
import Mathlib.Tactic.ByContra

/-! # The ends of a chain

A chain `a 0, ..., a n` in a partial order goes up or stays at each step. Its ends are equal exactly if
it stays at every step, and its last element is above the first exactly if it goes up at some step.
-/

namespace LineageVault.Foundations
set_option autoImplicit false

/-- Each of the first `n` steps goes up or stays. -/
def Ascends {α : Type} [LE α] (a : ℕ → α) (n : ℕ) : Prop := ∀ i < n, a i ≤ a (i + 1)

section Preorder
variable {α : Type} [Preorder α] {a : ℕ → α} {n i : ℕ}

theorem Ascends.of_succ (h : Ascends a (n + 1)) : Ascends a n := fun i hi => h i (Nat.lt_succ_of_lt hi)

theorem Ascends.first_le (h : Ascends a n) (hi : i ≤ n) : a 0 ≤ a i := by
  induction i with
  | zero => exact le_rfl
  | succ i ih => exact (ih (Nat.le_of_succ_le hi)).trans (h i hi)

theorem Ascends.le_last (h : Ascends a n) (hi : i ≤ n) : a i ≤ a n := by
  induction n with
  | zero =>
    obtain rfl := Nat.le_zero.1 hi
    exact le_rfl
  | succ n ih =>
    rcases Nat.le_or_eq_of_le_succ hi with hi | rfl
    · exact (ih h.of_succ hi).trans (h n (Nat.lt_succ_self n))
    · exact le_rfl

end Preorder

section PartialOrder
variable {α : Type} [PartialOrder α] {a : ℕ → α} {n : ℕ}

/-- **The ends are equal exactly if every step stays.** -/
theorem Ascends.ends_eq_iff (h : Ascends a n) : a 0 = a n ↔ ∀ i < n, a i = a (i + 1) := by
  constructor
  · intro hends i hi
    have hdown : a (i + 1) ≤ a i := calc
      a (i + 1) ≤ a n := h.le_last hi
      _ = a 0 := hends.symm
      _ ≤ a i := h.first_le (Nat.le_of_lt hi)
    exact le_antisymm (h i hi) hdown
  · intro hsteps
    have hstays : ∀ i ≤ n, a 0 = a i := by
      intro i hi
      induction i with
      | zero => rfl
      | succ i ih => exact (ih (Nat.le_of_succ_le hi)).trans (hsteps i hi)
    exact hstays n (Nat.le_refl n)

/-- **The last is above the first exactly if some step goes up.** -/
theorem Ascends.ends_lt_iff (h : Ascends a n) : a 0 < a n ↔ ∃ i < n, a i < a (i + 1) := by
  constructor
  · intro hends
    by_contra hno
    have hstays : ∀ i < n, a i = a (i + 1) := fun i hi =>
      (h i hi).eq_of_not_lt fun hup => hno ⟨i, hi, hup⟩
    exact hends.ne (h.ends_eq_iff.2 hstays)
  · rintro ⟨i, hi, hup⟩
    exact ((h.first_le (Nat.le_of_lt hi)).trans_lt hup).trans_le (h.le_last hi)

end PartialOrder
end LineageVault.Foundations
