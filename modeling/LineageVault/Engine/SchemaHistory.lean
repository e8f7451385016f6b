import LineageVault.Engine.Events
import LineageVault.Foundations.Chains
import Mathlib.Data.Set.Lattice
import Mathlib.Order.CompletePartialOrder

/-! # Compatibility along a schema history

A schema declares the type of each of its fields. A new schema does not break an old one exactly if it
declares all that the old one does: it is forward compatible if it declares nothing else, and backward
compatible if it declares more. So along a history the levels are those of a chain of sets, and they
compose (`compat_composes`).
-/

namespace LineageVault
open Foundations
set_option autoImplicit false

/-- The fields of a schema, with their types. -/
def declared (fields : List (Str × Str)) : Set (Str × Str) := { f | fields.lookup f.1 = some f.2 }

section Schemas
variable {old new : List (Str × Str)} {name type : Str}

theorem mem_declared : (name, type) ∈ declared old ↔ old.lookup name = some type := Iff.rfl

theorem declared_eq_iff : declared old = declared new ↔ ∀ name, old.lookup name = new.lookup name := by
  constructor
  · intro h name
    refine Option.ext fun type => ?_
    rw [← mem_declared, ← mem_declared, h]
  · intro h
    ext ⟨name, type⟩
    rw [mem_declared, mem_declared, h]

/-! ## Levels -/

theorem forall_names_iff {p : Str → Prop} :
    (∀ f ∈ old, p f.1) ↔ ∀ name type, old.lookup name = some type → p name := by
  constructor
  · intro h name type hname
    have hsome : (old.lookup name).isSome := Option.isSome_of_eq_some hname
    obtain ⟨f, hf, hbeq⟩ := List.lookup_isSome_iff.1 hsome
    rw [eq_of_beq hbeq]
    exact h f hf
  · intro h f hf
    have hsome : (old.lookup f.1).isSome := List.lookup_isSome_iff.2 ⟨f, hf, BEq.rfl⟩
    obtain ⟨type, htype⟩ := Option.isSome_iff_exists.1 hsome
    exact h f.1 type htype

/-- No field was removed, and none has another type. -/
theorem declared_subset_iff : declared old ⊆ declared new ↔
    (old.any fun f => (new.lookup f.1).isNone) = false ∧
      (old.any fun f => (new.lookup f.1).isSome && old.lookup f.1 != new.lookup f.1) = false := by
  have hany : ∀ q : Str → Bool, (old.any fun f => q f.1) = false ↔
      ∀ name type, old.lookup name = some type → q name = false := by
    intro q
    rw [List.any_eq_false, ← forall_names_iff]
    simp only [Bool.not_eq_true]
  rw [hany fun name => (new.lookup name).isNone,
    hany fun name => (new.lookup name).isSome && old.lookup name != new.lookup name]
  constructor
  · intro h
    refine ⟨fun name type hold => ?_, fun name type hold => ?_⟩
    · rw [mem_declared.1 (h (mem_declared.2 hold))]
      rfl
    · rw [mem_declared.1 (h (mem_declared.2 hold)), hold]
      simp
  · rintro ⟨hkept, htyped⟩ ⟨name, type⟩ hold
    have hkept := hkept name type hold
    have htyped := htyped name type hold
    rw [Option.isNone_eq_false_iff] at hkept
    rw [hkept, Bool.true_and, bne_eq_false_iff_eq] at htyped
    exact htyped.symm.trans hold

/-- No field was added, if none was removed and none has another type. -/
theorem subset_declared_iff (h : declared old ⊆ declared new) :
    declared new ⊆ declared old ↔ (new.any fun f => (old.lookup f.1).isNone) = false := by
  rw [declared_subset_iff]
  refine and_iff_left_of_imp fun hnone => ?_
  rw [List.any_eq_false] at hnone ⊢
  intro f hf
  have hsome := hnone f hf
  rw [Option.isNone_iff_eq_none] at hsome
  obtain ⟨type, htype⟩ := Option.ne_none_iff_exists'.1 hsome
  have hnew := mem_declared.1 (h (mem_declared.2 htype))
  simp [htype, hnew]

theorem evaluateSchema_eq : evaluateSchema old new =
    if (old.any fun f => (new.lookup f.1).isNone) ||
        (old.any fun f => (new.lookup f.1).isSome && old.lookup f.1 != new.lookup f.1) then .breaking
    else if new.any fun f => (old.lookup f.1).isNone then .backward else .forward := rfl

/-- **The level says how the declarations stand**: not all kept, kept with new ones, or the same. -/
theorem evaluateSchema_cases :
    (evaluateSchema old new = .breaking ∧ ¬ declared old ⊆ declared new) ∨
      (evaluateSchema old new = .backward ∧ declared old ⊂ declared new) ∨
      (evaluateSchema old new = .forward ∧ declared old = declared new) := by
  rw [evaluateSchema_eq]
  by_cases hkept : declared old ⊆ declared new
  · obtain ⟨hremoved, htyped⟩ := declared_subset_iff.1 hkept
    have hadded := subset_declared_iff hkept
    rw [hremoved, htyped, Bool.or_false, if_neg Bool.false_ne_true]
    by_cases hsame : declared new ⊆ declared old
    · rw [hadded.1 hsame, if_neg Bool.false_ne_true]
      exact .inr (.inr ⟨rfl, hkept.antisymm hsame⟩)
    · rw [Bool.eq_true_of_not_eq_false (hadded.not.1 hsame), if_pos rfl]
      exact .inr (.inl ⟨rfl, hkept, hsame⟩)
  · have hbroken := declared_subset_iff.not.1 hkept
    rw [← Bool.or_eq_false_iff] at hbroken
    rw [Bool.eq_true_of_not_eq_false hbroken, if_pos rfl]
    exact .inl ⟨rfl, hkept⟩

theorem evaluate_ne_breaking_iff : evaluateSchema old new ≠ .breaking ↔ declared old ⊆ declared new := by
  rcases @evaluateSchema_cases old new with ⟨h, hset⟩ | ⟨h, hset⟩ | ⟨h, hset⟩
  · simp [h, hset]
  · simp [h, hset.subset]
  · simp [h, hset]

theorem evaluate_backward_iff : evaluateSchema old new = .backward ↔ declared old ⊂ declared new := by
  rcases @evaluateSchema_cases old new with ⟨h, hset⟩ | ⟨h, hset⟩ | ⟨h, hset⟩
  · have hno : ¬ declared old ⊂ declared new := fun hlt => hset hlt.subset
    simp [h, hno]
  · simp [h, hset]
  · simp [h, hset]

theorem evaluate_forward_iff : evaluateSchema old new = .forward ↔ declared old = declared new := by
  rcases @evaluateSchema_cases old new with ⟨h, hset⟩ | ⟨h, hset⟩ | ⟨h, hset⟩
  · have hno : declared old ≠ declared new := fun heq => hset heq.subset
    simp [h, hno]
  · simp [h, hset.ne]
  · simp [h, hset]

/-! ## Histories -/

/-- **Levels compose along a history.** If no step of `s 0, ..., s n` is breaking, neither is the last
schema after the first; it is forward compatible exactly if every step is, and backward compatible
exactly if some step is. And two schemas do not break each other exactly if they are equal as maps. -/
theorem compat_composes :
    (∀ (s : ℕ → List (Str × Str)) (n : ℕ), (∀ i < n, evaluateSchema (s i) (s (i + 1)) ≠ .breaking) →
      evaluateSchema (s 0) (s n) ≠ .breaking ∧
      (evaluateSchema (s 0) (s n) = .forward ↔ ∀ i < n, evaluateSchema (s i) (s (i + 1)) = .forward) ∧
      (evaluateSchema (s 0) (s n) = .backward ↔ ∃ i < n, evaluateSchema (s i) (s (i + 1)) = .backward)) ∧
    ∀ a b : List (Str × Str),
      evaluateSchema a b ≠ .breaking ∧ evaluateSchema b a ≠ .breaking ↔
        ∀ name, a.lookup name = b.lookup name := by
  constructor
  · intro s n h
    have hchain : Ascends (fun i => declared (s i)) n := fun i hi => evaluate_ne_breaking_iff.1 (h i hi)
    refine ⟨evaluate_ne_breaking_iff.2 (hchain.first_le (Nat.le_refl n)), ?_, ?_⟩
    · simp only [evaluate_forward_iff]
      exact hchain.ends_eq_iff
    · simp only [evaluate_backward_iff]
      exact hchain.ends_lt_iff
  · intro a b
    rw [evaluate_ne_breaking_iff, evaluate_ne_breaking_iff, ← declared_eq_iff]
    exact Set.Subset.antisymm_iff.symm

/-- A migration that adds a field and then reorders the two. -/
def migrated : ℕ → List (Str × Str)
  | 0 => [(lit "id", lit "int")]
  | 1 => [(lit "id", lit "int"), (lit "name", lit "str")]
  | _ => [(lit "name", lit "str"), (lit "id", lit "int")]

theorem compat_composes_migrated :
    (∀ i < 2, evaluateSchema (migrated i) (migrated (i + 1)) ≠ .breaking) ∧
      evaluateSchema (migrated 0) (migrated 2) = .backward := by
  have hsteps : ∀ i < 2, evaluateSchema (migrated i) (migrated (i + 1)) ≠ .breaking := by decide
  exact ⟨hsteps, ((compat_composes.1 migrated 2 hsteps).2.2).2 ⟨0, by decide, by decide⟩⟩

end Schemas
end LineageVault
