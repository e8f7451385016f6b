import LineageVault.Foundations.Interruption
import Mathlib.Logic.Function.Basic

/-! # Clients of one service

Every client runs a program of its own. A call is made on the service at once, and any client whose
program has a call to make may be the next one. `allowed` is a condition on each call, given the calls
made so far and the state the call is made in; with `fun _ _ _ => True` there is none.

`Interleaves.keeps` turns what one call keeps into a fact about every interleaving, and `turns` runs a
schedule.
-/

namespace LineageVault.Foundations.Clients
open LineageVault.Foundations
set_option autoImplicit false

variable {ι S : Type} [DecidableEq ι] {R : S → Type} {ε α σ : Type}

/-- A call that a client has made, and its answer. -/
structure Answered (ι S : Type) (R : S → Type) (ε : Type) where
  client : ι
  call : S
  answer : Except ε (R call)

/-- What is left of a program whose call was answered. -/
def resume {s : S} (k : R s → Prog S R ε α) : Except ε (R s) → Prog S R ε α
  | .ok r => k r
  | .error e => .raise e

variable (service : (s : S) → σ → Except ε (R s) × σ)

/-- From the programs `ps` and the state `v`: the calls made in order, what is left of the programs, and
the state. -/
inductive Interleaves (allowed : List (Answered ι S R ε) → σ → S → Prop) (ps : ι → Prog S R ε α) (v : σ) :
    List (Answered ι S R ε) → (ι → Prog S R ε α) → σ → Prop where
  | nil : Interleaves allowed ps v [] ps v
  | snoc {trace : List (Answered ι S R ε)} {qs : ι → Prog S R ε α} {w : σ} (i : ι) {s : S}
      {k : R s → Prog S R ε α} : Interleaves allowed ps v trace qs w → qs i = .stmt s k → allowed trace w s →
      Interleaves allowed ps v (trace ++ [⟨i, s, (service s w).1⟩])
        (Function.update qs i (resume k (service s w).1)) (service s w).2

variable {service} {allowed : List (Answered ι S R ε) → σ → S → Prop} {ps : ι → Prog S R ε α} {v : σ}

/-- What every allowed call keeps holds in every interleaving. -/
theorem Interleaves.keeps {I : List (Answered ι S R ε) → (ι → Prog S R ε α) → σ → Prop} (hstart : I [] ps v)
    (hstep : ∀ trace qs w i s (k : R s → Prog S R ε α), I trace qs w → qs i = .stmt s k →
      allowed trace w s → I (trace ++ [⟨i, s, (service s w).1⟩])
        (Function.update qs i (resume k (service s w).1)) (service s w).2)
    {trace : List (Answered ι S R ε)} {qs : ι → Prog S R ε α} {w : σ}
    (h : Interleaves service allowed ps v trace qs w) : I trace qs w := by
  induction h with
  | nil => exact hstart
  | @snoc trace qs w i s k _ hcall hallowed ih => exact hstep trace qs w i s k ih hcall hallowed

variable (service)

/-- A whole schedule, as long as every client in it has an allowed call to make. -/
def turns (allowed : List (Answered ι S R ε) → σ → S → Bool) (trace : List (Answered ι S R ε))
    (qs : ι → Prog S R ε α) (w : σ) :
    List ι → Option (List (Answered ι S R ε) × (ι → Prog S R ε α) × σ)
  | [] => some (trace, qs, w)
  | i :: order =>
    match qs i with
    | .stmt s k =>
      if allowed trace w s then
        turns allowed (trace ++ [⟨i, s, (service s w).1⟩]) (Function.update qs i (resume k (service s w).1))
          (service s w).2 order
      else none
    | _ => none

theorem turns_interleaves {check : List (Answered ι S R ε) → σ → S → Bool}
    (hcheck : ∀ trace w s, check trace w s = true → allowed trace w s) {order : List ι}
    {trace trace' : List (Answered ι S R ε)} {qs qs' : ι → Prog S R ε α} {w w' : σ}
    (h : Interleaves service allowed ps v trace qs w)
    (hturns : turns service check trace qs w order = some (trace', qs', w')) :
    Interleaves service allowed ps v trace' qs' w' := by
  induction order generalizing trace qs w with
  | nil =>
    cases hturns
    exact h
  | cons i order ih =>
    rw [turns] at hturns
    split at hturns
    · next s k hcall =>
      split at hturns
      · next hallowed => exact ih (h.snoc i hcall (hcheck _ _ _ hallowed)) hturns
      · cases hturns
    · cases hturns

end LineageVault.Foundations.Clients
