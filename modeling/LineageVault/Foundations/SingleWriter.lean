import LineageVault.Foundations.Program
import Mathlib.Logic.Function.Basic

/-! # Many clients, one write transaction at a time

Clients share a store through connections of their own. A statement that reads sees the client's own
open transaction, or else what is durable; the first statement that writes opens the client's
transaction, and waits while another one is open. A call that returned commits, a call that raised
rolls back, and any call may be made to raise anywhere.

`Safe` is the proof obligation on one program text. Outside a transaction nothing may be assumed
between two statements, since other clients commit there: reads may answer anything, and the
statement that opens the transaction runs on an arbitrary durable state with the invariant. Inside
the transaction the program runs alone. `reaches_good` turns it into a fact about every
interleaving. The parameter `fresh` is a condition on opening statements and the state they open on;
with `fun _ _ => True` there is none.
-/

namespace LineageVault.Foundations.SingleWriter
open LineageVault.Foundations
set_option autoImplicit false

variable {S : Type} {R : S → Type} {ε α σ C : Type}

inductive Action (C : Type) where
  | start (c : C)
  | advance
  | abort

structure File (S : Type) (R : S → Type) (ε α σ : Type) where
  durable : σ
  writer : Option (ℕ × σ)
  client : ℕ → Option (Prog S R ε α)

namespace File

/-- No client runs and no transaction is open. -/
def init (v : σ) : File S R ε α σ := ⟨v, none, fun _ => none⟩

/-- The open transaction of client `i`. -/
def own (g : File S R ε α σ) (i : ℕ) : Option σ :=
  match g.writer with
  | none => none
  | some (j, v) => if j = i then some v else none

def setClient (g : File S R ε α σ) (i : ℕ) (p : Option (Prog S R ε α)) : File S R ε α σ :=
  { g with client := Function.update g.client i p }

/-- Client `i` rolls back and is idle. -/
def drop (g : File S R ε α σ) (i : ℕ) : File S R ε α σ :=
  { g with
    writer := if (g.own i).isSome then none else g.writer
    client := Function.update g.client i none }

/-- Client `i` commits and is idle. -/
def finish (g : File S R ε α σ) (i : ℕ) : File S R ε α σ :=
  { g.drop i with durable := (g.own i).getD g.durable }

/-- The state on which a write of client `i` runs; none while another transaction is open. -/
def turn (g : File S R ε α σ) (i : ℕ) : Option σ :=
  match g.writer with
  | none => some g.durable
  | some (j, v) => if j = i then some v else none

end File

variable (exec : (s : S) → σ → Except ε (R s × σ)) (writes : S → Bool)

def advance (g : File S R ε α σ) (i : ℕ) : Prog S R ε α → Option (File S R ε α σ)
  | .ret _ => some (g.finish i)
  | .raise _ => some (g.drop i)
  | .stmt s k =>
    if writes s then
      match g.turn i with
      | none => none
      | some v =>
        match exec s v with
        | .ok (r, v') => some { g.setClient i (some (k r)) with writer := some (i, v') }
        | .error _ => some (g.drop i)
    else
      match exec s ((g.own i).getD g.durable) with
      | .ok (r, _) => some (g.setClient i (some (k r)))
      | .error _ => some (g.drop i)

def step (prog : C → Prog S R ε α) (g : File S R ε α σ) (i : ℕ) (a : Action C) :
    Option (File S R ε α σ) :=
  match a, g.client i with
  | .start c, none => some (g.setClient i (some (prog c)))
  | .advance, some p => advance exec writes g i p
  | .abort, some _ => some (g.drop i)
  | _, _ => none

/-- The statement with which this step would open a transaction. -/
def opening (g : File S R ε α σ) (i : ℕ) (a : Action C) : Option S :=
  match a, g.client i, g.writer with
  | .advance, some (.stmt s _), none => if writes s then some s else none
  | _, _, _ => none

/-- The states of the runs from `v` in which every opening statement met `fresh`. -/
inductive Reaches (prog : C → Prog S R ε α) (fresh : S → σ → Prop) (v : σ) :
    File S R ε α σ → Prop where
  | init : Reaches prog fresh v (.init v)
  | step {g g' : File S R ε α σ} (i : ℕ) (a : Action C) : Reaches prog fresh v g →
      (∀ s ∈ opening writes g i a, fresh s g.durable) →
      step exec writes prog g i a = some g' → Reaches prog fresh v g'

/-- A whole schedule, as long as every step of it is possible and meets `fresh`. -/
def runs (prog : C → Prog S R ε α) (fresh : S → σ → Bool) (g : File S R ε α σ) :
    List (ℕ × Action C) → Option (File S R ε α σ)
  | [] => some g
  | (i, a) :: rest =>
    if (opening writes g i a).all fun s => fresh s g.durable then
      (step exec writes prog g i a).bind fun g' => runs prog fresh g' rest
    else none

theorem Reaches.runs {prog : C → Prog S R ε α} {fresh : S → σ → Bool} {v : σ}
    {g g' : File S R ε α σ} {sched : List (ℕ × Action C)}
    (hg : Reaches exec writes prog (fun s v => fresh s v = true) v g)
    (h : runs exec writes prog fresh g sched = some g') :
    Reaches exec writes prog (fun s v => fresh s v = true) v g' := by
  induction sched generalizing g with
  | nil => cases h; exact hg
  | cons ia sched ih =>
    obtain ⟨i, a⟩ := ia
    rw [SingleWriter.runs] at h
    split at h
    · next hf =>
      obtain ⟨g₁, h₁, h₂⟩ := Option.bind_eq_some_iff.1 h
      refine ih (.step i a hg (fun s hs => ?_) h₁) h₂
      rw [Option.mem_def] at hs
      simpa only [hs, Option.all_some] using hf
    · cases h

/-! ## The obligation on one program -/

/-- The program keeps `I` whatever the other clients do: `none` outside, `some v` inside its own
transaction with the view `v`. -/
def Safe (I : σ → Prop) (fresh : S → σ → Prop) : Prog S R ε α → Option σ → Prop
  | .ret _, none => True
  | .ret _, some v => I v
  | .raise _, _ => True
  | .stmt s k, none =>
    if writes s then
      ∀ v r v', I v → fresh s v → exec s v = .ok (r, v') → Safe I fresh (k r) (some v')
    else ∀ r, Safe I fresh (k r) none
  | .stmt s k, some v =>
    ∀ r v', exec s v = .ok (r, v') → Safe I fresh (k r) (some (if writes s then v' else v))

section Rules
variable {exec writes} {I : σ → Prop} {fresh : S → σ → Prop}

theorem safe_raise (e : ε) (o : Option σ) :
    Safe exec writes I fresh (.raise e : Prog S R ε α) o := by
  cases o <;> trivial

theorem safe_read {s : S} {k : R s → Prog S R ε α} (hs : writes s = false)
    (h : ∀ r, Safe exec writes I fresh (k r) none) :
    Safe exec writes I fresh (.stmt s k) none := by
  simpa only [Safe, hs, Bool.false_eq_true, if_false] using h

/-- Inside the transaction the program runs alone, so its `eval` is all that matters. -/
theorem safe_inside (hread : ∀ {s v r v'}, writes s = false → exec s v = .ok (r, v') → v' = v)
    {p : Prog S R ε α} {v : σ} (h : ∀ a w, p.eval exec v = .ok (a, w) → I w) :
    Safe exec writes I fresh p (some v) := by
  induction p generalizing v with
  | ret a => exact h a v rfl
  | raise e => trivial
  | stmt s k ih =>
    intro r v' hs
    have hk : ∀ a w, (k r).eval exec v' = .ok (a, w) → I w :=
      fun a w hw => h a w (by rw [Prog.eval_stmt_ok exec hs, hw])
    cases hw : writes s with
    | true => exact ih r hk
    | false =>
      obtain rfl := hread hw hs
      exact ih r hk

/-- A program that begins with a writing statement runs alone from there, on the state it finds. -/
theorem safe_open (hread : ∀ {s v r v'}, writes s = false → exec s v = .ok (r, v') → v' = v)
    {p : Prog S R ε α} {s : S} {k : R s → Prog S R ε α} (hp : p = .stmt s k) (hs : writes s = true)
    (h : ∀ v a w, I v → fresh s v → p.eval exec v = .ok (a, w) → I w) :
    Safe exec writes I fresh p none := by
  subst hp
  simp only [Safe, hs, if_true]
  intro v r v' hv hf hex
  refine safe_inside hread fun a w hw => h v a w hv hf ?_
  rw [Prog.eval_stmt_ok exec hex, hw]

theorem safe_ofExcept_bind {β : Type} {x : Except ε β} {f : β → Prog S R ε α} {o : Option σ}
    (h : ∀ b, x = .ok b → Safe exec writes I fresh (f b) o) :
    Safe exec writes I fresh (Prog.ofExcept x >>= f) o := by
  cases x with
  | ok b => exact h b rfl
  | error e => exact safe_raise e o

end Rules

/-! ## From one program to every interleaving -/

/-- What holds between any two steps: the durable state has the invariant, every running program is
still safe where it stands, and no idle client has a transaction. -/
structure Good (I : σ → Prop) (fresh : S → σ → Prop) (g : File S R ε α σ) : Prop where
  durable : I g.durable
  safe : ∀ i p, g.client i = some p → Safe exec writes I fresh p (g.own i)
  idle : ∀ i, g.client i = none → g.own i = none

section Invariant
variable {exec writes} {I : σ → Prop} {fresh : S → σ → Prop} {g : File S R ε α σ} {i : ℕ}

theorem own_eq_some {v : σ} (h : g.own i = some v) : g.writer = some (i, v) := by
  unfold File.own at h
  split at h
  · cases h
  · next j w hw =>
    split at h
    · next hj => cases h; rw [hw, hj]
    · cases h

theorem own_ne {v : σ} {j : ℕ} (h : g.own i = some v) (hj : j ≠ i) : g.own j = none := by
  simp only [File.own, own_eq_some h, if_neg hj.symm]

theorem own_drop_self : (g.drop i).own i = none := by
  cases h : g.own i with
  | none => simp only [File.drop, h, Option.isSome_none, Bool.false_eq_true, if_false]; exact h
  | some v => simp only [File.drop, h, Option.isSome_some, if_true]; rfl

theorem own_drop_ne {j : ℕ} (hj : j ≠ i) : (g.drop i).own j = g.own j := by
  cases h : g.own i with
  | none => simp only [File.drop, h, Option.isSome_none, Bool.false_eq_true, if_false]; rfl
  | some v =>
    rw [own_ne h hj]
    simp only [File.drop, h, Option.isSome_some, if_true]; rfl

theorem good_drop (h : Good exec writes I fresh g) (i : ℕ) : Good exec writes I fresh (g.drop i) where
  durable := h.durable
  safe j p hp := by
    by_cases hj : j = i
    · subst hj; simp [File.drop] at hp
    · rw [own_drop_ne hj]
      exact h.safe j p (by simpa [File.drop, Function.update_of_ne hj] using hp)
  idle j hp := by
    by_cases hj : j = i
    · subst hj; exact own_drop_self
    · rw [own_drop_ne hj]
      exact h.idle j (by simpa [File.drop, Function.update_of_ne hj] using hp)

theorem good_finish (h : Good exec writes I fresh g) {a : α} (hp : g.client i = some (.ret a)) :
    Good exec writes I fresh (g.finish i) := by
  have hs := h.safe i _ hp
  refine ⟨?_, (good_drop h i).safe, (good_drop h i).idle⟩
  cases ho : g.own i with
  | none => simpa [File.finish, ho] using h.durable
  | some v =>
    rw [ho] at hs
    simp only [File.finish, ho, Option.getD_some]
    exact hs

/-- Client `i` moves to `p`, which is safe there, and nothing changes for the others. -/
theorem good_setClient (h : Good exec writes I fresh g) {p : Prog S R ε α}
    (hp : Safe exec writes I fresh p (g.own i)) :
    Good exec writes I fresh (g.setClient i (some p)) where
  durable := h.durable
  safe j q hq := by
    by_cases hj : j = i
    · subst hj
      simp only [File.setClient, Function.update_self, Option.some.injEq] at hq
      exact hq ▸ hp
    · exact h.safe j q (by simpa [File.setClient, Function.update_of_ne hj] using hq)
  idle j hq := by
    by_cases hj : j = i
    · subst hj; simp [File.setClient] at hq
    · exact h.idle j (by simpa [File.setClient, Function.update_of_ne hj] using hq)

theorem turn_cases {v : σ} (h : g.turn i = some v) :
    (g.writer = none ∧ v = g.durable) ∨ g.own i = some v := by
  unfold File.turn at h
  unfold File.own
  split at h
  · next hw => cases h; exact .inl ⟨hw, rfl⟩
  · next j w hw => exact .inr h

/-- Client `i` holds the transaction with view `v` and is about to run `p`. -/
theorem good_hold (h : Good exec writes I fresh g) {v w : σ} (ht : g.turn i = some w)
    {p : Prog S R ε α} (hp : Safe exec writes I fresh p (some v)) :
    Good exec writes I fresh { g.setClient i (some p) with writer := some (i, v) } := by
  have hne : ∀ j, j ≠ i → g.own j = none := by
    intro j hj
    rcases turn_cases ht with ⟨hw, -⟩ | ho
    · simp only [File.own, hw]
    · exact own_ne ho hj
  refine ⟨h.durable, ?_, ?_⟩
  · intro j q hq
    by_cases hj : j = i
    · subst hj
      simp only [File.setClient, Function.update_self, Option.some.injEq] at hq
      simpa only [File.own, if_true, ← hq] using hp
    · have hs := h.safe j q (by simpa [File.setClient, Function.update_of_ne hj] using hq)
      rw [hne j hj] at hs
      simpa only [File.own, if_neg (Ne.symm hj)] using hs
  · intro j hq
    by_cases hj : j = i
    · subst hj; simp [File.setClient] at hq
    · simp only [File.own, if_neg (Ne.symm hj)]

theorem good_advance (h : Good exec writes I fresh g) {p : Prog S R ε α} {g' : File S R ε α σ}
    (hp : g.client i = some p)
    (hf : ∀ s ∈ opening writes g i (.advance : Action C), fresh s g.durable)
    (hg : advance exec writes g i p = some g') : Good exec writes I fresh g' := by
  have hs := h.safe i p hp
  cases p with
  | ret a => cases hg; exact good_finish h hp
  | raise e => cases hg; exact good_drop h i
  | stmt s k =>
    simp only [advance] at hg
    split at hg
    · next hw =>
      split at hg
      · cases hg
      · next v ht =>
        split at hg
        · next r v' he =>
          cases hg
          refine good_hold h ht ?_
          rcases turn_cases ht with ⟨hn, rfl⟩ | ho
          · have hown : g.own i = none := by simp only [File.own, hn]
            simp only [Safe, hown, hw, if_true] at hs
            have hopen : opening writes g i (.advance : Action C) = some s := by
              simp only [opening, hp, hn, hw, if_true]
            exact hs _ r v' h.durable (hf s hopen) he
          · simp only [Safe, ho, hw, if_true] at hs
            exact hs r v' he
        · cases hg; exact good_drop h i
    · next hw =>
      split at hg
      · next r v' he =>
        cases hg
        refine good_setClient h ?_
        cases ho : g.own i with
        | none =>
          simp only [Safe, ho, hw] at hs
          exact hs r
        | some v =>
          simp only [ho, Option.getD_some] at he
          simp only [Safe, ho, hw] at hs
          exact hs r v' he
      · cases hg; exact good_drop h i

/-- **Every interleaving.** If each call's text is safe, the invariant holds of whatever is durable
in every run whose opening statements met `fresh`. -/
theorem reaches_good {prog : C → Prog S R ε α} {v : σ} (hv : I v)
    (hprog : ∀ c, Safe exec writes I fresh (prog c) none)
    (h : Reaches exec writes prog fresh v g) : Good exec writes I fresh g := by
  induction h with
  | init => exact ⟨hv, fun i p hp => by simp [File.init] at hp, fun _ _ => rfl⟩
  | step i a _ hf hg ih =>
    simp only [step] at hg
    split at hg
    · next c hi =>
      cases hg
      refine good_setClient ih ?_
      rw [ih.idle i hi]
      exact hprog c
    · next p hi => exact good_advance ih hi hf hg
    · cases hg; exact good_drop ih i
    · cases hg

end Invariant
end LineageVault.Foundations.SingleWriter
