import LineageVault.Foundations.Program
import Mathlib.Data.List.FinRange
import Mathlib.Logic.Function.Basic

/-! # Many clients under READ COMMITTED, with one advisory lock

`n` clients share a database. A transaction keeps its own changes `ω` apart; each of its statements
runs on what is committed by then together with its own changes, and waits while it conflicts with a
change of another open transaction. Calls that want the advisory lock take it before their first
statement and hold it to the end of the transaction. Numbers `ν` (sequences) are not part of the
transaction: they are taken at once and never given back.

A call that returned commits and enters the log; a call that raised, or is made to raise anywhere,
leaves nothing behind. `step_cases` says all a step can do.
-/

namespace LineageVault.Foundations.ReadCommitted
open LineageVault.Foundations
set_option autoImplicit false

variable {S : Type} {R : S → Type} {ε α C σ ν ω : Type} {n : ℕ}

structure Engine (S : Type) (R : S → Type) (ε α C σ ν ω : Type) where
  effect : ν → σ → (s : S) → Except ε (R s × List ω × ν)
  applyAll : σ → List ω → σ
  conflicts : S → ω → Bool
  later : ν → ν → Bool
  prog : C → Prog S R ε α
  locks : C → Bool

structure Txn (S : Type) (R : S → Type) (ε α C ω : Type) where
  call : C
  /-- the lock is the next thing to take -/
  waits : Bool
  prog : Prog S R ε α
  own : List ω

structure Server (S : Type) (R : S → Type) (ε α C σ ν ω : Type) (n : ℕ) where
  db : σ
  numbers : ν
  lock : Option (Fin n)
  client : Fin n → Option (Txn S R ε α C ω)
  log : List (C × α)

inductive Action (C ν : Type) (n : ℕ) where
  | start (i : Fin n) (c : C)
  | lock (i : Fin n)
  | advance (i : Fin n)
  | abort (i : Fin n)
  | gap (m : ν)

namespace Server

def init (db : σ) (m : ν) : Server S R ε α C σ ν ω n := ⟨db, m, none, fun _ => none, []⟩

def setClient (g : Server S R ε α C σ ν ω n) (i : Fin n) (t : Option (Txn S R ε α C ω)) :
    Server S R ε α C σ ν ω n :=
  { g with client := Function.update g.client i t }

/-- The transaction of client `i` ends. -/
def leave (g : Server S R ε α C σ ν ω n) (i : Fin n) : Server S R ε α C σ ν ω n :=
  { g.setClient i none with lock := if g.lock = some i then none else g.lock }

end Server

variable (E : Engine S R ε α C σ ν ω)

/-- What client `i` sees. -/
def view (g : Server S R ε α C σ ν ω n) (t : Txn S R ε α C ω) : σ := E.applyAll g.db t.own

def blocked (g : Server S R ε α C σ ν ω n) (i : Fin n) (s : S) : Bool :=
  (List.finRange n).any fun j => decide (j ≠ i) &&
    (g.client j).any fun t => t.own.any (E.conflicts s)

def advance (g : Server S R ε α C σ ν ω n) (i : Fin n) (t : Txn S R ε α C ω) :
    Option (Server S R ε α C σ ν ω n) :=
  match t.prog with
  | .ret a => some { g.leave i with db := view E g t, log := g.log ++ [(t.call, a)] }
  | .raise _ => some (g.leave i)
  | .stmt s k =>
    if blocked E g i s then none
    else
      match E.effect g.numbers (view E g t) s with
      | .ok (r, ws, m) =>
        some { g.setClient i (some { t with prog := k r, own := t.own ++ ws }) with numbers := m }
      | .error _ => some (g.leave i)

def step (g : Server S R ε α C σ ν ω n) : Action C ν n → Option (Server S R ε α C σ ν ω n)
  | .start i c =>
    match g.client i with
    | none => some (g.setClient i (some ⟨c, E.locks c, E.prog c, []⟩))
    | some _ => none
  | .lock i =>
    match g.client i, g.lock with
    | some t, none =>
      if t.waits then some { g.setClient i (some { t with waits := false }) with lock := some i }
      else none
    | _, _ => none
  | .advance i =>
    match g.client i with
    | some t => if t.waits then none else advance E g i t
    | none => none
  | .abort i =>
    match g.client i with
    | some _ => some (g.leave i)
    | none => none
  | .gap m => if E.later g.numbers m then some { g with numbers := m } else none

def runs (g : Server S R ε α C σ ν ω n) : List (Action C ν n) → Option (Server S R ε α C σ ν ω n)
  | [] => some g
  | a :: rest => (step E g a).bind fun g' => runs g' rest

inductive Reaches (db : σ) (m : ν) : Server S R ε α C σ ν ω n → Prop where
  | init : Reaches db m (.init db m)
  | step {g g' : Server S R ε α C σ ν ω n} (a : Action C ν n) : Reaches db m g →
      step E g a = some g' → Reaches db m g'

theorem Reaches.runs {db : σ} {m : ν} {g g' : Server S R ε α C σ ν ω n}
    {sched : List (Action C ν n)} (hg : Reaches E db m g) (h : runs E g sched = some g') :
    Reaches E db m g' := by
  induction sched generalizing g with
  | nil => cases h; exact hg
  | cons a sched ih =>
    obtain ⟨g₁, h₁, h₂⟩ := Option.bind_eq_some_iff.1 h
    exact ih (.step a hg h₁) h₂

/-! ## What a step can do -/

inductive Step (E : Engine S R ε α C σ ν ω) (g : Server S R ε α C σ ν ω n) :
    Server S R ε α C σ ν ω n → Prop where
  | started (i : Fin n) (c : C) (idle : g.client i = none) :
      Step E g (g.setClient i (some ⟨c, E.locks c, E.prog c, []⟩))
  | locked {i : Fin n} {t : Txn S R ε α C ω} (running : g.client i = some t)
      (waits : t.waits = true) (free : g.lock = none) :
      Step E g { g.setClient i (some { t with waits := false }) with lock := some i }
  | left (i : Fin n) : Step E g (g.leave i)
  | committed {i : Fin n} {t : Txn S R ε α C ω} {a : α} (running : g.client i = some t)
      (goes : t.waits = false) (done : t.prog = .ret a) :
      Step E g { g.leave i with db := view E g t, log := g.log ++ [(t.call, a)] }
  | executed {i : Fin n} {t : Txn S R ε α C ω} {s : S} {k : R s → Prog S R ε α} {r : R s}
      {ws : List ω} {m : ν} (running : g.client i = some t) (goes : t.waits = false)
      (next : t.prog = .stmt s k) (free : blocked E g i s = false)
      (effect : E.effect g.numbers (view E g t) s = .ok (r, ws, m)) :
      Step E g { g.setClient i (some { t with prog := k r, own := t.own ++ ws }) with numbers := m }
  | gapped {m : ν} (later : E.later g.numbers m = true) : Step E g { g with numbers := m }

theorem advance_cases {g g' : Server S R ε α C σ ν ω n} {i : Fin n} {t : Txn S R ε α C ω}
    (ht : g.client i = some t) (hw : t.waits = false) (h : advance E g i t = some g') :
    Step E g g' := by
  unfold advance at h
  split at h
  · next a hp => cases h; exact .committed ht hw hp
  · cases h; exact .left i
  · next s k hp =>
    split at h
    · cases h
    · next hb =>
      split at h
      · next r ws m he => cases h; exact .executed ht hw hp (by simpa using hb) he
      · cases h; exact .left i

theorem step_cases {g g' : Server S R ε α C σ ν ω n} {a : Action C ν n}
    (h : step E g a = some g') : Step E g g' := by
  cases a with
  | start i c =>
    simp only [step] at h
    split at h
    · next hi => cases h; exact .started i c hi
    · cases h
  | lock i =>
    simp only [step] at h
    split at h
    · next t hi hl =>
      split at h
      · next hw => cases h; exact .locked hi hw hl
      · cases h
    · cases h
  | advance i =>
    simp only [step] at h
    split at h
    · next t hi =>
      split at h
      · cases h
      · next hw => exact advance_cases E hi (by simpa using hw) h
    · cases h
  | abort i =>
    simp only [step] at h
    split at h
    · cases h; exact .left i
    · cases h
  | gap m =>
    simp only [step] at h
    split at h
    · next hl => cases h; exact .gapped hl
    · cases h

/-- An unblocked statement conflicts with nobody else's changes. -/
theorem not_conflicts {g : Server S R ε α C σ ν ω n} {i j : Fin n} {s : S}
    (h : blocked E g i s = false) (hj : j ≠ i) {t : Txn S R ε α C ω} (ht : g.client j = some t)
    {w : ω} (hw : w ∈ t.own) : E.conflicts s w = false := by
  by_contra hc
  rw [Bool.not_eq_false] at hc
  have : blocked E g i s = true := by
    refine List.any_eq_true.2 ⟨j, List.mem_finRange j, ?_⟩
    rw [ht]
    simp only [hj, ne_eq, not_false_eq_true, decide_true, Bool.true_and, Option.any_some]
    exact List.any_eq_true.2 ⟨w, hw, hc⟩
  rw [h] at this
  cases this

/-! ## Clients after a step -/

section Clients
variable {g : Server S R ε α C σ ν ω n} {i j : Fin n} {t t' : Txn S R ε α C ω}

theorem setClient_cases {o : Option (Txn S R ε α C ω)} (h : (g.setClient i o).client j = some t') :
    (j = i ∧ o = some t') ∨ (j ≠ i ∧ g.client j = some t') := by
  by_cases hj : j = i
  · subst hj
    exact .inl ⟨rfl, by simpa [Server.setClient] using h⟩
  · exact .inr ⟨hj, by simpa [Server.setClient, Function.update_of_ne hj] using h⟩

theorem leave_cases (h : (g.leave i).client j = some t') : j ≠ i ∧ g.client j = some t' := by
  rcases setClient_cases h with ⟨-, h⟩ | h
  · cases h
  · exact h

end Clients
end LineageVault.Foundations.ReadCommitted
