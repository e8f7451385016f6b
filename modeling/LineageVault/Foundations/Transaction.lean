import LineageVault.Foundations.Program

/-! # One connection to a store

A connection sees its own uncommitted writes (`view`); what survives the connection is `durable`.
The two differ exactly while a write transaction is open. A program is run on a connection in one of
two shapes: `transaction` commits when it returns and rolls back when anything raises, `unguarded`
commits when it returns and leaves the writes made so far uncommitted when anything raises.

`transaction_cases` is all the later proofs need of the first: a guarded program either raised and left
nothing behind, or is an `eval` of its text whose outcome is now durable. `unguarded_run` says what the
second leaves open.
-/

namespace LineageVault.Foundations
set_option autoImplicit false

structure Session (σ : Type) where
  durable : σ
  view : σ

namespace Session
variable {S : Type} {R : S → Type} {ε α σ : Type}

def rollback (c : Session σ) : Session σ := ⟨c.durable, c.durable⟩

@[simp] theorem rollback_view (c : Session σ) : c.rollback.view = c.durable := rfl

variable (exec : (s : S) → σ → Except ε (R s × σ)) (fault : ε)

def transaction (fs : List Bool) (p : Prog S R ε α) (c : Session σ) : Except ε α × Session σ :=
  match p.run exec fault fs c.view with
  | (.ok a, v, fs') => if fs'.headD false then (.error fault, c.rollback) else (.ok a, ⟨v, v⟩)
  | (.error e, _, _) => (.error e, c.rollback)

/-- A commit that fails is one that raises before it takes effect: the transaction stays open. -/
def unguarded (fs : List Bool) (p : Prog S R ε α) (c : Session σ) : Except ε α × Session σ :=
  match p.run exec fault fs c.view with
  | (.ok a, v, fs') =>
    if fs'.headD false then (.error fault, { c with view := v }) else (.ok a, ⟨v, v⟩)
  | (.error e, v, _) => (.error e, { c with view := v })

theorem transaction_cases (fs : List Bool) (p : Prog S R ε α) (c : Session σ) :
    (∃ e, transaction exec fault fs p c = (.error e, c.rollback)) ∨
    (∃ a v, p.eval exec c.view = .ok (a, v) ∧
      transaction exec fault fs p c = (.ok a, ⟨v, v⟩)) := by
  unfold transaction
  split
  · next a v fs' h =>
    split
    · exact .inl ⟨fault, rfl⟩
    · exact .inr ⟨a, v, Prog.run_ok exec fault h, rfl⟩
  · next e _ _ h => exact .inl ⟨e, rfl⟩

theorem transaction_ok {p : Prog S R ε α} {c : Session σ} {a : α} {v : σ}
    (h : p.eval exec c.view = .ok (a, v)) :
    transaction exec fault [] p c = (.ok a, ⟨v, v⟩) := by
  simp only [transaction, Prog.run_nil_ok exec fault h, List.headD_nil, Bool.false_eq_true,
    if_false]

theorem transaction_error {p : Prog S R ε α} {c : Session σ} {e : ε}
    (h : p.eval exec c.view = .error e) :
    transaction exec fault [] p c = (.error e, c.rollback) := by
  obtain ⟨w, fs', hr⟩ := Prog.run_nil_error exec fault h
  simp only [transaction, hr]

/-- The connection sees what the program has written, and it is committed where the program returns. -/
theorem unguarded_run (fs : List Bool) (p : Prog S R ε α) (c : Session σ) :
    let x := p.run exec fault fs c.view
    (∃ e, unguarded exec fault fs p c = (.error e, { c with view := x.2.1 })) ∨
    (∃ a, x.1 = .ok a ∧ unguarded exec fault fs p c = (.ok a, ⟨x.2.1, x.2.1⟩)) := by
  unfold unguarded
  split
  · next a v fs' h =>
    split
    · exact .inl ⟨fault, by rw [h]⟩
    · exact .inr ⟨a, by rw [h], by rw [h]⟩
  · next e v _ h => exact .inl ⟨e, by rw [h]⟩

theorem unguarded_ok {p : Prog S R ε α} {c : Session σ} {a : α} {v : σ}
    (h : p.eval exec c.view = .ok (a, v)) : unguarded exec fault [] p c = (.ok a, ⟨v, v⟩) := by
  simp only [unguarded, Prog.run_nil_ok exec fault h, List.headD_nil, Bool.false_eq_true, if_false]

/-- What an unguarded program may leave open is what its allowed statements keep. -/
theorem unguarded_keeps {allowed : S → Prop} {P : σ → Prop}
    (hstep : ∀ s v r v', allowed s → P v → exec s v = .ok (r, v') → P v')
    {p : Prog S R ε α} (hp : p.Uses allowed) (fs : List Bool) {c : Session σ}
    (hd : P c.durable) (hv : P c.view) :
    P (unguarded exec fault fs p c).2.durable ∧ P (unguarded exec fault fs p c).2.view := by
  have hr := Prog.run_keeps exec fault hstep hp fs hv
  rcases unguarded_run exec fault fs p c with ⟨e, h⟩ | ⟨a, -, h⟩
  · rw [h]
    exact ⟨hd, hr⟩
  · rw [h]
    exact ⟨hr, hr⟩

/-- A change that the allowed statements neither see nor touch. -/
theorem unguarded_map {allowed : S → Prop} {g : σ → σ}
    (hg : ∀ s v, allowed s → exec s (g v) = (exec s v).map fun x => (x.1, g x.2))
    {p : Prog S R ε α} (hp : p.Uses allowed) (fs : List Bool) (c : Session σ) :
    unguarded exec fault fs p ⟨g c.durable, g c.view⟩ =
      ((unguarded exec fault fs p c).1, ⟨g (unguarded exec fault fs p c).2.durable,
        g (unguarded exec fault fs p c).2.view⟩) := by
  simp only [unguarded, Prog.run_map exec fault hg hp]
  obtain ⟨result, v, fs'⟩ := Prog.run exec fault fs p c.view
  cases result with
  | error e => rfl
  | ok a =>
    dsimp only
    split <;> rfl

end Session
end LineageVault.Foundations
