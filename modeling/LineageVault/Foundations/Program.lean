import Mathlib.Data.List.Basic

/-! # Programs that talk to a store one statement at a time

A `Prog` is the text of a client: each statement it issues is answered by a reply of the statement's
own type, on which the rest of the program depends. The same text is given three meanings:

* `eval`: alone on a store, without failures of the surroundings;
* `run`: alone on a store, where the surroundings may make any statement raise;
* one statement at a time among other clients (`SingleWriter`, `ReadCommitted`).

`run_ok` is the bridge: a run that returns is an `eval`, whatever failures were scheduled.
-/

namespace LineageVault.Foundations
set_option autoImplicit false

/-- A program over statements `S`; statement `s` is answered by an `R s`. It returns an `α` or
raises an `ε`. -/
inductive Prog (S : Type) (R : S → Type) (ε α : Type) where
  | ret (a : α)
  | raise (e : ε)
  | stmt (s : S) (k : R s → Prog S R ε α)

namespace Prog
variable {S : Type} {R : S → Type} {ε α β σ : Type}

def bind : Prog S R ε α → (α → Prog S R ε β) → Prog S R ε β
  | .ret a, f => f a
  | .raise e, _ => .raise e
  | .stmt s k, f => .stmt s fun r => (k r).bind f

instance : Monad (Prog S R ε) where
  pure := .ret
  bind := .bind

/-- Issue one statement and return its reply. -/
def query (s : S) : Prog S R ε (R s) := .stmt s .ret

/-- A computation without statements. -/
def ofExcept : Except ε α → Prog S R ε α
  | .ok a => .ret a
  | .error e => .raise e

@[simp] theorem pure_eq (a : α) : (pure a : Prog S R ε α) = .ret a := rfl

@[simp] theorem ret_bind (a : α) (f : α → Prog S R ε β) : (Prog.ret a >>= f) = f a := rfl

@[simp] theorem stmt_bind (s : S) (k : R s → Prog S R ε α) (f : α → Prog S R ε β) :
    (Prog.stmt s k >>= f) = .stmt s fun r => k r >>= f := rfl

@[simp] theorem query_bind (s : S) (f : R s → Prog S R ε β) :
    (query s >>= f : Prog S R ε β) = .stmt s f := rfl

theorem bind_assoc {γ : Type} (p : Prog S R ε α) (f : α → Prog S R ε β) (g : β → Prog S R ε γ) :
    (p >>= f) >>= g = p >>= fun a => f a >>= g := by
  induction p with
  | ret a => rfl
  | raise e => rfl
  | stmt s k ih =>
    simp only [stmt_bind]
    exact congrArg (Prog.stmt s) (funext fun r => ih r)

@[simp] theorem ofExcept_ok (a : α) : (ofExcept (.ok a) : Prog S R ε α) = .ret a := rfl

/-! ## Alone on a store -/

section Alone
variable (exec : (s : S) → σ → Except ε (R s × σ))

def eval : Prog S R ε α → σ → Except ε (α × σ)
  | .ret a, v => .ok (a, v)
  | .raise e, _ => .error e
  | .stmt s k, v =>
    match exec s v with
    | .ok (r, v') => eval (k r) v'
    | .error e => .error e

@[simp] theorem eval_ret (a : α) (v : σ) : eval exec (.ret a : Prog S R ε α) v = .ok (a, v) := rfl

theorem eval_stmt_ok {s : S} {k : R s → Prog S R ε α} {v v' : σ} {r : R s}
    (h : exec s v = .ok (r, v')) : eval exec (.stmt s k) v = eval exec (k r) v' := by
  simp only [eval, h]

theorem eval_stmt_error {s : S} {k : R s → Prog S R ε α} {v : σ} {e : ε}
    (h : exec s v = .error e) : eval exec (.stmt s k) v = .error e := by
  simp only [eval, h]

/-- A statement whose run returned was answered, and the rest of the program returned. -/
theorem eval_stmt_cases {s : S} {k : R s → Prog S R ε α} {v w : σ} {a : α}
    (h : eval exec (.stmt s k) v = .ok (a, w)) :
    ∃ r v', exec s v = .ok (r, v') ∧ eval exec (k r) v' = .ok (a, w) := by
  cases hs : exec s v with
  | error e => rw [eval_stmt_error exec hs] at h; cases h
  | ok x =>
    obtain ⟨r, v'⟩ := x
    rw [eval_stmt_ok exec hs] at h
    exact ⟨r, v', rfl, h⟩

theorem eval_bind (p : Prog S R ε α) (f : α → Prog S R ε β) (v : σ) :
    eval exec (p >>= f) v =
      match eval exec p v with
      | .ok (a, v') => eval exec (f a) v'
      | .error e => .error e := by
  induction p generalizing v with
  | ret a => rfl
  | raise e => rfl
  | stmt s k ih =>
    rw [stmt_bind]
    cases hs : exec s v with
    | error e => rw [eval_stmt_error exec hs, eval_stmt_error exec hs]
    | ok x => rw [eval_stmt_ok exec hs, eval_stmt_ok exec hs, ih]

/-- Both halves of a sequence that returned. -/
theorem eval_bind_cases {p : Prog S R ε α} {f : α → Prog S R ε β} {v w : σ} {b : β}
    (h : eval exec (p >>= f) v = .ok (b, w)) :
    ∃ a u, eval exec p v = .ok (a, u) ∧ eval exec (f a) u = .ok (b, w) := by
  rw [eval_bind] at h
  cases hp : eval exec p v with
  | error e => rw [hp] at h; cases h
  | ok x =>
    rw [hp] at h
    exact ⟨x.1, x.2, rfl, h⟩

theorem eval_ofExcept_bind_cases {x : Except ε α} {f : α → Prog S R ε β} {v w : σ} {b : β}
    (h : eval exec (ofExcept x >>= f) v = .ok (b, w)) :
    ∃ a, x = .ok a ∧ eval exec (f a) v = .ok (b, w) := by
  cases x with
  | error e => cases h
  | ok a => exact ⟨a, rfl, h⟩

/-! ## With failures of the surroundings

`fs` says for each statement in turn whether the surroundings make it raise `fault` before it has
any effect; past the end of `fs` they do not. The store is kept as it stands where the run stopped,
and so is the unused rest of `fs`. -/

variable (fault : ε)

def run : List Bool → Prog S R ε α → σ → Except ε α × σ × List Bool
  | fs, .ret a, v => (.ok a, v, fs)
  | fs, .raise e, v => (.error e, v, fs)
  | fs, .stmt s k, v =>
    match fs.headD false, exec s v with
    | true, _ => (.error fault, v, fs.tail)
    | false, .ok (r, v') => run fs.tail (k r) v'
    | false, .error e => (.error e, v, fs.tail)

theorem run_ok {fs fs' : List Bool} {p : Prog S R ε α} {v w : σ} {a : α}
    (h : run exec fault fs p v = (.ok a, w, fs')) : eval exec p v = .ok (a, w) := by
  induction p generalizing fs v with
  | ret b => simp only [run, Prod.mk.injEq, Except.ok.injEq] at h; rw [eval_ret, h.1, h.2.1]
  | raise e => simp [run] at h
  | stmt s k ih =>
    simp only [run] at h
    split at h
    · cases h
    · next hs => rw [eval_stmt_ok exec hs]; exact ih _ h
    · cases h

theorem run_nil_ok {p : Prog S R ε α} {v w : σ} {a : α} (h : eval exec p v = .ok (a, w)) :
    run exec fault [] p v = (.ok a, w, []) := by
  induction p generalizing v with
  | ret b => cases h; rfl
  | raise e => cases h
  | stmt s k ih =>
    obtain ⟨r, v', hs, hk⟩ := eval_stmt_cases exec h
    simp only [run, List.headD_nil, hs, List.tail_nil]
    exact ih r hk

theorem run_nil_error {p : Prog S R ε α} {v : σ} {e : ε} (h : eval exec p v = .error e) :
    ∃ w fs', run exec fault [] p v = (.error e, w, fs') := by
  induction p generalizing v with
  | ret b => cases h
  | raise e' => cases h; exact ⟨v, [], rfl⟩
  | stmt s k ih =>
    cases hs : exec s v with
    | error e' =>
      rw [eval_stmt_error exec hs] at h
      cases h
      exact ⟨v, [], by simp only [run, List.headD_nil, hs, List.tail_nil]⟩
    | ok x =>
      rw [eval_stmt_ok exec hs] at h
      obtain ⟨w, fs', hk⟩ := ih x.1 h
      exact ⟨w, fs', by simpa only [run, List.headD_nil, hs, List.tail_nil] using hk⟩

/-! ## What every statement keeps, a run keeps -/

/-- Every statement the program may issue is allowed. -/
def Uses (allowed : S → Prop) : Prog S R ε α → Prop
  | .ret _ => True
  | .raise _ => True
  | .stmt s k => allowed s ∧ ∀ r, (k r).Uses allowed

theorem uses_true (p : Prog S R ε α) : p.Uses fun _ => True := by
  induction p with
  | ret a => trivial
  | raise e => trivial
  | stmt s k ih => exact ⟨trivial, ih⟩

theorem Uses.imp {allowed allowed' : S → Prop} (himp : ∀ s, allowed s → allowed' s)
    {p : Prog S R ε α} (hp : p.Uses allowed) : p.Uses allowed' := by
  induction p with
  | ret a => trivial
  | raise e => trivial
  | stmt s k ih => exact ⟨himp s hp.1, fun r => ih r (hp.2 r)⟩

theorem Uses.bind {allowed : S → Prop} {p : Prog S R ε α} {f : α → Prog S R ε β}
    (hp : p.Uses allowed) (hf : ∀ a, (f a).Uses allowed) : (p >>= f).Uses allowed := by
  induction p with
  | ret a => exact hf a
  | raise e => trivial
  | stmt s k ih => exact ⟨hp.1, fun r => ih r (hp.2 r)⟩

theorem uses_query_bind {allowed : S → Prop} {s : S} {f : R s → Prog S R ε α} (hs : allowed s)
    (hf : ∀ r, (f r).Uses allowed) : (query s >>= f).Uses allowed := ⟨hs, hf⟩

theorem uses_forM {γ : Type} {allowed : S → Prop} {xs : List γ} {f : γ → Prog S R ε PUnit}
    (h : ∀ x, (f x).Uses allowed) : (xs.forM f).Uses allowed := by
  induction xs with
  | nil => trivial
  | cons x xs ih => exact (h x).bind fun _ => ih

theorem uses_ofExcept_bind {allowed : S → Prop} {x : Except ε α} {f : α → Prog S R ε β}
    (hf : ∀ a, (f a).Uses allowed) : (ofExcept x >>= f).Uses allowed := by
  cases x with
  | ok a => exact hf a
  | error e => trivial

theorem run_keeps {allowed : S → Prop} {P : σ → Prop}
    (hstep : ∀ s v r v', allowed s → P v → exec s v = .ok (r, v') → P v')
    {p : Prog S R ε α} (hp : p.Uses allowed) (fs : List Bool) {v : σ} (hv : P v) :
    P (run exec fault fs p v).2.1 := by
  induction p generalizing fs v with
  | ret a => exact hv
  | raise e => exact hv
  | stmt s k ih =>
    simp only [run]
    split
    · exact hv
    · next hs => exact ih _ (hp.2 _) _ (hstep s v _ _ hp.1 hv hs)
    · exact hv

/-- A change of the store that the allowed statements neither see nor touch may as well come after
the run. -/
theorem run_map {allowed : S → Prop} {g : σ → σ}
    (hg : ∀ s v, allowed s → exec s (g v) = (exec s v).map fun x => (x.1, g x.2))
    {p : Prog S R ε α} (hp : p.Uses allowed) (fs : List Bool) (v : σ) :
    run exec fault fs p (g v) =
      ((run exec fault fs p v).1, g (run exec fault fs p v).2.1, (run exec fault fs p v).2.2) := by
  induction p generalizing fs v with
  | ret a => rfl
  | raise e => rfl
  | stmt s k ih =>
    simp only [run, hg s v hp.1]
    cases fs.headD false with
    | true => rfl
    | false =>
      cases exec s v with
      | error e => rfl
      | ok x => exact ih x.1 (hp.2 x.1) fs.tail x.2

theorem eval_map {allowed : S → Prop} {g : σ → σ}
    (hg : ∀ s v, allowed s → exec s (g v) = (exec s v).map fun x => (x.1, g x.2))
    {p : Prog S R ε α} (hp : p.Uses allowed) (v : σ) :
    eval exec p (g v) = (eval exec p v).map fun x => (x.1, g x.2) := by
  induction p generalizing v with
  | ret a => rfl
  | raise e => rfl
  | stmt s k ih =>
    simp only [eval, hg s v hp.1]
    cases exec s v with
    | error e => rfl
    | ok x => exact ih x.1 (hp.2 x.1) x.2

/-! ## What the replies to a program's statements are -/

/-- Every reply the program gets on its way, wherever it stops, satisfies `Q`. -/
def Replies (Q : (s : S) → R s → Prop) : Prog S R ε α → σ → Prop
  | .ret _, _ => True
  | .raise _, _ => True
  | .stmt s k, v => ∀ r v', exec s v = .ok (r, v') → Q s r ∧ (k r).Replies Q v'

variable {exec}

theorem replies_bind {Q : (s : S) → R s → Prop} {p : Prog S R ε α} {f : α → Prog S R ε β} {v : σ}
    (hp : p.Replies exec Q v)
    (hf : ∀ a v', p.eval exec v = .ok (a, v') → (f a).Replies exec Q v') :
    (p >>= f).Replies exec Q v := by
  induction p generalizing v with
  | ret a => exact hf a v rfl
  | raise e => trivial
  | stmt s k ih =>
    intro r v' hs
    refine ⟨(hp r v' hs).1, ih r (hp r v' hs).2 fun a w hw => ?_⟩
    exact hf a w (by rw [eval_stmt_ok exec hs, hw])

theorem replies_of_uses {Q : (s : S) → R s → Prop} {allowed : S → Prop}
    (hQ : ∀ s, allowed s → ∀ r, Q s r) {p : Prog S R ε α} (hp : p.Uses allowed) (v : σ) :
    p.Replies exec Q v := by
  induction p generalizing v with
  | ret a => trivial
  | raise e => trivial
  | stmt s k ih => exact fun r v' _ => ⟨hQ s hp.1 r, ih r (hp.2 r) v'⟩

/-! ## On the way through a program -/

theorem run_bind_ret (fault : ε) (f : α → β) (p : Prog S R ε α) (fs : List Bool) (v : σ) :
    run exec fault fs (p >>= fun a => .ret (f a)) v =
      ((run exec fault fs p v).1.map f, (run exec fault fs p v).2) := by
  induction p generalizing fs v with
  | ret a => rfl
  | raise e => rfl
  | stmt s k ih =>
    rw [stmt_bind]
    simp only [run]
    split
    · rfl
    · exact ih _ _ _
    · rfl

variable (exec) in
/-- The first `n` statements of `p` on `v` return, and leave `q` on `w`. -/
inductive Steps (p : Prog S R ε α) (v : σ) : ℕ → Prog S R ε α → σ → Prop where
  | refl : Steps p v 0 p v
  | snoc {n : ℕ} {s : S} {k : R s → Prog S R ε α} {w w' : σ} {r : R s} :
      Steps p v n (.stmt s k) w → exec s w = .ok (r, w') → Steps p v (n + 1) (k r) w'

/-- A run whose first `n` statements are not made to raise goes on from there. -/
theorem Steps.run {p q : Prog S R ε α} {v w : σ} {n : ℕ} (h : Steps exec p v n q w) (fault : ε)
    (fs : List Bool) : p.run exec fault (List.replicate n false ++ fs) v = q.run exec fault fs w := by
  induction h generalizing fs with
  | refl => rfl
  | snoc _ hs ih =>
    rw [List.replicate_succ', List.append_assoc, ih]
    simp only [List.singleton_append, Prog.run, List.headD_cons, hs, List.tail_cons]

variable (exec) in
/-- Every state that the program passes has `I`. -/
def Passes (I : σ → Prop) : Prog S R ε α → σ → Prop
  | .ret _, v => I v
  | .raise _, v => I v
  | .stmt s k, v => I v ∧ ∀ r v', exec s v = .ok (r, v') → Passes I (k r) v'

theorem Passes.here {I : σ → Prop} {p : Prog S R ε α} {v : σ} (h : p.Passes exec I v) : I v := by
  cases p with
  | ret a => exact h
  | raise e => exact h
  | stmt s k => exact h.1

theorem Passes.bind {I : σ → Prop} {p : Prog S R ε α} {f : α → Prog S R ε β} {v : σ}
    (hp : p.Passes exec I v) (hf : ∀ a w, p.eval exec v = .ok (a, w) → I w → (f a).Passes exec I w) :
    (p >>= f).Passes exec I v := by
  induction p generalizing v with
  | ret a => exact hf a v rfl hp
  | raise e => exact hp
  | stmt s k ih =>
    refine ⟨hp.1, fun r v' hs => ih r (hp.2 r v' hs) fun a w hw => ?_⟩
    exact hf a w (by rw [eval_stmt_ok exec hs, hw])

theorem passes_ofExcept_bind {I : σ → Prop} {x : Except ε α} {f : α → Prog S R ε β} {v : σ} (hv : I v)
    (hf : ∀ a, x = .ok a → (f a).Passes exec I v) : (ofExcept x >>= f).Passes exec I v := by
  cases x with
  | ok a => exact hf a rfl
  | error e => exact hv

/-- What the allowed statements keep, a program that uses no others passes. -/
theorem Uses.passes {allowed : S → Prop} {I : σ → Prop}
    (hstep : ∀ s v r v', allowed s → I v → exec s v = .ok (r, v') → I v')
    {p : Prog S R ε α} (hp : p.Uses allowed) {v : σ} (hv : I v) : p.Passes exec I v := by
  induction p generalizing v with
  | ret a => exact hv
  | raise e => exact hv
  | stmt s k ih => exact ⟨hv, fun r v' hs => ih r (hp.2 r) (hstep s v r v' hp.1 hv hs)⟩

theorem Steps.passes {I : σ → Prop} {p q : Prog S R ε α} {v w : σ} {n : ℕ} (h : Steps exec p v n q w)
    (hp : p.Passes exec I v) : q.Passes exec I w := by
  induction h with
  | refl => exact hp
  | snoc _ hs ih => exact ih.2 _ _ hs

end Alone
end Prog
end LineageVault.Foundations
