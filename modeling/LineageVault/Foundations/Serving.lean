import LineageVault.Foundations.Program

/-! # Requests that are being served

A server answers each request by a program of its own, call by call, with the calls of the other
requests in between; it may die at any time. `Exchange` is a request with what was noted while it was
served and where it stands: a call may take many steps of the server, and is noted when it is replied to.

`Yields` is what a program promises about its notes: wherever it ends, if every reply is `expected`,
they fit what it returns. `faithful_advance`: one reply keeps the promise, so what is answered in
any interleaving is what the program would answer alone to the same replies.
-/

namespace LineageVault.Foundations
set_option autoImplicit false

variable {Q ν S : Type} {R : S → Type} {ε α β σ : Type}

/-! ## Programs and their notes -/

namespace Prog

section Yields
variable (expected : (s : S) → R s → Prop) (notes : (s : S) → R s → List ν)

/-- `seen` has been noted so far; `post` holds of all notes and what is returned, `fails` of what is
raised. -/
def Yields (post : List ν → α → Prop) (fails : ε → Prop) : List ν → Prog S R ε α → Prop
  | seen, .ret a => post seen a
  | _, .raise e => fails e
  | seen, .stmt s k => ∀ r, expected s r → Yields post fails (seen ++ notes s r) (k r)

variable {expected notes} {post : List ν → α → Prop} {post' : List ν → β → Prop} {fails : ε → Prop}

theorem Yields.bind {seen : List ν} {p : Prog S R ε α} {f : α → Prog S R ε β}
    (hp : p.Yields expected notes post fails seen)
    (hf : ∀ seen' a, post seen' a → (f a).Yields expected notes post' fails seen') :
    (p >>= f).Yields expected notes post' fails seen := by
  induction p generalizing seen with
  | ret a => exact hf seen a hp
  | raise e => exact hp
  | stmt s k ih => exact fun r hr => ih r (hp r hr)

theorem Yields.imp {post₂ : List ν → α → Prop} (himp : ∀ seen a, post seen a → post₂ seen a)
    {seen : List ν} {p : Prog S R ε α} (hp : p.Yields expected notes post fails seen) :
    p.Yields expected notes post₂ fails seen := by
  induction p generalizing seen with
  | ret a => exact himp seen a hp
  | raise e => exact hp
  | stmt s k ih => exact fun r hr => ih r (hp r hr)

/-- What has been noted before stays in front. -/
theorem Yields.frame (before : List ν) {seen : List ν} {p : Prog S R ε α}
    (hp : p.Yields expected notes post fails seen) :
    p.Yields expected notes (fun seen' a => ∃ more, seen' = before ++ more ∧ post more a) fails
      (before ++ seen) := by
  induction p generalizing seen with
  | ret a => exact ⟨seen, rfl, hp⟩
  | raise e => exact hp
  | stmt s k ih =>
    intro r hr
    rw [List.append_assoc]
    exact ih r (hp r hr)

theorem Yields.after (before : List ν) {p : Prog S R ε α} (hp : p.Yields expected notes post fails []) :
    p.Yields expected notes (fun seen' a => ∃ more, seen' = before ++ more ∧ post more a) fails before := by
  have h := hp.frame before
  rwa [List.append_nil] at h

end Yields
end Prog

/-! ## Exchanges -/

inductive Status (S : Type) (R : S → Type) (ε α : Type) where
  | running (rest : Prog S R ε α)
  | answered (a : α)
  | refused (e : ε)
  /-- the server died before it answered -/
  | died

structure Exchange (Q ν S : Type) (R : S → Type) (ε α : Type) where
  request : Q
  notes : List ν
  status : Status S R ε α

namespace Exchange

def begun (handler : Q → Prog S R ε α) (q : Q) : Exchange Q ν S R ε α := ⟨q, [], .running (handler q)⟩

def stop (x : Exchange Q ν S R ε α) : Exchange Q ν S R ε α :=
  match x.status with
  | .running _ => { x with status := .died }
  | _ => x

/-- The call the program has come to. -/
def next (x : Exchange Q ν S R ε α) : Option S :=
  match x.status with
  | .running (.stmt s _) => some s
  | _ => none

section Advance
variable (notes : (s : S) → R s → List ν) (call : (s : S) → σ → R s × σ)

/-- The reply to the next call of the request, or its answer. -/
def advance (x : Exchange Q ν S R ε α) (v : σ) : Option (Exchange Q ν S R ε α × σ) :=
  match x.status with
  | .running (.stmt s k) =>
    let (r, v') := call s v
    some ({ x with notes := x.notes ++ notes s r, status := .running (k r) }, v')
  | .running (.ret a) => some ({ x with status := .answered a }, v)
  | .running (.raise e) => some ({ x with status := .refused e }, v)
  | _ => none

variable {notes call} {x x' : Exchange Q ν S R ε α} {v v' : σ}

theorem advance_request (h : x.advance notes call v = some (x', v')) : x'.request = x.request := by
  unfold advance at h
  split at h
  all_goals cases h
  all_goals rfl

/-- The call was replied to and noted, or the request was answered. -/
theorem advance_cases (h : x.advance notes call v = some (x', v')) :
    (∃ s, x.next = some s ∧ v' = (call s v).2 ∧ x'.notes = x.notes ++ notes s (call s v).1) ∨
      (x.next = none ∧ v' = v ∧ x'.notes = x.notes) := by
  unfold advance at h
  unfold next
  split at h
  · next s k hs =>
    cases h
    rw [hs]
    exact .inl ⟨s, rfl, rfl, rfl⟩
  · next a hs =>
    cases h
    rw [hs]
    exact .inr ⟨rfl, rfl, rfl⟩
  · next e hs =>
    cases h
    rw [hs]
    exact .inr ⟨rfl, rfl, rfl⟩
  · cases h

end Advance

section Faithful
variable (expected : (s : S) → R s → Prop) (notes : (s : S) → R s → List ν) (post : Q → List ν → α → Prop)
  (fails : ε → Prop)

/-- What was noted fits what was answered, or will. -/
def Faithful (x : Exchange Q ν S R ε α) : Prop :=
  match x.status with
  | .running rest => rest.Yields expected notes (post x.request) fails x.notes
  | .answered a => post x.request x.notes a
  | .refused e => fails e
  | .died => True

variable {expected notes post fails} {x x' : Exchange Q ν S R ε α} {call : (s : S) → σ → R s × σ} {v v' : σ}

theorem faithful_stop (h : x.Faithful expected notes post fails) : x.stop.Faithful expected notes post fails := by
  unfold stop
  split
  · trivial
  · exact h

theorem stop_notes (x : Exchange Q ν S R ε α) : x.stop.notes = x.notes := by
  unfold stop
  split <;> rfl

/-- One call, with a reply as expected. -/
theorem faithful_advance (hcall : ∀ s, x.next = some s → expected s (call s v).1)
    (h : x.Faithful expected notes post fails) (ha : x.advance notes call v = some (x', v')) :
    x'.Faithful expected notes post fails := by
  unfold advance at ha
  unfold Faithful at h
  split at ha
  · next s k hs =>
    cases ha
    rw [hs] at h
    exact h (call s v).1 (hcall s (by rw [next, hs]))
  · next a hs =>
    cases ha
    rw [hs] at h
    exact h
  · next e hs =>
    cases ha
    rw [hs] at h
    exact h
  · cases ha

end Faithful
end Exchange

/-! ## Notes of all exchanges -/

/-- One element of a list changes and yields more. -/
theorem flatMap_set_perm {γ δ : Type} {f : γ → List δ} {xs : List γ} {i : ℕ} {x x' : γ} {new : List δ}
    (hx : xs[i]? = some x) (hf : f x' = f x ++ new) :
    ((xs.set i x').flatMap f).Perm (xs.flatMap f ++ new) := by
  induction xs generalizing i with
  | nil => cases hx
  | cons y ys ih =>
    cases i with
    | zero =>
      cases hx
      rw [List.set_cons_zero, List.flatMap_cons, List.flatMap_cons, hf, List.append_assoc, List.append_assoc]
      exact List.perm_append_comm.append_left (f x)
    | succ i =>
      rw [List.set_cons_succ, List.flatMap_cons, List.flatMap_cons, List.append_assoc]
      exact (ih hx).append_left (f y)

end LineageVault.Foundations
