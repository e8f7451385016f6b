import LineageVault.Foundations.Program

/-! # Programs of calls that fail or are cut off

The statements of a program may be the calls of a service that changes even when a call raises.
`drive` makes the calls of a program under a schedule: one item for each call says what the
surroundings do to it, and where the schedule ends the process stops. `whole` makes all calls under
the same quiet item `f`, and `after n` is what the first `n` of these calls leave.

`drive_after`: what is durable when a process stopped, returned or raised is what the undisturbed
program leaves with as many calls as have returned (`callsReturned`).

`Issues` says which calls a program makes where their replies do not matter, and `drive_issues` what a
run of it has done: all of these calls when it returns, and else some first of them.
-/

namespace LineageVault.Foundations.Prog
set_option autoImplicit false

variable {S : Type} {R : S → Type} {ε α β σ F δ : Type}
  (call : F → (s : S) → σ → Except ε (R s) × σ)

def drive : List F → Prog S R ε α → σ → Option (Except ε α) × σ
  | _, .ret a, v => (some (.ok a), v)
  | _, .raise e, v => (some (.error e), v)
  | [], .stmt _ _, v => (none, v)
  | f :: fs, .stmt s k, v =>
    match call f s v with
    | (.ok r, v') => drive fs (k r) v'
    | (.error e, v') => (some (.error e), v')

/-- How many calls of a driven program return. -/
def callsReturned : List F → Prog S R ε α → σ → ℕ
  | f :: fs, .stmt s k, v =>
    match call f s v with
    | (.ok r, v') => callsReturned fs (k r) v' + 1
    | (.error _, _) => 0
  | _, _, _ => 0

def whole (f : F) : Prog S R ε α → σ → Except ε α × σ
  | .ret a, v => (.ok a, v)
  | .raise e, v => (.error e, v)
  | .stmt s k, v =>
    match call f s v with
    | (.ok r, v') => whole f (k r) v'
    | (.error e, v') => (.error e, v')

def after (f : F) : ℕ → Prog S R ε α → σ → σ
  | 0, _, v => v
  | n + 1, .stmt s k, v =>
    match call f s v with
    | (.ok r, v') => after f n (k r) v'
    | (.error _, v') => v'
  | _ + 1, .ret _, v => v
  | _ + 1, .raise _, v => v

section Whole
variable {f : F}

@[simp] theorem whole_ret (a : α) (v : σ) : whole call f (.ret a : Prog S R ε α) v = (.ok a, v) := rfl

theorem whole_stmt_ok {s : S} {k : R s → Prog S R ε α} {v v' : σ} {r : R s}
    (h : call f s v = (.ok r, v')) : whole call f (.stmt s k) v = whole call f (k r) v' := by
  simp only [whole, h]

theorem whole_stmt_error {s : S} {k : R s → Prog S R ε α} {v v' : σ} {e : ε}
    (h : call f s v = (.error e, v')) : whole call f (.stmt s k) v = (.error e, v') := by
  simp only [whole, h]

/-- A run that returned has its first call answered, and the rest returned. -/
theorem whole_stmt_cases {s : S} {k : R s → Prog S R ε α} {v w : σ} {a : α}
    (h : whole call f (.stmt s k) v = (.ok a, w)) :
    ∃ r v', call f s v = (.ok r, v') ∧ whole call f (k r) v' = (.ok a, w) := by
  cases hs : call f s v with
  | mk x v' =>
    cases x with
    | ok r =>
      rw [whole_stmt_ok call hs] at h
      exact ⟨r, v', rfl, h⟩
    | error e =>
      rw [whole_stmt_error call hs] at h
      cases h

theorem whole_ofExcept_bind_cases {x : Except ε β} {g : β → Prog S R ε α} {v w : σ} {a : α}
    (h : whole call f (ofExcept x >>= g) v = (.ok a, w)) :
    ∃ b, x = .ok b ∧ whole call f (g b) v = (.ok a, w) := by
  cases x with
  | error e => cases h
  | ok b => exact ⟨b, rfl, h⟩

theorem whole_bind (p : Prog S R ε β) (g : β → Prog S R ε α) (v : σ) :
    whole call f (p >>= g) v =
      match whole call f p v with
      | (.ok b, v') => whole call f (g b) v'
      | (.error e, v') => (.error e, v') := by
  induction p generalizing v with
  | ret b => rfl
  | raise e => rfl
  | stmt s k ih =>
    rw [stmt_bind]
    cases hs : call f s v with
    | mk x v' =>
      cases x with
      | ok r => rw [whole_stmt_ok call hs, whole_stmt_ok call hs, ih]
      | error e => rw [whole_stmt_error call hs, whole_stmt_error call hs]

/-- Both halves of a sequence that returned. -/
theorem whole_bind_cases {p : Prog S R ε β} {g : β → Prog S R ε α} {v w : σ} {a : α}
    (h : whole call f (p >>= g) v = (.ok a, w)) :
    ∃ b u, whole call f p v = (.ok b, u) ∧ whole call f (g b) u = (.ok a, w) := by
  rw [whole_bind] at h
  split at h
  · next b u hp => exact ⟨b, u, hp, h⟩
  · cases h

theorem after_stmt_ok {s : S} {k : R s → Prog S R ε α} {v v' : σ} {r : R s}
    (h : call f s v = (.ok r, v')) (n : ℕ) :
    after call f (n + 1) (.stmt s k) v = after call f n (k r) v' := by
  simp only [after, h]

/-- The states an undisturbed run passes all have `I`. -/
def Along (f : F) (I : σ → Prop) : Prog S R ε α → σ → Prop
  | .ret _, v => I v
  | .raise _, v => I v
  | .stmt s k, v => I v ∧ (∀ r v', call f s v = (.ok r, v') → Along f I (k r) v') ∧
    ∀ e v', call f s v = (.error e, v') → I v'

variable {call} in
theorem Along.start {I : σ → Prop} {p : Prog S R ε α} {v : σ} (h : p.Along call f I v) : I v := by
  cases p with
  | ret a => exact h
  | raise e => exact h
  | stmt s k => exact h.1

variable {call} in
theorem Along.after {I : σ → Prop} {p : Prog S R ε α} {v : σ} (h : p.Along call f I v) (n : ℕ) :
    I (after call f n p v) := by
  induction n generalizing p v with
  | zero => exact h.start
  | succ n ih =>
    cases p with
    | ret a => exact h
    | raise e => exact h
    | stmt s k =>
      obtain ⟨-, hok, herr⟩ := h
      cases hs : call f s v with
      | mk x v' =>
        cases x with
        | ok r =>
          rw [after_stmt_ok call hs]
          exact ih (hok r v' hs)
        | error e =>
          simp only [Prog.after, hs]
          exact herr e v' hs

variable {call} in
theorem Along.whole {I : σ → Prop} {p : Prog S R ε α} {v : σ} (h : p.Along call f I v) :
    I (whole call f p v).2 := by
  induction p generalizing v with
  | ret a => exact h
  | raise e => exact h
  | stmt s k ih =>
    obtain ⟨-, hok, herr⟩ := h
    cases hs : call f s v with
    | mk x v' =>
      cases x with
      | ok r =>
        rw [whole_stmt_ok call hs]
        exact ih r (hok r v' hs)
      | error e =>
        rw [whole_stmt_error call hs]
        exact herr e v' hs

theorem along_ofExcept_bind {I : σ → Prop} {x : Except ε β} {g : β → Prog S R ε α} {v : σ} (hv : I v)
    (hg : ∀ b, x = .ok b → (g b).Along call f I v) : (ofExcept x >>= g).Along call f I v := by
  cases x with
  | error e => exact hv
  | ok b => exact hg b rfl

/-- What every allowed call keeps, a whole run keeps. -/
theorem whole_keeps {allowed : S → Prop} {P : σ → Prop}
    (hcall : ∀ s v, allowed s → P v → P (call f s v).2) {p : Prog S R ε α} (hp : p.Uses allowed) {v : σ}
    (hv : P v) : P (whole call f p v).2 := by
  induction p generalizing v with
  | ret a => exact hv
  | raise e => exact hv
  | stmt s k ih =>
    have h := hcall s v hp.1 hv
    cases hs : call f s v with
    | mk x v' =>
      rw [hs] at h
      cases x with
      | ok r =>
        rw [whole_stmt_ok call hs]
        exact ih r (hp.2 r) h
      | error e =>
        rw [whole_stmt_error call hs]
        exact h

/-- A change of the state that the allowed calls neither see nor touch. -/
theorem whole_map {allowed : S → Prop} {g : σ → σ}
    (hcall : ∀ s v, allowed s → call f s (g v) = ((call f s v).1, g (call f s v).2))
    {p : Prog S R ε α} (hp : p.Uses allowed) (v : σ) :
    whole call f p (g v) = ((whole call f p v).1, g (whole call f p v).2) := by
  induction p generalizing v with
  | ret a => rfl
  | raise e => rfl
  | stmt s k ih =>
    have hg := hcall s v hp.1
    cases hs : call f s v with
    | mk x v' =>
      rw [hs] at hg
      cases x with
      | ok r =>
        rw [whole_stmt_ok call hs, whole_stmt_ok call hg]
        exact ih r (hp.2 r) v'
      | error e => rw [whole_stmt_error call hs, whole_stmt_error call hg]

end Whole

theorem callsReturned_stmt_ok {f : F} {fs : List F} {s : S} {k : R s → Prog S R ε α} {v v' : σ} {r : R s}
    (h : call f s v = (.ok r, v')) :
    callsReturned call (f :: fs) (.stmt s k) v = callsReturned call fs (k r) v' + 1 := by
  simp only [callsReturned, h]

/-- A process that is stopped has made all the calls of its schedule, and they have returned. -/
theorem callsReturned_stopped (fs : List F) (p : Prog S R ε α) (v : σ)
    (h : (drive call fs p v).1 = none) : callsReturned call fs p v = fs.length := by
  induction p generalizing fs v with
  | ret a => simp [drive] at h
  | raise e => simp [drive] at h
  | stmt s k ih =>
    cases fs with
    | nil => rfl
    | cons f fs =>
      cases hs : call f s v with
      | mk x v' =>
        cases x with
        | ok r =>
          simp only [drive, hs] at h
          rw [callsReturned_stmt_ok call hs, ih r fs v' h, List.length_cons]
        | error e => simp [drive, hs] at h

/-- Calls that returned did what they do undisturbed, and calls that raised left nothing durable. -/
theorem drive_after {f : F} {durable : σ → δ}
    (hok : ∀ f' s v r v', call f' s v = (.ok r, v') → call f s v = (.ok r, v'))
    (herr : ∀ f' s v e v', call f' s v = (.error e, v') → durable v' = durable v)
    (fs : List F) (p : Prog S R ε α) (v : σ) :
    durable (drive call fs p v).2 = durable (after call f (callsReturned call fs p v) p v) := by
  induction p generalizing fs v with
  | ret a => simp only [drive, callsReturned, after]
  | raise e => simp only [drive, callsReturned, after]
  | stmt s k ih =>
    cases fs with
    | nil => rfl
    | cons f' fs =>
      cases hs : call f' s v with
      | mk x v' =>
        cases x with
        | ok r =>
          rw [callsReturned_stmt_ok call hs, after_stmt_ok call (hok _ _ _ _ _ hs), ← ih r fs v']
          simp only [drive, hs]
        | error e =>
          simp only [drive, callsReturned, hs, after]
          exact herr _ _ _ _ _ hs

/-- What every allowed call keeps, a run keeps wherever it ends. -/
theorem drive_keeps {allowed : S → Prop} {P : σ → Prop}
    (hcall : ∀ f s v, allowed s → P v → P (call f s v).2) (fs : List F) {p : Prog S R ε α}
    (hp : p.Uses allowed) {v : σ} (hv : P v) : P (drive call fs p v).2 := by
  induction p generalizing fs v with
  | ret a => simpa only [drive] using hv
  | raise e => simpa only [drive] using hv
  | stmt s k ih =>
    cases fs with
    | nil => exact hv
    | cons f' fs =>
      have h := hcall f' s v hp.1 hv
      cases hs : call f' s v with
      | mk x v' =>
        rw [hs] at h
        cases x with
        | ok r =>
          simp only [drive, hs]
          exact ih r fs (hp.2 r) h
        | error e =>
          simp only [drive, hs]
          exact h

theorem drive_stmt_ok {f : F} {fs : List F} {s : S} {k : R s → Prog S R ε α} {v v' : σ} {r : R s}
    (h : call f s v = (.ok r, v')) : drive call (f :: fs) (.stmt s k) v = drive call fs (k r) v' := by
  simp only [drive, h]

/-- The schedule is over, or the first call raises, or it returns and the rest follows. -/
theorem drive_stmt_cases (fs : List F) (s : S) (k : R s → Prog S R ε α) (v : σ) :
    drive call fs (.stmt s k) v = (none, v) ∨
      (∃ f e v', call f s v = (.error e, v') ∧ drive call fs (.stmt s k) v = (some (.error e), v')) ∨
      ∃ f fs' r v', call f s v = (.ok r, v') ∧ drive call fs (.stmt s k) v = drive call fs' (k r) v' := by
  cases fs with
  | nil => exact .inl rfl
  | cons f fs =>
    cases hs : call f s v with
    | mk x v' =>
      cases x with
      | error e => exact .inr (.inl ⟨f, e, v', hs, by simp only [drive, hs]⟩)
      | ok r => exact .inr (.inr ⟨f, fs, r, v', hs, by simp only [drive, hs]⟩)

/-- What comes after the calls of a program does not change where they end. -/
theorem drive_bind_ofExcept (fs : List F) (p : Prog S R ε α) (g : α → Except ε β) (v : σ) :
    drive call fs (p >>= fun a => ofExcept (g a)) v =
      ((drive call fs p v).1.map fun x => x.bind g, (drive call fs p v).2) := by
  induction p generalizing fs v with
  | ret a =>
    simp only [ret_bind, drive, Option.map_some, Except.bind]
    cases g a <;> simp only [ofExcept, drive]
  | raise e =>
    change drive call fs (.raise e) v = _
    simp only [drive, Option.map_some, Except.bind]
  | stmt s k ih =>
    rw [stmt_bind]
    cases fs with
    | nil => rfl
    | cons f fs =>
      cases hs : call f s v with
      | mk x v' =>
        cases x with
        | error e => simp only [drive, hs, Option.map_some, Except.bind]
        | ok r =>
          simp only [drive, hs]
          exact ih r fs v'

/-! ## Programs that come through -/

/-- Undisturbed the program returns `a` in the state `w`, and the states it passes have `I`. -/
def Through (f : F) (I : σ → Prop) (p : Prog S R ε α) (v : σ) (a : α) (w : σ) : Prop :=
  whole call f p v = (.ok a, w) ∧ p.Along call f I v

section Through
variable {call} {f : F} {I : σ → Prop}

theorem through_ret {a : α} {v : σ} (h : I v) : (.ret a : Prog S R ε α).Through call f I v a v := ⟨rfl, h⟩

theorem Through.stmt {s : S} {k : R s → Prog S R ε α} {v v' w : σ} {r : R s} {a : α} (hv : I v)
    (hs : call f s v = (.ok r, v')) (h : (k r).Through call f I v' a w) :
    (Prog.stmt s k).Through call f I v a w := by
  refine ⟨(whole_stmt_ok call hs).trans h.1, hv, fun r' u hu => ?_, fun e u hu => ?_⟩
  · cases hs.symm.trans hu
    exact h.2
  · cases hs.symm.trans hu

theorem Through.bind {p : Prog S R ε β} {g : β → Prog S R ε α} {v u w : σ} {b : β} {a : α}
    (hp : p.Through call f I v b u) (hg : (g b).Through call f I u a w) :
    (p >>= g).Through call f I v a w := by
  refine ⟨by rw [whole_bind, hp.1]; exact hg.1, ?_⟩
  obtain ⟨hwhole, halong⟩ := hp
  induction p generalizing v with
  | ret b' =>
    cases hwhole
    exact hg.2
  | raise e => cases hwhole
  | stmt s k ih =>
    obtain ⟨hv, hok, herr⟩ := halong
    refine ⟨hv, fun r v' hs => ?_, herr⟩
    rw [whole_stmt_ok call hs] at hwhole
    exact ih r hwhole (hok r v' hs)

/-- What a run under any schedule leaves durable has been passed, and a run that returns is undisturbed. -/
theorem drive_through {durable : σ → δ} {J : δ → Prop}
    (hok : ∀ f' s v r v', call f' s v = (.ok r, v') → call f s v = (.ok r, v'))
    (herr : ∀ f' s v e v', call f' s v = (.error e, v') → durable v' = durable v)
    {p : Prog S R ε α} {v w : σ} {a : α} (h : p.Through call f (fun u => J (durable u)) v a w) (fs : List F) :
    J (durable (drive call fs p v).2) ∧
      ∀ b u, drive call fs p v = (some (.ok b), u) → b = a ∧ u = w := by
  constructor
  · rw [drive_after call hok herr fs p v]
    exact h.2.after _
  · intro b u hdrive
    obtain ⟨hwhole, -⟩ := h
    induction p generalizing fs v with
    | ret a' =>
      cases hwhole
      simp only [drive, Prod.mk.injEq, Option.some.injEq, Except.ok.injEq] at hdrive
      exact ⟨hdrive.1.symm, hdrive.2.symm⟩
    | raise e => cases hwhole
    | stmt s k ih =>
      rcases drive_stmt_cases call fs s k v with hd | ⟨f', e, v', -, hd⟩ | ⟨f', fs', r, v', hs, hd⟩
      · cases hd.symm.trans hdrive
      · cases hd.symm.trans hdrive
      · rw [hd] at hdrive
        rw [whole_stmt_ok call (hok _ _ _ _ _ hs)] at hwhole
        exact ih r fs' hdrive hwhole

end Through

/-! ## Programs that make known calls -/

/-- The program makes these calls in turn, whatever they return, or raises; `post` holds of what it
returns. -/
def Issues (post : α → Prop) : List S → Prog S R ε α → Prop
  | [], .ret a => post a
  | _ :: _, .ret _ => False
  | _, .raise _ => True
  | [], .stmt _ _ => False
  | c :: calls, .stmt s k => c = s ∧ ∀ r, (k r).Issues post calls

section Issues
variable {post : α → Prop} {post' : β → Prop} {calls calls' : List S}

theorem issues_raise (e : ε) : (.raise e : Prog S R ε α).Issues post calls := by
  cases calls <;> trivial

theorem Issues.imp {post₁ post₂ : α → Prop} (himp : ∀ a, post₁ a → post₂ a) {p : Prog S R ε α}
    (hp : p.Issues post₁ calls) : p.Issues post₂ calls := by
  induction p generalizing calls with
  | ret a =>
    cases calls with
    | nil => exact himp a hp
    | cons c calls => exact hp.elim
  | raise e => exact issues_raise e
  | stmt s k ih =>
    cases calls with
    | nil => exact hp.elim
    | cons c calls => exact ⟨hp.1, fun r => ih r (hp.2 r)⟩

/-- What is so of the calls is so of all statements of the program. -/
theorem Issues.uses {allowed : S → Prop} (hcalls : ∀ s ∈ calls, allowed s) {p : Prog S R ε α}
    (hp : p.Issues post calls) : p.Uses allowed := by
  induction p generalizing calls with
  | ret a => trivial
  | raise e => trivial
  | stmt s k ih =>
    cases calls with
    | nil => exact hp.elim
    | cons c calls =>
      obtain ⟨rfl, hk⟩ := hp
      exact ⟨hcalls c List.mem_cons_self, fun r => ih r (fun s hs => hcalls s (List.mem_cons_of_mem _ hs)) (hk r)⟩

theorem Issues.bind {p : Prog S R ε α} {f : α → Prog S R ε β} (hp : p.Issues post calls)
    (hf : ∀ a, post a → (f a).Issues post' calls') : (p >>= f).Issues post' (calls ++ calls') := by
  induction p generalizing calls with
  | ret a =>
    cases calls with
    | nil => exact hf a hp
    | cons c calls => exact hp.elim
  | raise e => exact issues_raise e
  | stmt s k ih =>
    cases calls with
    | nil => exact hp.elim
    | cons c calls => exact ⟨hp.1, fun r => ih r (hp.2 r)⟩

theorem issues_ofExcept_bind {x : Except ε α} {f : α → Prog S R ε β}
    (hf : ∀ a, x = .ok a → (f a).Issues post' calls) : (ofExcept x >>= f).Issues post' calls := by
  cases x with
  | ok a => exact hf a rfl
  | error e => exact issues_raise e

theorem issues_forM {γ : Type} {xs : List γ} {f : γ → Prog S R ε PUnit} {g : γ → List S}
    (h : ∀ x, (f x).Issues (fun _ => True) (g x)) :
    (xs.forM f).Issues (fun _ => True) (xs.flatMap g) := by
  induction xs with
  | nil => trivial
  | cons x xs ih => exact (h x).bind fun _ _ => ih

/-- How a run of a program that issues the calls has ended: it has returned and made them all, or it was
stopped after some first calls, or the next call after them raised. -/
def Ended (post : α → Prop) (calls : List S) (Rel : List S → σ → Prop) (x : Option (Except ε α) × σ) :
    Prop :=
  (∃ a, x.1 = some (.ok a) ∧ post a ∧ Rel calls x.2) ∨
    (∀ a, x.1 ≠ some (.ok a)) ∧ ∃ made v, made <+: calls ∧ Rel made v ∧
      (x.2 = v ∨ ∃ f s e, made ++ [s] <+: calls ∧ call f s v = (.error e, x.2))

variable {call}

/-- `Rel` relates the calls made and the state, and calls keep it when they return. -/
theorem drive_issues_from {Rel : List S → σ → Prop}
    (hok : ∀ f s made v r v', made ++ [s] <+: calls → Rel made v → call f s v = (.ok r, v') →
      Rel (made ++ [s]) v')
    {p : Prog S R ε α} {made rest : List S} (hcalls : made ++ rest = calls) (hp : p.Issues post rest)
    (fs : List F) {v : σ} (hv : Rel made v) : Ended call post calls Rel (drive call fs p v) := by
  induction p generalizing made rest fs v with
  | ret a =>
    cases rest with
    | nil =>
      rw [List.append_nil] at hcalls
      subst hcalls
      simp only [drive]
      exact .inl ⟨a, rfl, hp, hv⟩
    | cons c rest => exact hp.elim
  | raise e =>
    simp only [drive]
    exact .inr ⟨(fun a ha => by cases ha), made, v, ⟨rest, hcalls⟩, hv, .inl rfl⟩
  | stmt s k ih =>
    cases rest with
    | nil => exact hp.elim
    | cons c rest =>
      obtain ⟨rfl, hk⟩ := hp
      have hnext : made ++ [c] ++ rest = calls := by rw [List.append_assoc]; exact hcalls
      cases fs with
      | nil => exact .inr ⟨(fun a ha => by cases ha), made, v, ⟨c :: rest, hcalls⟩, hv, .inl rfl⟩
      | cons f fs =>
        cases hs : call f c v with
        | mk x v' =>
          cases x with
          | ok r =>
            simp only [drive, hs]
            exact ih r hnext (hk r) fs (hok f c made v r v' ⟨rest, hnext⟩ hv hs)
          | error e =>
            simp only [drive, hs]
            exact .inr ⟨(fun a ha => by cases ha), made, v, ⟨c :: rest, hcalls⟩, hv,
              .inr ⟨f, c, e, ⟨rest, hnext⟩, hs⟩⟩

theorem drive_issues {Rel : List S → σ → Prop}
    (hok : ∀ f s made v r v', made ++ [s] <+: calls → Rel made v → call f s v = (.ok r, v') →
      Rel (made ++ [s]) v')
    {p : Prog S R ε α} (hp : p.Issues post calls) (fs : List F) {v : σ} (hv : Rel [] v) :
    Ended call post calls Rel (drive call fs p v) :=
  drive_issues_from hok (List.nil_append calls) hp fs hv

end Issues

end LineageVault.Foundations.Prog
