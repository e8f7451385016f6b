import LineageVault.Foundations.SingleWriter

/-! # What overlapping calls can count on

`Safe` lets a read outside a transaction answer anything. But the other clients do not do just anything
between two statements: each of their commits takes the durable state `v` to some `w` with `rely v w`.
`Sure` is the obligation on one program under this promise: what it has seen before its transaction is
still so up to `rely` where the transaction opens, and its own commit keeps the promise. `post` is what its
answer says of the state it found and the state it left.

`Logged` are the runs with the answers in the order of the commits, and `logged_standing` carries `Sure`
over to them.
-/

namespace LineageVault.Foundations.SingleWriter
open LineageVault.Foundations
set_option autoImplicit false

variable {S : Type} {R : S → Type} {ε α σ C : Type}
  (exec : (s : S) → σ → Except ε (R s × σ)) (writes : S → Bool)

/-! ## Runs with their answers -/

/-- What a step answers, when it is the last one of a call. -/
def answer (g : File S R ε α σ) (i : ℕ) : Action C → List α
  | .advance =>
    match g.client i with
    | some (.ret a) => [a]
    | _ => []
  | _ => []

inductive Logged (prog : C → Prog S R ε α) (v : σ) : List α → File S R ε α σ → Prop where
  | init : Logged prog v [] (.init v)
  | step {log : List α} {g g' : File S R ε α σ} (i : ℕ) (a : Action C) : Logged prog v log g →
      step exec writes prog g i a = some g' → Logged prog v (log ++ answer g i a) g'

/-- A whole schedule, with what it answers. -/
def answers (prog : C → Prog S R ε α) (g : File S R ε α σ) : List (ℕ × Action C) →
    Option (List α × File S R ε α σ)
  | [] => some ([], g)
  | (i, a) :: rest =>
    (step exec writes prog g i a).bind fun g' =>
      (answers prog g' rest).map fun x => (answer g i a ++ x.1, x.2)

theorem Logged.answers {prog : C → Prog S R ε α} {v : σ} {log log' : List α} {g g' : File S R ε α σ}
    {sched : List (ℕ × Action C)} (hg : Logged exec writes prog v log g)
    (h : answers exec writes prog g sched = some (log', g')) :
    Logged exec writes prog v (log ++ log') g' := by
  induction sched generalizing log log' g with
  | nil =>
    cases h
    rw [List.append_nil]
    exact hg
  | cons ia sched ih =>
    obtain ⟨i, a⟩ := ia
    obtain ⟨g₁, h₁, hrest⟩ := Option.bind_eq_some_iff.1 h
    obtain ⟨⟨log₂, g₂⟩, h₂, heq⟩ := Option.map_eq_some_iff.1 hrest
    cases heq
    rw [← List.append_assoc]
    exact ih (.step i a hg h₁) h₂

/-! ## The obligation on one program -/

/-- `none` is outside, where `v` has been durable at some moment of the call; `some w` is inside the
transaction that opened on `v`, with the view `w`. -/
def Sure (I : σ → Prop) (rely : σ → σ → Prop) (post : α → σ → σ → Prop) :
    Prog S R ε α → Option σ → σ → Prop
  | .ret a, none, u => ∀ v, I v → rely u v → post a v v
  | .ret a, some w, v => I w ∧ rely v w ∧ post a v w
  | .raise _, _, _ => True
  | .stmt s k, none, u => ∀ v r w, I v → rely u v → exec s v = .ok (r, w) →
      if writes s then Sure I rely post (k r) (some w) v else Sure I rely post (k r) none v
  | .stmt s k, some w, v => ∀ r w', exec s w = .ok (r, w') →
      Sure I rely post (k r) (some (if writes s then w' else w)) v

section Rules
variable {exec writes} {I : σ → Prop} {rely : σ → σ → Prop} {post : α → σ → σ → Prop}

theorem sure_raise (e : ε) (o : Option σ) (v : σ) :
    Sure exec writes I rely post (.raise e : Prog S R ε α) o v := by
  cases o <;> trivial

theorem sure_ofExcept_bind {β : Type} {x : Except ε β} {f : β → Prog S R ε α} {o : Option σ} {v : σ}
    (h : ∀ b, x = .ok b → Sure exec writes I rely post (f b) o v) :
    Sure exec writes I rely post (Prog.ofExcept x >>= f) o v := by
  cases x with
  | ok b => exact h b rfl
  | error e => exact sure_raise e o v

/-- A read outside a transaction: what it saw is so up to `rely` from there. -/
theorem sure_read {s : S} {k : R s → Prog S R ε α} {u : σ} (hs : writes s = false)
    (h : ∀ v r w, I v → rely u v → exec s v = .ok (r, w) → Sure exec writes I rely post (k r) none v) :
    Sure exec writes I rely post (.stmt s k) none u := by
  intro v r w hv huv hex
  rw [if_neg (by rw [hs]; exact Bool.false_ne_true)]
  exact h v r w hv huv hex

/-- Inside the transaction the program runs alone, so its `eval` is all that matters. -/
theorem sure_inside (hread : ∀ {s v r v'}, writes s = false → exec s v = .ok (r, v') → v' = v)
    {p : Prog S R ε α} {w v : σ}
    (h : ∀ a w', p.eval exec w = .ok (a, w') → I w' ∧ rely v w' ∧ post a v w') :
    Sure exec writes I rely post p (some w) v := by
  induction p generalizing w with
  | ret a => exact h a w rfl
  | raise e => trivial
  | stmt s k ih =>
    intro r w' hs
    have hk : ∀ a w'', (k r).eval exec w' = .ok (a, w'') → I w'' ∧ rely v w'' ∧ post a v w'' :=
      fun a w'' hw => h a w'' (by rw [Prog.eval_stmt_ok exec hs, hw])
    cases hw : writes s with
    | true => exact ih r hk
    | false =>
      obtain rfl := hread hw hs
      exact ih r hk

/-- A program that begins with a writing statement runs alone from there, on the state it finds. -/
theorem sure_open (hread : ∀ {s v r v'}, writes s = false → exec s v = .ok (r, v') → v' = v)
    {p : Prog S R ε α} {s : S} {k : R s → Prog S R ε α} {u : σ} (hp : p = .stmt s k)
    (hs : writes s = true)
    (h : ∀ v a w, I v → rely u v → p.eval exec v = .ok (a, w) → I w ∧ rely v w ∧ post a v w) :
    Sure exec writes I rely post p none u := by
  subst hp
  intro v r w hv huv hex
  rw [if_pos hs]
  refine sure_inside hread fun a w' hw => h v a w' hv huv ?_
  rw [Prog.eval_stmt_ok exec hex, hw]

variable (htrans : ∀ {u v w}, rely u v → rely v w → rely u w)
include htrans

/-- Other clients may commit while the program is outside. -/
theorem Sure.later {p : Prog S R ε α} {u v : σ} (h : Sure exec writes I rely post p none u)
    (huv : rely u v) : Sure exec writes I rely post p none v := by
  cases p with
  | ret a => exact fun w hw hvw => h w hw (htrans huv hvw)
  | raise e => trivial
  | stmt s k => exact fun w r w' hw hvw hex => h w r w' hw (htrans huv hvw) hex

end Rules

/-! ## From one program to every interleaving -/

/-- What holds between any two steps; `Acc` ties the answers to what is durable. -/
structure Standing (I : σ → Prop) (rely : σ → σ → Prop) (post : α → σ → σ → Prop)
    (Acc : List α → σ → Prop) (log : List α) (g : File S R ε α σ) : Prop where
  durable : I g.durable
  acc : Acc log g.durable
  sure : ∀ i p, g.client i = some p → Sure exec writes I rely post p (g.own i) g.durable
  idle : ∀ i, g.client i = none → g.own i = none

section Invariant
variable {exec writes} {I : σ → Prop} {rely : σ → σ → Prop} {post : α → σ → σ → Prop}
  {Acc : List α → σ → Prop} {log : List α} {g : File S R ε α σ} {i : ℕ}

theorem standing_drop (h : Standing exec writes I rely post Acc log g) (i : ℕ) :
    Standing exec writes I rely post Acc log (g.drop i) where
  durable := h.durable
  acc := h.acc
  sure j p hp := by
    by_cases hj : j = i
    · subst hj
      simp [File.drop] at hp
    · rw [own_drop_ne hj]
      exact h.sure j p (by simpa [File.drop, Function.update_of_ne hj] using hp)
  idle j hp := by
    by_cases hj : j = i
    · subst hj
      exact own_drop_self
    · rw [own_drop_ne hj]
      exact h.idle j (by simpa [File.drop, Function.update_of_ne hj] using hp)

/-- Client `i` moves to `p`, and nothing changes for the others. -/
theorem standing_setClient (h : Standing exec writes I rely post Acc log g) {p : Prog S R ε α}
    (hp : Sure exec writes I rely post p (g.own i) g.durable) :
    Standing exec writes I rely post Acc log (g.setClient i (some p)) where
  durable := h.durable
  acc := h.acc
  sure j q hq := by
    by_cases hj : j = i
    · subst hj
      simp only [File.setClient, Function.update_self, Option.some.injEq] at hq
      exact hq ▸ hp
    · exact h.sure j q (by simpa [File.setClient, Function.update_of_ne hj] using hq)
  idle j hq := by
    by_cases hj : j = i
    · subst hj
      simp [File.setClient] at hq
    · exact h.idle j (by simpa [File.setClient, Function.update_of_ne hj] using hq)

/-- Client `i` holds the transaction with view `w` and is about to run `p`. -/
theorem standing_hold (h : Standing exec writes I rely post Acc log g) {w v : σ} (ht : g.turn i = some v)
    {p : Prog S R ε α} (hp : Sure exec writes I rely post p (some w) g.durable) :
    Standing exec writes I rely post Acc log { g.setClient i (some p) with writer := some (i, w) } := by
  have hne : ∀ j, j ≠ i → g.own j = none := by
    intro j hj
    rcases turn_cases ht with ⟨hw, -⟩ | ho
    · simp only [File.own, hw]
    · exact own_ne ho hj
  refine ⟨h.durable, h.acc, ?_, ?_⟩
  · intro j q hq
    by_cases hj : j = i
    · subst hj
      simp only [File.setClient, Function.update_self, Option.some.injEq] at hq
      simpa only [File.own, File.setClient, if_true, ← hq] using hp
    · have hs := h.sure j q (by simpa [File.setClient, Function.update_of_ne hj] using hq)
      rw [hne j hj] at hs
      simpa only [File.own, File.setClient, if_neg (Ne.symm hj)] using hs
  · intro j hq
    by_cases hj : j = i
    · subst hj
      simp [File.setClient] at hq
    · simp only [File.own, if_neg (Ne.symm hj)]

variable (hrefl : ∀ v, rely v v) (htrans : ∀ {u v w}, rely u v → rely v w → rely u w)
  (hacc : ∀ {log a v w}, Acc log v → I v → rely v w → post a v w → Acc (log ++ [a]) w)
include hrefl htrans hacc

/-- A call that returns: nothing is durable that its transaction did not see. -/
theorem standing_finish (h : Standing exec writes I rely post Acc log g) {a : α}
    (hp : g.client i = some (.ret a)) :
    Standing exec writes I rely post Acc (log ++ [a]) (g.finish i) := by
  have hs := h.sure i _ hp
  have hdrop := standing_drop h i
  cases ho : g.own i with
  | none =>
    rw [ho] at hs
    have hfinish : g.finish i = g.drop i := by simp only [File.finish, ho, Option.getD_none]; rfl
    rw [hfinish]
    exact ⟨h.durable, hacc h.acc h.durable (hrefl _) (hs _ h.durable (hrefl _)), hdrop.sure, hdrop.idle⟩
  | some w =>
    rw [ho] at hs
    obtain ⟨hw, hrely, hpost⟩ := hs
    have hfinish : g.finish i = { g.drop i with durable := w } := by
      simp only [File.finish, ho, Option.getD_some]
    rw [hfinish]
    refine ⟨hw, hacc h.acc h.durable hrely hpost, fun j q hq => ?_, hdrop.idle⟩
    have hq' := hdrop.sure j q hq
    have hown : (g.drop i).own j = none := by
      by_cases hj : j = i
      · subst hj
        exact own_drop_self
      · rw [own_drop_ne hj]
        exact own_ne ho hj
    rw [hown] at hq'
    have hq'' := Sure.later @htrans hq' hrely
    rw [← hown] at hq''
    exact hq''

omit hrefl htrans hacc in
/-- A statement of client `i`. -/
theorem standing_stmt (h : Standing exec writes I rely post Acc log g) (hrefl : ∀ v, rely v v) {s : S}
    {k : R s → Prog S R ε α} {g' : File S R ε α σ} (hp : g.client i = some (.stmt s k))
    (hg : advance exec writes g i (.stmt s k) = some g') : Standing exec writes I rely post Acc log g' := by
  have hs := h.sure i _ hp
  simp only [advance] at hg
  split at hg
  · next hw =>
    split at hg
    · cases hg
    · next v ht =>
      split at hg
      · next r v' he =>
        cases hg
        refine standing_hold h ht ?_
        rcases turn_cases ht with ⟨hn, rfl⟩ | ho
        · have hown : g.own i = none := by simp only [File.own, hn]
          rw [hown] at hs
          have hin := hs _ r v' h.durable (hrefl _) he
          rwa [if_pos hw] at hin
        · rw [ho] at hs
          have hin := hs r v' he
          rwa [if_pos hw] at hin
      · cases hg
        exact standing_drop h i
  · next hw =>
    split at hg
    · next r v' he =>
      cases hg
      refine standing_setClient h ?_
      cases ho : g.own i with
      | none =>
        rw [ho] at hs he
        have hout := hs _ r v' h.durable (hrefl _) he
        rwa [if_neg hw] at hout
      | some v =>
        rw [ho] at hs he
        have hin := hs r v' he
        rwa [if_neg hw] at hin
    · cases hg
      exact standing_drop h i

/-- **Every interleaving.** If the text of each call is sure of what it does, the invariant holds of what is
durable, and `Acc` of it and the answers so far. -/
theorem logged_standing {prog : C → Prog S R ε α} {v : σ} (hv : I v) (hstart : Acc [] v)
    (hprog : ∀ c u, I u → Sure exec writes I rely post (prog c) none u)
    (h : Logged exec writes prog v log g) : Standing exec writes I rely post Acc log g := by
  induction h with
  | init => exact ⟨hv, hstart, (fun i p hp => by simp [File.init] at hp), fun _ _ => rfl⟩
  | @step log g g' i a _ hg ih =>
    simp only [SingleWriter.step] at hg
    split at hg
    · next c hi =>
      cases hg
      have hquiet : log ++ answer g i (.start c) = log := List.append_nil log
      rw [hquiet]
      refine standing_setClient ih ?_
      rw [ih.idle i hi]
      exact hprog c _ ih.durable
    · next p hi =>
      cases p with
      | ret x =>
        cases hg
        have hans : answer g i (.advance : Action C) = [x] := by simp only [answer, hi]
        rw [hans]
        exact standing_finish hrefl htrans hacc ih hi
      | raise e =>
        cases hg
        have hans : answer g i (.advance : Action C) = [] := by simp only [answer, hi]
        rw [hans, List.append_nil]
        exact standing_drop ih i
      | stmt s k =>
        have hans : answer g i (.advance : Action C) = [] := by simp only [answer, hi]
        rw [hans, List.append_nil]
        exact standing_stmt ih hrefl hi hg
    · cases hg
      have hquiet : log ++ answer g i (.abort : Action C) = log := List.append_nil log
      rw [hquiet]
      exact standing_drop ih i
    · cases hg

end Invariant
end LineageVault.Foundations.SingleWriter
