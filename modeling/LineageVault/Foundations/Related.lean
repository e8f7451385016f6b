import LineageVault.Foundations.Transaction

/-! # Two runs of one program

A program whose statements are answered alike from two stores does the same on both: it comes to the same
result and leaves stores that are as alike as before. `Agree` is this of one statement, `Prog.Alike` of the
statements that a program comes to issue, `Alike.run` of a run; the rest is about a program in a session.

The answers may come from one engine, whose statements do not see in what the stores differ (`run_related`), or
from two.
-/

namespace LineageVault.Foundations
set_option autoImplicit false

variable {S : Type} {R : S → Type} {ε α β σ : Type}

/-- Both raise the same, or both return the same and leave related stores. -/
inductive Agree (Rel : σ → σ → Prop) : Except ε (β × σ) → Except ε (β × σ) → Prop where
  | raised (e : ε) : Agree Rel (.error e) (.error e)
  | returned (r : β) {v w : σ} (related : Rel v w) : Agree Rel (.ok (r, v)) (.ok (r, w))

theorem Agree.related {Rel : σ → σ → Prop} {r r' : β} {v w : σ}
    (h : Agree (ε := ε) Rel (.ok (r, v)) (.ok (r', w))) : r = r' ∧ Rel v w := by
  cases h with
  | returned r related => exact ⟨rfl, related⟩

theorem Agree.trans {Rel : σ → σ → Prop} (htrans : ∀ u v w, Rel u v → Rel v w → Rel u w)
    {x y z : Except ε (β × σ)} (h : Agree Rel x y) (h' : Agree Rel y z) : Agree Rel x z := by
  cases h with
  | raised e =>
    cases h' with
    | raised => exact .raised e
  | returned r related =>
    cases h' with
    | returned _ related' => exact .returned r (htrans _ _ _ related related')

variable {Rel : σ → σ → Prop} {exec exec' : (s : S) → σ → Except ε (R s × σ)} (fault : ε)

namespace Prog

/-- From the stores `v` and `w` on. -/
def Alike (Rel : σ → σ → Prop) (exec exec' : (s : S) → σ → Except ε (R s × σ)) : Prog S R ε α → σ → σ → Prop
  | .ret _, _, _ => True
  | .raise _, _, _ => True
  | .stmt s k, v, w =>
    Agree Rel (exec s v) (exec' s w) ∧
      ∀ r v' w', exec s v = .ok (r, v') → exec' s w = .ok (r, w') → (k r).Alike Rel exec exec' v' w'

theorem alike_of_agree (hstep : ∀ s v w, Rel v w → Agree Rel (exec s v) (exec' s w)) (p : Prog S R ε α) {v w : σ}
    (h : Rel v w) : p.Alike Rel exec exec' v w := by
  induction p generalizing v w with
  | ret a => trivial
  | raise e => trivial
  | stmt s k ih =>
    refine ⟨hstep s v w h, fun r v' w' hv hw => ih r ?_⟩
    have hagree := hstep s v w h
    rw [hv, hw] at hagree
    exact hagree.related.2

/-- From a third store, where `exec` does not see the difference. -/
theorem Alike.from_related (hstep : ∀ s v w, Rel v w → Agree Rel (exec s v) (exec s w))
    (htrans : ∀ u v w, Rel u v → Rel v w → Rel u w) {p : Prog S R ε α} {u v w : σ}
    (h : p.Alike Rel exec exec' v w) (huv : Rel u v) : p.Alike Rel exec exec' u w := by
  induction p generalizing u v w with
  | ret a => trivial
  | raise e => trivial
  | stmt s k ih =>
    obtain ⟨hs, hrest⟩ := h
    have hfirst := hstep s u v huv
    refine ⟨hfirst.trans htrans hs, fun r u' w' hu hw => ?_⟩
    rw [hu] at hfirst
    generalize hv : exec s v = x at hfirst
    cases hfirst with
    | returned _ related => exact ih r (hrest r _ w' hv hw) related

theorem Alike.run {p : Prog S R ε α} {v w : σ} (h : p.Alike Rel exec exec' v w) (hvw : Rel v w) (fs : List Bool) :
    (p.run exec fault fs v).1 = (p.run exec' fault fs w).1 ∧
      Rel (p.run exec fault fs v).2.1 (p.run exec' fault fs w).2.1 ∧
      (p.run exec fault fs v).2.2 = (p.run exec' fault fs w).2.2 := by
  induction p generalizing fs v w with
  | ret a => exact ⟨rfl, hvw, rfl⟩
  | raise e => exact ⟨rfl, hvw, rfl⟩
  | stmt s k ih =>
    obtain ⟨hs, hrest⟩ := h
    simp only [Prog.run]
    cases fs.headD false with
    | true => exact ⟨rfl, hvw, rfl⟩
    | false =>
      generalize hx : exec s v = x at hs ⊢
      generalize hy : exec' s w = y at hs ⊢
      cases hs with
      | raised e => exact ⟨rfl, hvw, rfl⟩
      | returned r related => exact ih r (hrest r _ _ hx hy) related fs.tail

theorem run_related (hstep : ∀ s v w, Rel v w → Agree Rel (exec s v) (exec s w)) (p : Prog S R ε α)
    (fs : List Bool) {v w : σ} (h : Rel v w) :
    (p.run exec fault fs v).1 = (p.run exec fault fs w).1 ∧
      Rel (p.run exec fault fs v).2.1 (p.run exec fault fs w).2.1 ∧
      (p.run exec fault fs v).2.2 = (p.run exec fault fs w).2.2 :=
  (alike_of_agree hstep p h).run fault h fs

end Prog

namespace Session

/-- Both sessions were rolled back, or have the related stores for good. -/
theorem transaction_alike {p : Prog S R ε α} {c d : Session σ} (h : p.Alike Rel exec exec' c.view d.view)
    (hview : Rel c.view d.view) (fs : List Bool) :
    (∃ e, transaction exec fault fs p c = (.error e, c.rollback) ∧
      transaction exec' fault fs p d = (.error e, d.rollback)) ∨
    ∃ a v w, transaction exec fault fs p c = (.ok a, ⟨v, v⟩) ∧
      transaction exec' fault fs p d = (.ok a, ⟨w, w⟩) ∧ Rel v w := by
  have hrun := h.run fault hview fs
  unfold transaction
  generalize p.run exec fault fs c.view = x at hrun ⊢
  generalize p.run exec' fault fs d.view = y at hrun ⊢
  obtain ⟨result, v, fs₁⟩ := x
  obtain ⟨result', w, fs₂⟩ := y
  obtain ⟨hresult, hrel, hrest⟩ := hrun
  dsimp only at hresult hrel hrest
  subst hresult hrest
  cases result with
  | error e => exact .inl ⟨e, rfl, rfl⟩
  | ok a =>
    dsimp only
    cases fs₁.headD false with
    | true => exact .inl ⟨fault, rfl, rfl⟩
    | false => exact .inr ⟨a, v, w, rfl, rfl, hrel⟩

theorem transaction_related (hstep : ∀ s v w, Rel v w → Agree Rel (exec s v) (exec s w)) (p : Prog S R ε α)
    (fs : List Bool) {c d : Session σ} (h : Rel c.view d.view) :
    (∃ e, transaction exec fault fs p c = (.error e, c.rollback) ∧
      transaction exec fault fs p d = (.error e, d.rollback)) ∨
    ∃ a v w, transaction exec fault fs p c = (.ok a, ⟨v, v⟩) ∧
      transaction exec fault fs p d = (.ok a, ⟨w, w⟩) ∧ Rel v w :=
  transaction_alike fault (Prog.alike_of_agree hstep p h) h fs

/-- The first session is not rolled back where it raises, the second is. -/
theorem unguarded_transaction {p : Prog S R ε α} {c d : Session σ} (h : p.Alike Rel exec exec' c.view d.view)
    (hview : Rel c.view d.view) (fs : List Bool) :
    ∃ v w, Rel v w ∧
      ((∃ e, unguarded exec fault fs p c = (.error e, { c with view := v }) ∧
        transaction exec' fault fs p d = (.error e, d.rollback)) ∨
      ∃ a, unguarded exec fault fs p c = (.ok a, ⟨v, v⟩) ∧
        transaction exec' fault fs p d = (.ok a, ⟨w, w⟩)) := by
  have hrun := h.run fault hview fs
  unfold unguarded transaction
  generalize p.run exec fault fs c.view = x at hrun ⊢
  generalize p.run exec' fault fs d.view = y at hrun ⊢
  obtain ⟨result, v, fs₁⟩ := x
  obtain ⟨result', w, fs₂⟩ := y
  obtain ⟨hresult, hrel, hrest⟩ := hrun
  dsimp only at hresult hrel hrest
  subst hresult hrest
  refine ⟨v, w, hrel, ?_⟩
  cases result with
  | error e => exact .inl ⟨e, rfl, rfl⟩
  | ok a =>
    dsimp only
    cases fs₁.headD false with
    | true => exact .inl ⟨fault, rfl, rfl⟩
    | false => exact .inr ⟨a, rfl, rfl⟩

/-- Both sessions show the related stores, and have them for good or not. -/
theorem unguarded_related (hstep : ∀ s v w, Rel v w → Agree Rel (exec s v) (exec s w)) (p : Prog S R ε α)
    (fs : List Bool) {c d : Session σ} (h : Rel c.view d.view) :
    ∃ v w, Rel v w ∧
      ((∃ e, unguarded exec fault fs p c = (.error e, { c with view := v }) ∧
        unguarded exec fault fs p d = (.error e, { d with view := w })) ∨
      ∃ a, unguarded exec fault fs p c = (.ok a, ⟨v, v⟩) ∧
        unguarded exec fault fs p d = (.ok a, ⟨w, w⟩)) := by
  have hrun := Prog.run_related fault hstep p fs h
  unfold unguarded
  generalize p.run exec fault fs c.view = x at hrun ⊢
  generalize p.run exec fault fs d.view = y at hrun ⊢
  obtain ⟨result, v, fs₁⟩ := x
  obtain ⟨result', w, fs₂⟩ := y
  obtain ⟨hresult, hrel, hrest⟩ := hrun
  dsimp only at hresult hrel hrest
  subst hresult hrest
  refine ⟨v, w, hrel, ?_⟩
  cases result with
  | error e => exact .inl ⟨e, rfl, rfl⟩
  | ok a =>
    dsimp only
    cases fs₁.headD false with
    | true => exact .inl ⟨fault, rfl, rfl⟩
    | false => exact .inr ⟨a, rfl, rfl⟩

end Session
end LineageVault.Foundations
