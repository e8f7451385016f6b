import Mathlib.Data.List.Basic

/-! # One interface, two implementations

The same calls on two implementations of an interface. `runAll` makes them in order and collects the
answers; the first call that raises ends it. Where the first implementation comes through, `Matches` asks
the second to come through as well, with the same answers, and to show the same in the end.

`matches_iff`: if a relation between the states is kept by the calls that are `good`, and the others are
told apart at once, then all first parts of the calls match exactly if every one of the calls is good.
-/

namespace LineageVault.Foundations
set_option autoImplicit false

variable {C ρ ε σ τ ω : Type}

def runAll (step : C → σ → Except ε ρ × σ) : List C → σ → Except ε (List ρ × σ)
  | [], v => .ok ([], v)
  | c :: cs, v =>
    match step c v with
    | (.error e, _) => .error e
    | (.ok r, v') =>
      match runAll step cs v' with
      | .error e => .error e
      | .ok (rs, v'') => .ok (r :: rs, v'')

section One
variable {step : C → σ → Except ε ρ × σ} {c : C} {cs : List C} {v v' v'' : σ} {r : ρ} {rs : List ρ}

theorem runAll_cons (h : step c v = (.ok r, v')) (hrest : runAll step cs v' = .ok (rs, v'')) :
    runAll step (c :: cs) v = .ok (r :: rs, v'') := by
  simp only [runAll, h, hrest]

theorem runAll_cons_cases (h : runAll step (c :: cs) v = .ok (rs, v'')) :
    ∃ r v' rs', step c v = (.ok r, v') ∧ runAll step cs v' = .ok (rs', v'') ∧ rs = r :: rs' := by
  simp only [runAll] at h
  split at h
  · cases h
  · next r v' hc =>
    split at h
    · cases h
    · next rs' w hcs =>
      cases h
      exact ⟨r, v', rs', hc, hcs, rfl⟩

/-- Every call of `cs` that is made is `good`, given the calls before it and the state it finds. -/
def AllAlong (good : List C → C → σ → Prop) (step : C → σ → Except ε ρ × σ) : List C → List C → σ → Prop
  | _, [], _ => True
  | past, c :: cs, v => good past c v ∧ ∀ r v', step c v = (.ok r, v') →
      AllAlong good step (past ++ [c]) cs v'

theorem allAlong_cons {good : List C → C → σ → Prop} {past : List C} (h : step c v = (.ok r, v')) :
    AllAlong good step past (c :: cs) v ↔ good past c v ∧ AllAlong good step (past ++ [c]) cs v' := by
  refine and_congr_right fun _ => ⟨fun hall => hall r v' h, fun hall r' w hw => ?_⟩
  cases h.symm.trans hw
  exact hall

end One

section Two
variable (step₁ : C → σ → Except ε ρ × σ) (step₂ : C → τ → Except ε ρ × τ) (shown₁ : σ → ω) (shown₂ : τ → ω)

def Matches (v : σ) (w : τ) (cs : List C) : Prop :=
  ∀ rs v', runAll step₁ cs v = .ok (rs, v') → ∃ w', runAll step₂ cs w = .ok (rs, w') ∧ shown₂ w' = shown₁ v'

variable {step₁ step₂ shown₁ shown₂}

theorem matches_nil {v : σ} {w : τ} (h : shown₂ w = shown₁ v) : Matches step₁ step₂ shown₁ shown₂ v w [] := by
  intro rs v' hrun
  cases hrun
  exact ⟨w, rfl, h⟩

theorem matches_cons {c : C} {cs : List C} {r : ρ} {v v' : σ} {w w' : τ} (h₁ : step₁ c v = (.ok r, v'))
    (h₂ : step₂ c w = (.ok r, w')) :
    Matches step₁ step₂ shown₁ shown₂ v w (c :: cs) ↔ Matches step₁ step₂ shown₁ shown₂ v' w' cs := by
  constructor
  · intro h rs v'' hrun
    obtain ⟨w'', hrun₂, hshown⟩ := h _ v'' (runAll_cons h₁ hrun)
    obtain ⟨r', u, rs', hc, hcs, heq⟩ := runAll_cons_cases hrun₂
    cases h₂.symm.trans hc
    obtain rfl := (List.cons.inj heq).2
    exact ⟨w'', hcs, hshown⟩
  · intro h rs v'' hrun
    obtain ⟨r', u, rs', hc, hcs, rfl⟩ := runAll_cons_cases hrun
    cases h₁.symm.trans hc
    obtain ⟨w'', hrun₂, hshown⟩ := h rs' v'' hcs
    exact ⟨w'', runAll_cons h₂ hrun₂, hshown⟩

variable {good : List C → C → σ → Prop} {R : List C → σ → τ → Prop}

theorem matches_iff (hshown : ∀ {past v w}, R past v w → shown₂ w = shown₁ v)
    (hgood : ∀ {past c v w r v'}, R past v w → good past c v → step₁ c v = (.ok r, v') →
      ∃ w', step₂ c w = (.ok r, w') ∧ R (past ++ [c]) v' w')
    (hbad : ∀ {past c v w r v' w'}, R past v w → ¬ good past c v → step₁ c v = (.ok r, v') →
      step₂ c w = (.ok r, w') → shown₂ w' ≠ shown₁ v')
    {past cs : List C} {v v' : σ} {w : τ} {rs : List ρ} (h : R past v w) (hrun : runAll step₁ cs v = .ok (rs, v')) :
    (∀ before, before <+: cs → Matches step₁ step₂ shown₁ shown₂ v w before) ↔
      AllAlong good step₁ past cs v := by
  induction cs generalizing past v w rs with
  | nil =>
    refine ⟨fun _ => trivial, fun _ before hbefore => ?_⟩
    rw [List.prefix_nil.1 hbefore]
    exact matches_nil (hshown h)
  | cons c cs ih =>
    obtain ⟨r, v₁, rs', hc, hcs, -⟩ := runAll_cons_cases hrun
    rw [allAlong_cons hc]
    by_cases hg : good past c v
    · obtain ⟨w₁, hc₂, h₁⟩ := hgood h hg hc
      rw [← ih h₁ hcs]
      constructor
      · intro hall
        refine ⟨hg, fun before hbefore => ?_⟩
        rw [← matches_cons hc hc₂]
        exact hall _ (List.cons_prefix_cons.2 ⟨rfl, hbefore⟩)
      · rintro ⟨-, hall⟩ before hbefore
        rcases List.prefix_cons_iff.1 hbefore with rfl | ⟨rest, rfl, hrest⟩
        · exact matches_nil (hshown h)
        · rw [matches_cons hc hc₂]
          exact hall rest hrest
    · -- the call itself tells the two apart
      refine ⟨fun hall => ?_, fun hall => (hg hall.1).elim⟩
      obtain ⟨w', hrun₂, hsame⟩ := hall [c] (List.cons_prefix_cons.2 ⟨rfl, List.nil_prefix⟩) [r] v₁
        (runAll_cons hc rfl)
      obtain ⟨r', u, rs'', hc₂, hnil, heq⟩ := runAll_cons_cases hrun₂
      obtain rfl := (List.cons.inj heq).1
      cases hnil
      exact (hbad h hg hc hc₂ hsame).elim

end Two
end LineageVault.Foundations
