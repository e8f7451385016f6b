import Mathlib.Data.List.Basic

/-! # A log and the cell of its last entry

Values are appended to a log and, each some time later, stored in one cell. The cell has the last value
of the log once all are stored, if no store was overtaken: made when the cell had a value that stands in
the log after the one to be stored.
-/

namespace LineageVault.Foundations.LastWriter
set_option autoImplicit false

variable {α : Type}

/-- The cell has a value that stands in the log after every `x`. -/
def Overtaken (log : List α) (stored : Option α) (x : α) : Prop :=
  ∃ before y after, log = before ++ y :: after ∧ stored = some y ∧ x ∉ y :: after

/-- For every place of the log, its value or a later one is stored, or its value is still to be stored. -/
def Covered (log : List α) (stored : Option α) (pending : α → Prop) : Prop :=
  ∀ before y after, log = before ++ y :: after → (∃ z ∈ y :: after, stored = some z) ∨ pending y

variable {log more : List α} {stored : Option α} {pending pending' : α → Prop} {x : α}

theorem Covered.imp (h : Covered log stored pending) (hold : ∀ y, pending y → pending' y) :
    Covered log stored pending' :=
  fun before y after hsplit => (h before y after hsplit).imp_right (hold y)

theorem Covered.append (h : Covered log stored pending) (hold : ∀ y, pending y → pending' y)
    (hmore : ∀ y ∈ more, pending' y) : Covered (log ++ more) stored pending' := by
  intro before y after hsplit
  rcases List.append_eq_append_iff.1 hsplit with ⟨as, rfl, hmore'⟩ | ⟨cs, rfl, hrest⟩
  · refine .inr (hmore y ?_)
    rw [hmore']
    exact List.mem_append_right _ List.mem_cons_self
  · cases cs with
    | nil =>
      refine .inr (hmore y ?_)
      rw [← show y :: after = more from hrest]
      exact List.mem_cons_self
    | cons c cs =>
      obtain ⟨rfl, rfl⟩ := List.cons.inj hrest
      refine (h before y cs rfl).imp ?_ (hold y)
      rintro ⟨z, hz, hstored⟩
      exact ⟨z, List.mem_append_left more hz, hstored⟩

/-- A value that is not overtaken is stored. -/
theorem Covered.store (h : Covered log stored pending) (hx : ¬ Overtaken log stored x)
    (hold : ∀ y, pending y → y = x ∨ pending' y) : Covered log (some x) pending' := by
  intro before y after hsplit
  rcases h before y after hsplit with ⟨z, hz, hstored⟩ | hy
  · left
    obtain ⟨as, bs, hzs⟩ := List.append_of_mem hz
    have hlater : x ∈ z :: bs := by
      by_contra hno
      exact hx ⟨before ++ as, z, bs, by rw [hsplit, hzs, List.append_assoc], hstored, hno⟩
    refine ⟨x, ?_, rfl⟩
    rw [hzs]
    exact List.mem_append_right _ hlater
  · rcases hold y hy with rfl | hy
    · exact .inl ⟨y, List.mem_cons_self, rfl⟩
    · exact .inr hy

/-- The last value of the log is never overtaken. -/
theorem not_overtaken_last (h : log.getLast? = some x) : ¬ Overtaken log stored x := by
  rintro ⟨before, y, after, rfl, -, hx⟩
  rw [List.getLast?_append_of_ne_nil before (List.cons_ne_nil y after)] at h
  exact hx (List.mem_of_getLast? h)

theorem Covered.last (h : Covered log stored fun _ => False) (hlast : log.getLast? = some x) :
    stored = some x := by
  obtain ⟨before, rfl⟩ := List.getLast?_eq_some_iff.1 hlast
  obtain ⟨z, hz, hstored⟩ := (h before x [] rfl).resolve_right id
  rw [hstored, List.mem_singleton.1 hz]

end LineageVault.Foundations.LastWriter
