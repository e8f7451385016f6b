import LineageVault.Storage.BatchRefinement
import LineageVault.Storage.FieldImpact
import LineageVault.Storage.Rekeyed

/-! # Recording and acknowledging commute

A client that records lineage and returns may as well do so after writes that are acknowledged next:
both return the same in either order and leave the same backend (`acknowledge_first`). Where several
writes are acknowledged, they may all go first (`acknowledgeAll_first`).
-/

namespace LineageVault
open Foundations
set_option autoImplicit false

variable {P α : Type} {py : PyLib P} {b b₁ b₂ : Backend} {p : Client P α} {a : α}

/-- A client that returns leaves no transaction open, if none was. -/
theorem run_committed (hb : b.session.durable = b.session.view) (h : p.run py b = (.ok a, b₁)) :
    b₁.session.durable = b₁.session.view := by
  induction p generalizing b with
  | ret a' =>
    cases h
    exact hb
  | raise e => cases h
  | stmt s k ih =>
    obtain ⟨r, b', hcall, hrest⟩ := Prog.whole_stmt_cases _ h
    refine ih r ?_ hrest
    rcases perform_lineage py [] s b with ⟨r', b'', h', hs⟩ | ⟨e, b'', h', -⟩
    · rw [hcall] at h'
      cases h'
      rcases hs.committed with hc | ⟨rfl, -⟩
      · exact hc
      · exact hb
    · rw [hcall] at h'
      cases h'

/-- A journal change of a backend with no open transaction. -/
theorem mapStore_committed (g : Store → Store) (hb : b.session.durable = b.session.view) :
    b.mapStore g = { b with session := ⟨g b.session.view, g b.session.view⟩ } := by
  rw [Backend.mapStore, hb]

theorem run_journal (hp : p.Uses StorageCall.records) (hb : b.session.durable = b.session.view)
    (h : p.run py b = (.ok a, b₁)) : journal b₁.session.view = journal b.session.view := by
  have hkeeps : Keeps (journal b.session.view) b := ⟨congrArg journal hb, rfl⟩
  have hrun : Keeps (journal b.session.view) (p.run py b).2 :=
    Prog.whole_keeps (P := Keeps (journal b.session.view)) _ (fun _ _ hs hk => records_keeps hs [] hk) hp hkeeps
  rw [h] at hrun
  exact hrun.2

/-- **A write may be acknowledged before what was recorded before it.** -/
theorem acknowledge_first (hp : p.Uses StorageCall.records) (hb : b.session.durable = b.session.view)
    (hrun : p.run py b = (.ok a, b₁)) {now : ClockText} {item : BatchWriteItem P} {r : AcknowledgedWrite}
    (hack : b₁.acknowledgeWrite py [] now item = (.ok r, b₂)) :
    ∃ b₃, b.acknowledgeWrite py [] now item = (.ok r, b₃) ∧ b₃.session.durable = b₃.session.view ∧
      p.run py b₃ = (.ok a, b₂) := by
  have hb₁ := run_committed hb hrun
  obtain ⟨w₂, heval, rfl⟩ := acknowledgeWrite_returned hack
  -- the acknowledgement sees the journal alone, which the client has kept
  rw [← rejournaled_self (run_journal hp hb hrun), acknowledgeBody_rejournaled] at heval
  cases hfirst : (acknowledgeBody py now [item]).eval exec b.session.view with
  | error e =>
    rw [hfirst] at heval
    cases heval
  | ok x =>
    obtain ⟨rs, w⟩ := x
    rw [hfirst] at heval
    cases heval
    have hself := acknowledgeBody_rejournaled py now [item] b.session.view b.session.view
    rw [rejournaled_self rfl, hfirst] at hself
    have hw : w = rejournaled w b.session.view := (Prod.mk.inj (Except.ok.inj hself)).2
    have hb₃ : b.mapStore (rejournaled w) = { b with session := ⟨w, w⟩ } := by
      rw [mapStore_committed _ hb, ← hw]
    refine ⟨{ b with session := ⟨w, w⟩ }, acknowledgeWrite_ok hfirst, rfl, ?_⟩
    rw [← hb₃, run_mapStore (beside_rejournaled w) hp, hrun, mapStore_committed _ hb₁]

/-- All of several writes may be. -/
theorem acknowledgeAll_first (hp : p.Uses StorageCall.records) (hb : b.session.durable = b.session.view)
    (hrun : p.run py b = (.ok a, b₁)) {stamped : List (ClockText × BatchWriteItem P)}
    {rs : List AcknowledgedWrite} (hack : b₁.defaultAcknowledgeWritesBatch py stamped = (.ok rs, b₂)) :
    ∃ b₃, b.defaultAcknowledgeWritesBatch py stamped = (.ok rs, b₃) ∧
      b₃.session.durable = b₃.session.view ∧ p.run py b₃ = (.ok a, b₂) := by
  induction stamped generalizing b b₁ rs with
  | nil =>
    cases hack
    exact ⟨b, rfl, hb, hrun⟩
  | cons head stamped ih =>
    obtain ⟨now, item⟩ := head
    simp only [Backend.defaultAcknowledgeWritesBatch] at hack ⊢
    split at hack
    · cases hack
    · next r b' hone =>
      split at hack
      · cases hack
      · next rs' b'' hrest =>
        cases hack
        obtain ⟨b₃, hone', hb₃, hrun'⟩ := acknowledge_first hp hb hrun hone
        obtain ⟨b₄, hrest', hb₄, hrun''⟩ := ih hb₃ hrun' hrest
        exact ⟨b₄, by rw [hone']; simp only [hrest'], hb₄, hrun''⟩

/-! ## Plain calls -/

/-- Plain calls do not touch the graph, and leave no transaction open. -/
theorem default_committed {stamped : List (ClockText × BatchWriteItem P)} {rs : List AcknowledgedWrite}
    (h : b.defaultAcknowledgeWritesBatch py stamped = (.ok rs, b₁)) :
    b₁.graph = b.graph ∧ (stamped ≠ [] → b₁.session.durable = b₁.session.view) := by
  induction stamped generalizing b rs with
  | nil =>
    cases h
    exact ⟨rfl, fun hne => (hne rfl).elim⟩
  | cons head stamped ih =>
    obtain ⟨now, item⟩ := head
    rw [Backend.defaultAcknowledgeWritesBatch] at h
    rcases acknowledge_singleton_cases [] now item b with ⟨e, hone⟩ | ⟨r, w, -, hone⟩
    · rw [hone] at h
      cases h
    · simp only [hone] at h
      split at h
      · cases h
      · next rs' b' hrest =>
        cases h
        obtain ⟨hgraph, hcommitted⟩ := ih hrest
        refine ⟨hgraph, fun _ => ?_⟩
        cases stamped with
        | nil =>
          cases hrest
          rfl
        | cons head stamped => exact hcommitted (List.cons_ne_nil _ _)

theorem eq_rekeyed {v w : Store} (h : timeless v = timeless w) : v = rekeyed v.1.idempotency w := by
  obtain ⟨-, hdb, hn⟩ := timeless_ext.1 h
  simp only [Db.mk.injEq, true_and] at hdb
  obtain ⟨hl, hs, he, hf, hr⟩ := hdb
  simp only [rekeyed, ← hl, ← hs, ← he, ← hf, ← hr, ← hn]

theorem timeless_rekeyed {v w u : Store} (h : timeless v = timeless w)
    (hu : u.1.idempotency = w.1.idempotency) : timeless (rekeyed v.1.idempotency u) = timeless u := by
  refine timeless_ext.2 ⟨?_, rfl, rfl⟩
  rw [hu]
  exact (timeless_ext.1 h).1

end LineageVault
