import LineageVault.Foundations.Interruption
import LineageVault.Storage.History

/-! # The clients of a backend

The ingestor and the engine are programs over the calls of `StorageBackend`. Each call is performed
on the SQLite backend with a schedule of failures; `run` is a client that nothing disturbs, and
`runUnder` one whose calls fail or that is stopped between two of them.
-/

namespace LineageVault
open Foundations
set_option autoImplicit false

variable {P : Type} (py : PyLib P)

inductive StorageCall (P : Type) where
  | acknowledgeWrite (now : ClockText) (item : BatchWriteItem P)
  | acknowledgeWritesBatch (now : ClockText) (items : List (BatchWriteItem P))
  | addDatasetEdge (src dst transformId eventTime : Str) (schemaVersion : ℤ) (payload : P)
  | recordFieldMapping (runId outputDataset inputDataset : Str) (fieldMap : List (Str × SqlParam))
  | storeRunEvent (runId eventType : Str) (payload : P)

@[reducible] def StorageReply : StorageCall P → Type
  | .acknowledgeWrite _ _ => AcknowledgedWrite
  | .acknowledgeWritesBatch _ _ => List AcknowledgedWrite
  | _ => Unit

abbrev Client (P : Type) := Prog (StorageCall P) StorageReply PyErr

abbrev storage (s : StorageCall P) : Client P (StorageReply s) := Prog.query s

namespace StorageCall

def perform (fs : List Bool) : (s : StorageCall P) → Backend → Except PyErr (StorageReply s) × Backend
  | .acknowledgeWrite now item, b => b.acknowledgeWrite py fs now item
  | .acknowledgeWritesBatch now items, b => b.acknowledgeWritesBatch py fs now items
  | .addDatasetEdge src dst transformId eventTime schemaVersion payload, b =>
    b.addDatasetEdge py fs src dst transformId eventTime schemaVersion payload
  | .recordFieldMapping runId outputDataset inputDataset fieldMap, b =>
    b.recordFieldMapping fs runId outputDataset inputDataset fieldMap
  | .storeRunEvent runId eventType payload, b => b.storeRunEvent py fs runId eventType payload

/-- The same call in a history. -/
def toCall : StorageCall P → Call P
  | .acknowledgeWrite now item => .acknowledgeWrite now item
  | .acknowledgeWritesBatch now items => .acknowledgeWritesBatch now items
  | .addDatasetEdge src dst transformId eventTime schemaVersion payload =>
    .addDatasetEdge src dst transformId eventTime schemaVersion payload
  | .recordFieldMapping runId outputDataset inputDataset fieldMap =>
    .recordFieldMapping runId outputDataset inputDataset fieldMap
  | .storeRunEvent runId eventType payload => .storeRunEvent runId eventType payload

end StorageCall

/-- A client that nothing disturbs. -/
abbrev Client.run {α : Type} (p : Client P α) (b : Backend) : Except PyErr α × Backend :=
  Prog.whole (StorageCall.perform py) [] p b

/-- A client under a schedule of failures for each call; it is stopped where the schedule ends. -/
abbrev Client.runUnder {α : Type} (fss : List (List Bool)) (p : Client P α) (b : Backend) :
    Option (Except PyErr α) × Backend :=
  Prog.drive (StorageCall.perform py) fss p b

/-- How many calls of such a client return. -/
abbrev Client.callsReturned {α : Type} (fss : List (List Bool)) (p : Client P α) (b : Backend) : ℕ :=
  Prog.callsReturned (StorageCall.perform py) fss p b

/-- What the first `n` calls of an undisturbed client leave. -/
abbrev Client.after {α : Type} (n : ℕ) (p : Client P α) (b : Backend) : Backend :=
  Prog.after (StorageCall.perform py) [] n p b

variable {py}

theorem perform_reachable {b : Backend} (h : Reachable py b) (fs : List Bool) (s : StorageCall P) :
    Reachable py (s.perform py fs b).2 := by
  obtain ⟨log, hrun⟩ := h
  have hcall : (s.perform py fs b).2 = (s.toCall.perform py fs b).2 := by
    cases s with
    | _ => rfl
  rw [hcall]
  exact ⟨_, .snoc s.toCall fs hrun⟩

/-! ## Calls that return, and calls that raise -/

theorem unguarded_run {α : Type} (fs : List Bool) (p : Sql α) (b : Backend) :
    let x := p.run exec .operationalError fs b.session.view
    (∃ e, b.unguarded fs p = (.error e, { b with session := { b.session with view := x.2.1 } })) ∨
    (∃ a, x.1 = .ok a ∧ b.unguarded fs p = (.ok a, { b with session := ⟨x.2.1, x.2.1⟩ })) := by
  rcases Session.unguarded_run exec .operationalError fs p b.session with ⟨e, h⟩ | ⟨a, ha, h⟩
  · exact .inl ⟨e, by rw [Backend.unguarded, h]⟩
  · exact .inr ⟨a, ha, by rw [Backend.unguarded, h]⟩

theorem unguarded_cases {α : Type} (fs : List Bool) (p : Sql α) (b : Backend) :
    (∃ e v, b.unguarded fs p = (.error e, { b with session := { b.session with view := v } })) ∨
    (∃ a v, p.eval exec b.session.view = .ok (a, v) ∧
      b.unguarded fs p = (.ok a, { b with session := ⟨v, v⟩ })) := by
  rcases unguarded_run fs p b with ⟨e, h⟩ | ⟨a, ha, h⟩
  · exact .inl ⟨e, _, h⟩
  · exact .inr ⟨a, _, Prog.run_ok exec .operationalError (Prod.ext ha rfl), h⟩

/-- A call raises and leaves nothing durable, or does what it does undisturbed. -/
theorem call_cases (fs : List Bool) (s : StorageCall P) (b : Backend) :
    (∃ e b', s.perform py fs b = (.error e, b') ∧ b'.session.durable = b.session.durable) ∨
    (∃ r b', s.perform py fs b = (.ok r, b') ∧ s.perform py [] b = (.ok r, b')) := by
  cases s with
  | acknowledgeWrite now item =>
    rcases acknowledge_singleton_cases fs now item b with ⟨e, h⟩ | ⟨r, w, he, h⟩
    · exact .inl ⟨e, _, h, rfl⟩
    · exact .inr ⟨r, _, h, acknowledgeWrite_ok he⟩
  | acknowledgeWritesBatch now items =>
    cases items with
    | nil => exact .inr ⟨[], b, rfl, rfl⟩
    | cons item items =>
      rcases guarded_cases fs (acknowledgeBody py now (item :: items)) b with ⟨e, h⟩ | ⟨rs, w, he, h⟩
      · exact .inl ⟨e, _, h, rfl⟩
      · exact .inr ⟨rs, _, h, batch_ok (by simp) he⟩
  | addDatasetEdge src dst transformId eventTime schemaVersion payload =>
    simp only [StorageCall.perform, Backend.addDatasetEdge]
    rcases unguarded_cases fs (addDatasetEdgeBody py src dst transformId eventTime schemaVersion payload)
      b with ⟨e, v, h⟩ | ⟨a, v, he, h⟩
    · exact .inl ⟨e, { b with session := { b.session with view := v } }, by rw [h], rfl⟩
    · exact .inr ⟨(), { session := ⟨v, v⟩, graph := addEdge (src, dst) b.graph }, by rw [h],
        by rw [unguarded_ok he]⟩
  | recordFieldMapping runId outputDataset inputDataset fieldMap =>
    rcases unguarded_cases fs (recordFieldMappingBody runId outputDataset inputDataset fieldMap) b with
      ⟨e, v, h⟩ | ⟨a, v, he, h⟩
    · exact .inl ⟨e, _, h, rfl⟩
    · exact .inr ⟨(), _, h, unguarded_ok he⟩
  | storeRunEvent runId eventType payload =>
    rcases unguarded_cases fs (storeRunEventBody py runId eventType payload) b with
      ⟨e, v, h⟩ | ⟨a, v, he, h⟩
    · exact .inl ⟨e, _, h, rfl⟩
    · exact .inr ⟨(), _, h, unguarded_ok he⟩

theorem perform_ok {fs : List Bool} {s : StorageCall P} {b b' : Backend} {r : StorageReply s}
    (h : s.perform py fs b = (.ok r, b')) : s.perform py [] b = (.ok r, b') := by
  rcases call_cases fs s b with ⟨e, b'', h', -⟩ | ⟨r', b'', h', hquiet⟩
  · rw [h] at h'
    cases h'
  · rw [hquiet, ← h', h]

theorem perform_error {fs : List Bool} {s : StorageCall P} {b b' : Backend} {e : PyErr}
    (h : s.perform py fs b = (.error e, b')) : b'.session.durable = b.session.durable := by
  rcases call_cases fs s b with ⟨e', b'', h', hd⟩ | ⟨r', b'', h', -⟩
  · rw [h] at h'
    cases h'
    exact hd
  · rw [h] at h'
    cases h'

/-! ## Clients -/

theorem runUnder_reachable {α : Type} {b : Backend} (h : Reachable py b) (fss : List (List Bool))
    (p : Client P α) : Reachable py (p.runUnder py fss b).2 :=
  Prog.drive_keeps (P := Reachable py) _ (fun fs s _ _ hb => perform_reachable hb fs s) fss
    p.uses_true h

theorem run_reachable {α : Type} {b : Backend} (h : Reachable py b) (p : Client P α) :
    Reachable py (p.run py b).2 :=
  Prog.whole_keeps (P := Reachable py) _ (fun s _ _ hb => perform_reachable hb [] s) p.uses_true h

/-- Both halves of a client that returned. -/
theorem run_bind_cases {α β : Type} {p : Client P α} {f : α → Client P β} {b b₂ : Backend} {y : β}
    (h : Client.run py (p >>= f) b = (.ok y, b₂)) :
    ∃ x b₁, p.run py b = (.ok x, b₁) ∧ (f x).run py b₁ = (.ok y, b₂) := Prog.whole_bind_cases _ h

theorem run_bind_ok {α β : Type} {p : Client P α} {b b₁ : Backend} {x : α}
    (h : p.run py b = (.ok x, b₁)) (f : α → Client P β) :
    Client.run py (p >>= f) b = (f x).run py b₁ := by
  rw [Client.run, Prog.whole_bind]
  simp only [h]

variable (py) in
/-- What survives a client that fails or is stopped is what its calls that returned leave. -/
theorem runUnder_after {α : Type} (fss : List (List Bool)) (p : Client P α) (b : Backend) :
    (p.runUnder py fss b).2.session.durable =
      (p.after py (p.callsReturned py fss b) b).session.durable :=
  Prog.drive_after (StorageCall.perform py) (fun _ _ _ _ _ h => perform_ok h)
    (fun _ _ _ _ _ h => perform_error h) fss p b

/-! ## Calls that record lineage -/

/-- The calls that write none of the three tables of the write path. -/
def StorageCall.records : StorageCall P → Prop
  | .acknowledgeWrite _ _ => False
  | .acknowledgeWritesBatch _ _ => False
  | _ => True

/-- The journal stands as it did, and is durable. -/
def Keeps (J : Journal) (b : Backend) : Prop := Settled b ∧ journal b.session.view = J

theorem records_keeps {J : Journal} {s : StorageCall P} (hs : s.records) (fs : List Bool) {b : Backend}
    (hb : Keeps J b) : Keeps J (s.perform py fs b).2 := by
  obtain ⟨hset, hJ⟩ := hb
  cases s with
  | acknowledgeWrite now item => exact hs.elim
  | acknowledgeWritesBatch now items => exact hs.elim
  | addDatasetEdge src dst transformId eventTime schemaVersion payload =>
    have h := unguarded_journal (uses_addDatasetEdge py src dst transformId eventTime
      schemaVersion payload) fs hset
    simp only [StorageCall.perform, Backend.addDatasetEdge]
    split
    · next a b' hu => rw [hu] at h; exact ⟨h.1, h.2.trans hJ⟩
    · next e b' hu => rw [hu] at h; exact ⟨h.1, h.2.trans hJ⟩
  | recordFieldMapping runId outputDataset inputDataset fieldMap =>
    have h := unguarded_journal (uses_recordFieldMapping runId outputDataset inputDataset fieldMap) fs
      hset
    exact ⟨h.1, h.2.trans hJ⟩
  | storeRunEvent runId eventType payload =>
    have h := unguarded_journal (uses_storeRunEvent py runId eventType payload) fs hset
    exact ⟨h.1, h.2.trans hJ⟩

end LineageVault
