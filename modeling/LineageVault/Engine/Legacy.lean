import LineageVault.Engine.Events
import LineageVault.Storage.FreshKeys
import LineageVault.Storage.Client

/-! # The legacy path: `engine.ingest_sync` and `POST /events`

`_persist_event` acknowledges the event and then adds its edge, whether or not the acknowledgement
found a duplicate; `post_event` answers with the id it made, not with the one that was acknowledged.
So a repeated key adds an edge and is answered with an id the ledger does not have
(`legacy_repeats`). `legacy_idempotent` says what holds as long as every call is `Balanced`: its key
is new and its edge can be stored.
-/

namespace LineageVault
open Foundations
set_option autoImplicit false

/-! ## The code -/

/-- The payload of `_persist_event`. -/
def LineageEvent.payload (event : LineageEvent) : Json :=
  .obj (((event.modelDump.set (lit "output_dataset") (.str event.transform.outputDataset)).set
    (lit "input_dataset") (.str event.transform.inputDataset)).set
      (lit "timestamp") (.str event.timestamp.isoformat))

/-- `idempotency_key or event.event_id` -/
def LineageEvent.resolvedKey (event : LineageEvent) : Option Str → Str
  | some (c :: key) => c :: key
  | _ => event.eventId

/-- `_persist_event`; it leaves the verdict in the event. -/
def persistEvent (now : ClockText) (event : LineageEvent) (idempotencyKey : Option Str) :
    Client Json LineageEvent := do
  let payload := event.payload
  let _ ← storage (.acknowledgeWrite now ⟨event.resolvedKey idempotencyKey, event.eventId, payload⟩)
  let (status, compat) := checkCompliance event
  storage (.addDatasetEdge event.transform.inputDataset event.transform.outputDataset
    event.transform.transformId event.timestamp.isoformat event.transform.outputSchema.version payload)
  return { event with transform := { event.transform with compliance := status, compat := compat } }

structure IngestBody where
  pipelineRunId : Str
  sequence : ℤ
  inputDataset : Str
  outputDataset : Str
  inputSchema : List (Str × Str)
  outputSchema : List (Str × Str)
  rowCount : ℤ := 0
  idempotencyKey : Option Str := none

/-- What `uuid4()` and the clock give a new event. -/
structure Stamp where
  transformId : Str
  eventId : Str
  timestamp : DateTime

/-- The event that `post_event` makes. -/
def IngestBody.event (body : IngestBody) (stamp : Stamp) : LineageEvent where
  eventId := stamp.eventId
  timestamp := stamp.timestamp
  pipelineRunId := body.pipelineRunId
  sequence := body.sequence
  transform := {
    transformId := stamp.transformId
    inputDataset := body.inputDataset
    outputDataset := body.outputDataset
    inputSchema := ⟨1, body.inputSchema⟩
    outputSchema := ⟨2, body.outputSchema⟩
    rowCount := body.rowCount }

structure EventAnswer where
  eventId : Str
  integrity : Bool
  deriving DecidableEq

inductive LegacyCall where
  | ingestSync (now : ClockText) (event : LineageEvent) (idempotencyKey : Option Str)
  | postEvent (now : ClockText) (stamp : Stamp) (body : IngestBody)

/-- What a call returns: `ingest_sync` returns nothing. -/
abbrev LegacyAnswer := Except PyErr (Option EventAnswer)

namespace LegacyCall

def event : LegacyCall → LineageEvent
  | .ingestSync _ event _ => event
  | .postEvent _ stamp body => body.event stamp

def now : LegacyCall → ClockText
  | .ingestSync now _ _ => now
  | .postEvent now _ _ => now

def idempotencyKey : LegacyCall → Option Str
  | .ingestSync _ _ idempotencyKey => idempotencyKey
  | .postEvent _ _ body => body.idempotencyKey

/-- What is answered once the event is persisted. -/
def answer (py : PyLib Json) (event : LineageEvent) (b : Backend) : LegacyCall → LegacyAnswer
  | .ingestSync _ _ _ => .ok none
  | .postEvent _ _ _ =>
    match b.verifyIntegrity py with
    | .ok integrity => .ok (some ⟨event.eventId, integrity⟩)
    | .error e => .error e

/-- `ingest_sync` and `post_event` -/
def perform (py : PyLib Json) (c : LegacyCall) (b : Backend) : LegacyAnswer × Backend :=
  match (persistEvent c.now c.event c.idempotencyKey).run py b with
  | (.ok event, b') => (c.answer py event b', b')
  | (.error e, b') => (.error e, b')

/-- The key the call is acknowledged with. -/
def key (c : LegacyCall) : Str := c.event.resolvedKey c.idempotencyKey

def item (c : LegacyCall) : BatchWriteItem Json := ⟨c.key, c.event.eventId, c.event.payload⟩

/-- A new key under which the event can be acknowledged. -/
def Admitted (b : Backend) (c : LegacyCall) : Prop :=
  c.key.encodable = true ∧ c.event.eventId.encodable = true ∧ c.event.eventId ∉ ledgerIds b.db

instance (b : Backend) (c : LegacyCall) : Decidable (c.Admitted b) := inferInstanceAs (Decidable (_ ∧ _))

/-- The edge can be stored. -/
def edgeFits (c : LegacyCall) : Bool :=
  bindable [c.event.transform.inputDataset, c.event.transform.outputDataset,
    c.event.transform.transformId] && fitsInteger c.event.transform.outputSchema.version

end LegacyCall

variable {sha256 : Str → Digest} {loads : Str → Except PyErr Json} {limit : VariableLimit}
  {b : Backend} {c : LegacyCall}

/-! ## The edge -/

def LegacyCall.edge (c : LegacyCall) : EdgeRow :=
  ⟨c.event.transform.inputDataset, c.event.transform.outputDataset, c.event.transform.transformId,
    c.event.timestamp.isoformat, c.event.transform.outputSchema.version, c.event.payload.dumps false⟩

/-- The backend after the edge of a call. -/
def linked (c : LegacyCall) (b : Backend) : Backend :=
  let v : Store := ({ b.db with datasetEdges := b.db.datasetEdges ++ [c.edge] }, b.session.view.2)
  { session := ⟨v, v⟩, graph := addEdge (c.edge.src, c.edge.dst) b.graph }

def edgeCall (c : LegacyCall) : StorageCall Json :=
  .addDatasetEdge c.edge.src c.edge.dst c.edge.transformId c.edge.eventTime c.edge.schemaVersion
    c.event.payload

@[simp] theorem linked_edges (c : LegacyCall) (b : Backend) :
    (linked c b).db.datasetEdges = b.db.datasetEdges ++ [c.edge] := rfl

theorem linked_edges_length (c : LegacyCall) (b : Backend) :
    (linked c b).db.datasetEdges.length = b.db.datasetEdges.length + 1 := by
  rw [linked_edges, List.length_append, List.length_singleton]

@[simp] theorem linked_ledger (c : LegacyCall) (b : Backend) : (linked c b).db.ledger = b.db.ledger := rfl

theorem edge_bindable (c : LegacyCall) :
    bindable [c.edge.src, c.edge.dst, c.edge.transformId, c.edge.eventTime, c.edge.payload] =
      bindable [c.event.transform.inputDataset, c.event.transform.outputDataset,
        c.event.transform.transformId] := by
  have htime : c.edge.eventTime.encodable = true := isoformat_encodable _
  have hpayload : c.edge.payload.encodable = true := dumps_encodable false _
  simp only [bindable_cons, bindable_nil, htime, hpayload, Bool.and_true]
  rfl

theorem perform_edge_ok (hfits : c.edgeFits = true) (b : Backend) :
    (edgeCall c).perform (PyLib.json sha256 loads limit) [] b = (.ok (), linked c b) := by
  obtain ⟨hbind, hversion⟩ := Bool.and_eq_true_iff.1 hfits
  rw [← edge_bindable] at hbind
  have hfit : fitsInteger c.edge.schemaVersion = true := hversion
  have hexec : exec (.insertEdge c.edge.src c.edge.dst c.edge.transformId c.edge.eventTime
      c.edge.schemaVersion c.edge.payload) b.session.view = .ok ((), (linked c b).session.view) := by
    simp only [exec, effect, hbind]
    rw [if_neg (by simp), if_neg (by simpa using hfit)]
    rfl
  have heval : (addDatasetEdgeBody (PyLib.json sha256 loads limit) c.edge.src c.edge.dst c.edge.transformId
      c.edge.eventTime c.edge.schemaVersion c.event.payload).eval exec b.session.view =
        .ok ((), (linked c b).session.view) := Prog.eval_stmt_ok exec hexec
  simp only [edgeCall, StorageCall.perform, Backend.addDatasetEdge, unguarded_ok heval]
  rfl

theorem perform_edge_error (sha256 : Str → Digest) (loads : Str → Except PyErr Json) (limit : VariableLimit)
    (hfits : c.edgeFits = false) (b : Backend) :
    ∃ e, (edgeCall c).perform (PyLib.json sha256 loads limit) [] b = (.error e, b) := by
  have hexec : ∃ e, exec (.insertEdge c.edge.src c.edge.dst c.edge.transformId c.edge.eventTime
      c.edge.schemaVersion c.edge.payload) b.session.view = .error e := by
    simp only [exec, effect, edge_bindable]
    rw [LegacyCall.edgeFits, Bool.and_eq_false_iff] at hfits
    rcases hfits with hbind | hversion
    · exact ⟨_, by rw [hbind]; rfl⟩
    · have hfit : fitsInteger c.edge.schemaVersion = false := hversion
      rw [hfit]
      cases bindable [c.event.transform.inputDataset, c.event.transform.outputDataset,
        c.event.transform.transformId] <;> exact ⟨_, rfl⟩
  obtain ⟨e, he⟩ := hexec
  have hcall : b.unguarded [] (addDatasetEdgeBody (PyLib.json sha256 loads limit) c.edge.src c.edge.dst
      c.edge.transformId c.edge.eventTime c.edge.schemaVersion c.event.payload) = (.error e, b) :=
    unguarded_stmt_error he
  exact ⟨e, by simp only [edgeCall, StorageCall.perform, Backend.addDatasetEdge, hcall]⟩

/-! ## What a call does -/

/-- The five ways a call can go. -/
inductive LegacyStep (py : PyLib Json) (b : Backend) (c : LegacyCall) : LegacyAnswer → Backend → Prop where
  | repeated (known : existingEvent b.db c.key ≠ none) (fits : c.edgeFits = true)
      (answer : LegacyAnswer) : LegacyStep py b c answer (linked c b)
  | unlinkedRepeat (known : existingEvent b.db c.key ≠ none) (fits : c.edgeFits = false) (e : PyErr) :
      LegacyStep py b c (.error e) { b with session := ⟨b.session.view, b.session.view⟩ }
  | fresh {w : Store} (new : existingEvent b.db c.key = none) (admitted : c.Admitted b)
      (fits : c.edgeFits = true) (answer : LegacyAnswer)
      (event : ∀ a, answer = .ok (some a) → a.eventId = c.event.eventId)
      (ack : w = acknowledged py b.session.view c.now c.item (c.event.payload.dumps true)) :
      LegacyStep py b c answer (linked c { b with session := ⟨w, w⟩ })
  | unlinked {w : Store} (new : existingEvent b.db c.key = none) (admitted : c.Admitted b)
      (fits : c.edgeFits = false) (e : PyErr)
      (ack : w = acknowledged py b.session.view c.now c.item (c.event.payload.dumps true)) :
      LegacyStep py b c (.error e) { b with session := ⟨w, w⟩ }
  | refused (new : existingEvent b.db c.key = none) (notAdmitted : ¬ c.Admitted b) (e : PyErr) :
      LegacyStep py b c (.error e) { b with session := b.session.rollback }

theorem persist_stmt (c : LegacyCall) :
    persistEvent c.now c.event c.idempotencyKey =
      .stmt (.acknowledgeWrite c.now c.item) fun _ => .stmt (edgeCall c) fun _ =>
        .ret { c.event with transform := { c.event.transform with
          compliance := (checkCompliance c.event).1, compat := (checkCompliance c.event).2 } } := rfl

theorem answer_eventId {py : PyLib Json} {event : LineageEvent} {a : EventAnswer}
    (h : c.answer py event b = .ok (some a)) : a.eventId = event.eventId := by
  cases c with
  | ingestSync now event' key => cases h
  | postEvent now stamp body =>
    rw [LegacyCall.answer] at h
    split at h
    · cases h
      rfl
    · cases h

/-- What becomes of a call once its write is acknowledged. -/
theorem perform_acknowledged {r : AcknowledgedWrite} {b' : Backend}
    (hack : b.acknowledgeWrite (PyLib.json sha256 loads limit) [] c.now c.item = (.ok r, b')) :
    (c.edgeFits = true ∧ ∃ answer, (∀ a, answer = .ok (some a) → a.eventId = c.event.eventId) ∧
      c.perform (PyLib.json sha256 loads limit) b = (answer, linked c b')) ∨
    (c.edgeFits = false ∧ ∃ e, c.perform (PyLib.json sha256 loads limit) b = (.error e, b')) := by
  have hcall : StorageCall.perform (PyLib.json sha256 loads limit) [] (.acknowledgeWrite c.now c.item) b =
      (.ok r, b') := hack
  rw [LegacyCall.perform, persist_stmt, Client.run, Prog.whole_stmt_ok _ hcall]
  cases hfits : c.edgeFits with
  | true =>
    rw [Prog.whole_stmt_ok _ (perform_edge_ok hfits b')]
    exact .inl ⟨rfl, _, fun a ha => answer_eventId ha, rfl⟩
  | false =>
    obtain ⟨e, he⟩ := perform_edge_error sha256 loads limit hfits b'
    rw [Prog.whole_stmt_error _ he]
    exact .inr ⟨rfl, e, rfl⟩

theorem perform_refused {e : PyErr} {b' : Backend}
    (hack : b.acknowledgeWrite (PyLib.json sha256 loads limit) [] c.now c.item = (.error e, b')) :
    c.perform (PyLib.json sha256 loads limit) b = (.error e, b') := by
  have hcall : StorageCall.perform (PyLib.json sha256 loads limit) [] (.acknowledgeWrite c.now c.item) b =
      (.error e, b') := hack
  rw [LegacyCall.perform, persist_stmt, Client.run, Prog.whole_stmt_error _ hcall]

/-- A call that is admitted, under a key that is not used. -/
theorem LegacyCall.Admitted.admits {log : List (Call Json × Outcome)} (hadm : c.Admitted b)
    (hrun : Run (PyLib.json sha256 loads limit) log b) (hknown : existingEvent b.db c.key = none) :
    Admits b.session.view c.item (c.event.payload.dumps true) where
  key := hadm.1
  text := by
    have hevent : c.item.eventId.encodable = true := hadm.2.1
    rw [encodable_entryText, hrun.chainInv.headHash_encodable, hevent, dumps_encodable]
    rfl
  unkeyed q hq := ⟨existingEvent_eq_none.1 hknown q hq, fun (he : q.eventId = c.event.eventId) =>
    hadm.2.2 (he ▸ hrun.journalInv.keyed q hq)⟩
  unledgered q hq he := hadm.2.2 (List.mem_map.2 ⟨q, hq, he⟩)

/-- Any other call under such a key is refused. -/
theorem acknowledge_not_admitted (hknown : existingEvent b.db c.key = none) (hadm : ¬ c.Admitted b) :
    ∃ e, b.acknowledgeWrite (PyLib.json sha256 loads limit) [] c.now c.item =
      (.error e, { b with session := b.session.rollback }) := by
  by_cases hk : c.key.encodable = true
  · refine acknowledgeWrite_refused c.now (PyLib.json sha256 loads limit) hk hknown fun t _ ha => ?_
    have htext := ha.text
    simp only [encodable_entryText, Bool.and_eq_true] at htext
    refine hadm ⟨hk, htext.1.2, fun hmem => ?_⟩
    obtain ⟨q, hq, he⟩ := List.mem_map.1 hmem
    exact ha.unledgered q hq he
  · exact acknowledgeWrite_unbindable c.now _ (Bool.eq_false_iff.2 hk) b

theorem legacy_cases (hb : Reachable (PyLib.json sha256 loads limit) b) (c : LegacyCall) :
    LegacyStep (PyLib.json sha256 loads limit) b c (c.perform (PyLib.json sha256 loads limit) b).1
      (c.perform (PyLib.json sha256 loads limit) b).2 := by
  obtain ⟨log, hrun⟩ := hb
  have hp : payloadJson (PyLib.json sha256 loads limit) c.item.payload = .ok (c.event.payload.dumps true) := rfl
  cases hknown : existingEvent b.db c.key with
  | some e =>
    obtain ⟨q, hq, -⟩ := Option.map_eq_some_iff.1 hknown
    have hqk : q.idempotencyKey = c.key := by simpa using List.find?_some hq
    have hk : c.key.encodable = true := hqk ▸ hrun.keys_encodable q (List.mem_of_find?_eq_some hq)
    have hne : existingEvent b.db c.key ≠ none := by
      rw [hknown]
      exact Option.some_ne_none e
    have hack : b.acknowledgeWrite (PyLib.json sha256 loads limit) [] c.now c.item = (.ok _, _) :=
      acknowledgeWrite_known c.now (PyLib.json sha256 loads limit) hk hknown
    rcases perform_acknowledged hack with ⟨hfits, answer, -, h⟩ | ⟨hfits, e', h⟩
    · rw [h]
      exact .repeated hne hfits answer
    · rw [h]
      exact .unlinkedRepeat hne hfits e'
  | none =>
    by_cases hadm : c.Admitted b
    · have hack := acknowledgeWrite_fresh c.now hadm.1 hknown hp (hadm.admits hrun hknown)
      rcases perform_acknowledged hack with ⟨hfits, answer, hevent, h⟩ | ⟨hfits, e', h⟩
      · rw [h]
        exact .fresh hknown hadm hfits answer hevent rfl
      · rw [h]
        exact .unlinked hknown hadm hfits e' rfl
    · obtain ⟨e, he⟩ := acknowledge_not_admitted hknown hadm
      rw [perform_refused he]
      exact .refused hknown hadm e

/-- A new event adds a row to the ledger and none to the edges. -/
theorem acknowledged_rows {w : Store} (c : LegacyCall)
    (ack : w = acknowledged (PyLib.json sha256 loads limit) b.session.view c.now c.item
      (c.event.payload.dumps true)) :
    w.1.ledger = b.db.ledger ++ [nextRow (PyLib.json sha256 loads limit) b.session.view c.event.eventId
        (c.event.payload.dumps true)] ∧
      w.1.datasetEdges = b.db.datasetEdges := by
  rw [ack, acknowledged_ledger, acknowledged_datasetEdges]
  exact ⟨rfl, rfl⟩

/-! ## Runs of balanced calls -/

/-- A key that is known comes with an edge that cannot be stored, a new one with an edge that can;
where the acknowledgement is refused, no edge is lost that was never committed. -/
structure LegacyCall.Balanced (b : Backend) (c : LegacyCall) : Prop where
  known : existingEvent b.db c.key ≠ none → c.edgeFits = false
  admitted : existingEvent b.db c.key = none → c.Admitted b → c.edgeFits = true
  refused : existingEvent b.db c.key = none → ¬ c.Admitted b →
    b.session.durable.1.datasetEdges.length = b.db.datasetEdges.length

/-- **A call is idempotent and adds as many edges as ledger rows exactly if it is balanced.** -/
theorem balanced_iff (hb : Reachable (PyLib.json sha256 loads limit) b) (c : LegacyCall) :
    c.Balanced b ↔
      (existingEvent b.db c.key ≠ none → (c.perform (PyLib.json sha256 loads limit) b).2.db = b.db ∧
        (c.perform (PyLib.json sha256 loads limit) b).2.graph = b.graph) ∧
      (c.perform (PyLib.json sha256 loads limit) b).2.db.datasetEdges.length + b.db.ledger.length =
        b.db.datasetEdges.length + (c.perform (PyLib.json sha256 loads limit) b).2.db.ledger.length := by
  have hstep := legacy_cases hb c
  have hsettled : b.session.durable.1.ledger = b.db.ledger := by
    obtain ⟨log, hrun⟩ := hb
    exact (journal_ext.1 hrun.settled).2.1
  generalize (c.perform (PyLib.json sha256 loads limit) b).1 = answer at hstep
  generalize (c.perform (PyLib.json sha256 loads limit) b).2 = b' at hstep
  cases hstep with
  | repeated known fits answer =>
    constructor
    · intro h
      rw [h.known known] at fits
      cases fits
    · rintro ⟨-, hcount⟩
      rw [linked_edges_length, linked_ledger] at hcount
      omega
  | unlinkedRepeat known fits e =>
    refine ⟨fun _ => ⟨fun _ => ⟨rfl, rfl⟩, rfl⟩, fun _ => ⟨fun _ => fits, ?_, ?_⟩⟩
    · exact fun hnone => (known hnone).elim
    · exact fun hnone => (known hnone).elim
  | @fresh w new admitted fits answer event ack =>
    obtain ⟨hledger, hedges⟩ := acknowledged_rows c ack
    refine ⟨fun _ => ⟨fun hknown => (hknown new).elim, ?_⟩, fun _ => ⟨?_, fun _ _ => fits, ?_⟩⟩
    · rw [linked_edges_length, linked_ledger, Backend.db, hedges, hledger, List.length_append,
        List.length_singleton]
      omega
    · exact fun hknown => (hknown new).elim
    · exact fun _ hnot => (hnot admitted).elim
  | @unlinked w new admitted fits e ack =>
    obtain ⟨hledger, hedges⟩ := acknowledged_rows c ack
    constructor
    · intro h
      rw [h.admitted new admitted] at fits
      cases fits
    · rintro ⟨-, hcount⟩
      rw [hedges, hledger, List.length_append, List.length_singleton] at hcount
      omega
  | refused new notAdmitted e =>
    have hledger : b.session.rollback.view.1.ledger.length = b.db.ledger.length := by
      rw [Session.rollback_view, hsettled]
    constructor
    · intro h
      refine ⟨fun hknown => (hknown new).elim, ?_⟩
      have hedges := h.refused new notAdmitted
      simp only [Backend.db, Session.rollback_view] at hledger hedges ⊢
      rw [hledger, hedges]
    · rintro ⟨-, hcount⟩
      refine ⟨fun hknown => (hknown new).elim, fun _ hadm => (notAdmitted hadm).elim, fun _ _ => ?_⟩
      simp only [Backend.db, Session.rollback_view] at hledger hcount ⊢
      omega

/-- The calls and answers of a run whose calls are all balanced. -/
inductive LegacyRun (py : PyLib Json) (b₀ : Backend) :
    List (LegacyCall × LegacyAnswer) → Backend → Prop where
  | nil : LegacyRun py b₀ [] b₀
  | snoc {log : List (LegacyCall × LegacyAnswer)} {b : Backend} (c : LegacyCall)
      (run : LegacyRun py b₀ log b) (balanced : c.Balanced b) :
      LegacyRun py b₀ (log ++ [(c, (c.perform py b).1)]) (c.perform py b).2

theorem legacy_reachable (hb : Reachable (PyLib.json sha256 loads limit) b) (c : LegacyCall) :
    Reachable (PyLib.json sha256 loads limit) (c.perform (PyLib.json sha256 loads limit) b).2 := by
  have hrun := run_reachable hb (persistEvent c.now c.event c.idempotencyKey)
  rw [LegacyCall.perform]
  split
  · next h => rwa [h] at hrun
  · next h => rwa [h] at hrun

/-- A balanced call keeps every key, and what it answers is the event of its key. -/
theorem balanced_keeps (hb : Reachable (PyLib.json sha256 loads limit) b) (hc : c.Balanced b) :
    (∀ key e, existingEvent b.db key = some e →
      existingEvent (c.perform (PyLib.json sha256 loads limit) b).2.db key = some e) ∧
    ∀ a, (c.perform (PyLib.json sha256 loads limit) b).1 = .ok (some a) →
      existingEvent (c.perform (PyLib.json sha256 loads limit) b).2.db c.key = some a.eventId := by
  have hstep := legacy_cases hb c
  have hsettled : b.session.durable.1.idempotency = b.db.idempotency := by
    obtain ⟨log, hrun⟩ := hb
    exact (journal_ext.1 hrun.settled).1
  generalize (c.perform (PyLib.json sha256 loads limit) b).1 = answer at hstep ⊢
  generalize (c.perform (PyLib.json sha256 loads limit) b).2 = b' at hstep ⊢
  cases hstep with
  | repeated known fits answer =>
    rw [hc.known known] at fits
    cases fits
  | unlinkedRepeat known fits e => exact ⟨fun _ _ h => h, fun a ha => by cases ha⟩
  | @fresh w new admitted fits answer event ack =>
    have hidem : (linked c { b with session := ⟨w, w⟩ }).db.idempotency = w.1.idempotency := rfl
    refine ⟨fun key e h => ?_, fun a ha => ?_⟩
    · rw [existingEvent, hidem, ack]
      exact existingEvent_mono h
    · have hfresh : existingEvent (acknowledged (PyLib.json sha256 loads limit) b.session.view c.now c.item
          (c.event.payload.dumps true)).1 c.item.idempotencyKey = some c.item.eventId :=
        existingEvent_fresh _ c.now (existingEvent_eq_none.1 new)
      rw [existingEvent, hidem, ack, event a ha]
      exact hfresh
  | unlinked new admitted fits e ack =>
    rw [hc.admitted new admitted] at fits
    cases fits
  | refused new notAdmitted e =>
    refine ⟨fun key e h => ?_, fun a ha => by cases ha⟩
    rw [existingEvent, Backend.db, Session.rollback_view, hsettled]
    exact h

/-- What holds between any two balanced calls. -/
theorem LegacyRun.answers {b₀ : Backend} {log : List (LegacyCall × LegacyAnswer)}
    (hb₀ : Reachable (PyLib.json sha256 loads limit) b₀)
    (h : LegacyRun (PyLib.json sha256 loads limit) b₀ log b) :
    Reachable (PyLib.json sha256 loads limit) b ∧
      b.db.datasetEdges.length + b₀.db.ledger.length =
        b₀.db.datasetEdges.length + b.db.ledger.length ∧
      ∀ x ∈ log, ∀ a, x.2 = .ok (some a) → existingEvent b.db x.1.key = some a.eventId := by
  induction h with
  | nil => exact ⟨hb₀, rfl, fun x hx => (List.not_mem_nil hx).elim⟩
  | @snoc log b c run balanced ih =>
    obtain ⟨hb, hcount, hanswers⟩ := ih
    obtain ⟨hkeep, hanswer⟩ := balanced_keeps hb balanced
    have hstep := ((balanced_iff hb c).1 balanced).2
    refine ⟨legacy_reachable hb c, by omega, fun x hx a ha => ?_⟩
    rcases List.mem_append.1 hx with hx | hx
    · exact hkeep _ _ (hanswers x hx a ha)
    · obtain rfl := List.mem_singleton.1 hx
      exact hanswer a ha

/-- **Balanced calls of the legacy path are idempotent, in state and answer.** From any reachable
state, in every state that such calls reach: a balanced call with a known key changes no table and
not the graph; the calls have added as many edges as ledger rows; every answered event is in the
ledger; and one key is answered with one event. -/
theorem legacy_idempotent {b₀ : Backend} {log : List (LegacyCall × LegacyAnswer)}
    (hb₀ : Reachable (PyLib.json sha256 loads limit) b₀)
    (h : LegacyRun (PyLib.json sha256 loads limit) b₀ log b) :
    (∀ c : LegacyCall, c.Balanced b → existingEvent b.db c.key ≠ none →
      (c.perform (PyLib.json sha256 loads limit) b).2.db = b.db ∧
        (c.perform (PyLib.json sha256 loads limit) b).2.graph = b.graph) ∧
      b.db.datasetEdges.length + b₀.db.ledger.length =
        b₀.db.datasetEdges.length + b.db.ledger.length ∧
      (∀ x ∈ log, ∀ a, x.2 = .ok (some a) → a.eventId ∈ ledgerIds b.db) ∧
      ∀ x ∈ log, ∀ y ∈ log, ∀ a a', x.2 = .ok (some a) → y.2 = .ok (some a') → x.1.key = y.1.key →
        a.eventId = a'.eventId := by
  obtain ⟨hb, hcount, hanswers⟩ := h.answers hb₀
  refine ⟨fun c hc => ((balanced_iff hb c).1 hc).1, hcount, fun x hx a ha => ?_, ?_⟩
  · obtain ⟨q, hq, he⟩ := Option.map_eq_some_iff.1 (hanswers x hx a ha)
    obtain ⟨log', hrun⟩ := hb
    rw [← he]
    exact hrun.journalInv.keyed q (List.mem_of_find?_eq_some hq)
  · intro x hx y hy a a' ha ha' hkey
    have hx := hanswers x hx a ha
    rw [hkey, hanswers y hy a' ha'] at hx
    exact (Option.some.inj hx).symm

/-! ## The same key twice -/

/-- `POST /events` of a run from `a` to `b`, under the key `k`. -/
def postCopy (eventId : Str) : LegacyCall :=
  .postEvent .fixed ⟨lit "t", eventId, ⟨2026, 1, 2, 0, 0, 0, 0, some 0⟩⟩
    { pipelineRunId := lit "p", sequence := 1, inputDataset := lit "a", outputDataset := lit "b",
      inputSchema := [], outputSchema := [], idempotencyKey := some (lit "k") }

/-- The key `k` again, with a schema version that SQLite cannot store. -/
def repeatUnstorable : LegacyCall :=
  let event := (postCopy (lit "f")).event
  .ingestSync .fixed { event with transform := { event.transform with outputSchema := ⟨9223372036854775808, []⟩ } }
    (some (lit "k"))

theorem legacy_idempotent_repeated :
    let b := ((postCopy (lit "e")).perform PyLib.fixed .empty).2
    existingEvent b.db repeatUnstorable.key = some (lit "e") ∧ lit "e" ∈ ledgerIds b.db ∧
      (repeatUnstorable.perform PyLib.fixed b).2.db = b.db ∧
      (repeatUnstorable.perform PyLib.fixed b).2.db.datasetEdges.length + Backend.empty.db.ledger.length =
        Backend.empty.db.datasetEdges.length + (repeatUnstorable.perform PyLib.fixed b).2.db.ledger.length := by
  intro b
  have hbal : (postCopy (lit "e")).Balanced .empty := ⟨fun h => (h rfl).elim, fun _ _ => by decide,
    fun _ _ => rfl⟩
  have hrun : LegacyRun PyLib.fixed .empty _ b := .snoc (postCopy (lit "e")) .nil hbal
  have hknown : existingEvent b.db repeatUnstorable.key = some (lit "e") := by decide +kernel
  have hsome : existingEvent b.db repeatUnstorable.key ≠ none := by
    rw [hknown]
    exact Option.some_ne_none _
  have hbal' : repeatUnstorable.Balanced b :=
    ⟨fun _ => by decide, fun h => (hsome h).elim, fun h => (hsome h).elim⟩
  have hanswer : ((postCopy (lit "e")).perform PyLib.fixed .empty).1 = .ok (some ⟨lit "e", true⟩) := by
    decide +kernel
  have hrun' : LegacyRun PyLib.fixed .empty _ (repeatUnstorable.perform PyLib.fixed b).2 :=
    .snoc repeatUnstorable hrun hbal'
  obtain ⟨hkeep, -, hledger, -⟩ := legacy_idempotent ⟨[], .nil⟩ hrun
  have hsame : ∀ c : LegacyCall, c.Balanced b → existingEvent b.db c.key ≠ none →
      (c.perform PyLib.fixed b).2.db = b.db := fun c hc hk => (hkeep c hc hk).1
  obtain ⟨-, hcount, -, -⟩ := legacy_idempotent ⟨[], .nil⟩ hrun'
  have hfirst := hledger _ (List.mem_append_right _ List.mem_cons_self) ⟨lit "e", true⟩
  dsimp only at hfirst
  exact ⟨hknown, hfirst hanswer, hsame repeatUnstorable hbal' hsome, hcount⟩

/-- **A repeated key adds an edge and is answered with an event the ledger does not have.** -/
theorem legacy_repeats :
    let first := (postCopy (lit "e")).perform PyLib.fixed .empty
    let second := (postCopy (lit "f")).perform PyLib.fixed first.2
    existingEvent first.2.db (lit "k") = some (lit "e") ∧
      second.1.toOption = some (some ⟨lit "f", true⟩) ∧ lit "f" ∉ ledgerIds second.2.db ∧
      second.2.db.ledger.length = 1 ∧ first.2.db.datasetEdges.length = 1 ∧
      second.2.db.datasetEdges.length = 2 := by
  decide +kernel

end LineageVault
