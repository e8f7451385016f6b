import LineageVault.OpenLineage.RunEvents

/-! # Which rows the ingests leave

Both paths write the ledger and the edge table, with payloads of different shapes and times from
different fields. `vault_extends`: whatever calls an engine is given and whichever of them raise, each
row that is new in one of the two tables is a row of an event of one of the calls, and no row is lost.
-/

namespace LineageVault
open Foundations
set_option autoImplicit false

/-! ## Events of either path -/

inductive AnyEvent where
  | legacy (event : LineageEvent)
  | openlineage (event : RunEvent)

/-- The names of raw datasets; one that cannot be read has none. -/
def datasetNames (raws : List Dict) : List Str :=
  raws.filterMap fun raw => (datasetRef raw []).toOption.map DatasetRef.qualifiedName

namespace AnyEvent

def payload : AnyEvent → Json
  | .legacy event => event.payload
  | .openlineage event => event.modelDump

/-- The event's own time. -/
def time : AnyEvent → DateTime
  | .legacy event => event.timestamp
  | .openlineage event => event.eventTime

/-- The time its edges are given. -/
def edgeTime : AnyEvent → DateTime
  | .legacy event => event.timestamp
  | .openlineage event => event.eventTime.assumeUtc

def inputs : AnyEvent → List Str
  | .legacy event => [event.transform.inputDataset]
  | .openlineage event => datasetNames event.inputs

def outputs : AnyEvent → List Str
  | .legacy event => [event.transform.outputDataset]
  | .openlineage event => datasetNames event.outputs

/-- A row that the event has in the ledger. -/
def IsEntry (x : AnyEvent) (r : LedgerRow) : Prop := Recorded r x.payload

/-- A row that the event has in the edge table. -/
structure IsEdge (x : AnyEvent) (r : EdgeRow) : Prop where
  payload : r.payload = x.payload.dumps false
  time : r.eventTime = x.edgeTime.isoformat
  src : r.src ∈ x.inputs
  dst : r.dst ∈ x.outputs

end AnyEvent

/-! ## Calls of an engine -/

namespace EngineCall

def anyEvents : EngineCall → List AnyEvent
  | .ingestSync _ event _ => [.legacy event]
  | .ingest _ _ event _ => [.openlineage event]
  | .ingestBatch _ _ events _ => events.map .openlineage

variable (R : Rendering) (py : PyLib Json)

/-- What a call leaves that nothing disturbs, whether it returns or raises. -/
def leaves (b : Backend) : EngineCall → Backend
  | .ingestSync now event key => ((persistEvent now event key).run py b).2
  | .ingest now ids event key => (((IngestCall.ingest now ids event key).prog R).run py b).2
  | .ingestBatch now ids events key => (((IngestCall.ingestBatch now ids events key).prog R).run py b).2

end EngineCall

/-- What a sequence of calls leaves. -/
def vault (R : Rendering) (py : PyLib Json) (calls : List EngineCall) (b : Backend) : Backend :=
  calls.foldl (EngineCall.leaves R py) b

/-- The new rows of both tables are rows of the events; what the connection sees of the tables is
durable. -/
structure Extends (events : List AnyEvent) (b₀ b : Backend) : Prop where
  ledger : ∃ rows, b.db.ledger = b₀.db.ledger ++ rows ∧ ∀ r ∈ rows, ∃ x ∈ events, x.IsEntry r
  edges : ∃ rows, b.db.datasetEdges = b₀.db.datasetEdges ++ rows ∧ ∀ r ∈ rows, ∃ x ∈ events, x.IsEdge r
  durable : b.session.durable.1.ledger = b.db.ledger ∧ b.session.durable.1.datasetEdges = b.db.datasetEdges

section Calls
variable {R : Rendering} {sha256 : Str → Digest} {loads : Str → Except PyErr Json} {limit : VariableLimit}
  {events : List AnyEvent}
  {b₀ b : Backend}

theorem extends_refl (events : List AnyEvent)
    (h : b.session.durable.1.ledger = b.db.ledger ∧ b.session.durable.1.datasetEdges = b.db.datasetEdges) :
    Extends events b b where
  ledger := ⟨[], (List.append_nil _).symm, fun _ hr => absurd hr List.not_mem_nil⟩
  edges := ⟨[], (List.append_nil _).symm, fun _ hr => absurd hr List.not_mem_nil⟩
  durable := h

theorem Extends.mono {events' : List AnyEvent} (h : Extends events b₀ b) (hsub : ∀ x ∈ events, x ∈ events') :
    Extends events' b₀ b where
  ledger := by
    obtain ⟨rows, hrows, hall⟩ := h.ledger
    exact ⟨rows, hrows, fun r hr => (hall r hr).imp fun x hx => ⟨hsub x hx.1, hx.2⟩⟩
  edges := by
    obtain ⟨rows, hrows, hall⟩ := h.edges
    exact ⟨rows, hrows, fun r hr => (hall r hr).imp fun x hx => ⟨hsub x hx.1, hx.2⟩⟩
  durable := h.durable

/-- The two tables were left as they were. -/
theorem Extends.framed {b' : Backend} (h : Extends events b₀ b)
    (hview : b'.db.ledger = b.db.ledger ∧ b'.db.datasetEdges = b.db.datasetEdges)
    (hdurable : b'.session.durable.1.ledger = b.db.ledger ∧
      b'.session.durable.1.datasetEdges = b.db.datasetEdges) : Extends events b₀ b' where
  ledger := by rw [hview.1]; exact h.ledger
  edges := by rw [hview.2]; exact h.edges
  durable := ⟨hdurable.1.trans hview.1.symm, hdurable.2.trans hview.2.symm⟩

theorem Extends.rollback (h : Extends events b₀ b) :
    Extends events b₀ { b with session := b.session.rollback } :=
  h.framed h.durable h.durable

/-! ## One call of the storage -/

/-- What the call writes to the two tables is of the events. -/
def StorageCall.Of (events : List AnyEvent) : StorageCall Json → Prop
  | .acknowledgeWrite _ item => ∃ x ∈ events, item.payload = x.payload
  | .acknowledgeWritesBatch _ items => ∀ item ∈ items, ∃ x ∈ events, item.payload = x.payload
  | .addDatasetEdge src dst _ eventTime _ payload =>
    ∃ x ∈ events, payload = x.payload ∧ eventTime = x.edgeTime.isoformat ∧ src ∈ x.inputs ∧ dst ∈ x.outputs
  | _ => True

theorem mem_news {α : Type} {xs : List α} {results : List AcknowledgedWrite} {x : α}
    (h : x ∈ news xs results) : x ∈ xs := by
  obtain ⟨y, hy, rfl⟩ := List.mem_map.1 h
  exact (List.of_mem_zip (List.mem_filter.1 hy).1).1

theorem Extends.acknowledged (h : Extends events b₀ b) {now : ClockText} {items : List (BatchWriteItem Json)}
    {w : Store} {results : List AcknowledgedWrite}
    (hof : ∀ item ∈ items, ∃ x ∈ events, item.payload = x.payload)
    (heval : (acknowledgeBody (PyLib.json sha256 loads limit) now items).eval exec b.session.view =
      .ok (results, w)) :
    Extends events b₀ { b with session := ⟨w, w⟩ } where
  ledger := by
    obtain ⟨rows, hrows, hall⟩ := h.ledger
    obtain ⟨added, hadded, hpayloads⟩ := acknowledgeBody_ledger heval
    refine ⟨rows ++ added, ?_, fun r hr => ?_⟩
    · rw [← List.append_assoc, ← hrows]
      exact hadded
    · rcases List.mem_append.1 hr with hr | hr
      · exact hall r hr
      · obtain ⟨p, hp, hrecorded⟩ := forall₂_mem hpayloads hr
        obtain ⟨item, hitem, rfl⟩ := List.mem_map.1 hp
        obtain ⟨x, hx, hpx⟩ := hof item (mem_news hitem)
        exact ⟨x, hx, show Recorded r x.payload from hpx ▸ hrecorded⟩
  edges := by
    have hframe : w.1.datasetEdges = b.db.datasetEdges := (Prod.mk.inj (acknowledgeBody_frame heval)).1
    simp only [Backend.db, hframe]
    exact h.edges
  durable := ⟨rfl, rfl⟩

/-- Statements that write neither table. -/
def Stmt.aside : Stmt → Prop
  | .insertMapping .. => True
  | .upsertRunEvent .. => True
  | _ => False

theorem exec_aside {ledger : List LedgerRow} {edges : List EdgeRow} (s : Stmt) (v : Store) (r : Reply s)
    (w : Store) (hs : s.aside) (hv : v.1.ledger = ledger ∧ v.1.datasetEdges = edges)
    (h : exec s v = .ok (r, w)) : w.1.ledger = ledger ∧ w.1.datasetEdges = edges := by
  cases s with
  | insertMapping =>
    obtain ⟨_, -, -, rfl⟩ := insertMapping_ok h
    exact hv
  | upsertRunEvent =>
    obtain ⟨-, rfl⟩ := upsertRunEvent_ok h
    exact hv
  | _ => exact hs.elim

theorem Extends.aside (h : Extends events b₀ b) {α : Type} {p : Sql α} (hp : p.Uses Stmt.aside) :
    Extends events b₀ (b.unguarded [] p).2 := by
  have hkept := Session.unguarded_keeps exec .operationalError
    (P := fun v => v.1.ledger = b.db.ledger ∧ v.1.datasetEdges = b.db.datasetEdges) exec_aside hp []
    h.durable ⟨rfl, rfl⟩
  exact h.framed hkept.2 hkept.1

theorem Extends.edge (h : Extends events b₀ b) {src dst transformId eventTime : Str} {schemaVersion : ℤ}
    {payload : Json} {x : AnyEvent} (hx : x ∈ events) (hpayload : payload = x.payload)
    (htime : eventTime = x.edgeTime.isoformat) (hsrc : src ∈ x.inputs) (hdst : dst ∈ x.outputs) :
    Extends events b₀ (b.addDatasetEdge (PyLib.json sha256 loads limit) [] src dst transformId eventTime
      schemaVersion payload).2 := by
  let row : EdgeRow := ⟨src, dst, transformId, eventTime, schemaVersion, payload.dumps false⟩
  let body : Sql Unit := .stmt (.insertEdge src dst transformId eventTime schemaVersion row.payload) .ret
  have hbody : addDatasetEdgeBody (PyLib.json sha256 loads limit) src dst transformId eventTime schemaVersion
      payload =
      body := rfl
  rw [Backend.addDatasetEdge, hbody]
  cases hs : exec (.insertEdge src dst transformId eventTime schemaVersion row.payload) b.session.view with
  | error e =>
    have herr : b.unguarded [] body = (.error e, b) := unguarded_stmt_error hs
    rw [herr]
    exact h
  | ok y =>
    obtain ⟨-, -, hw⟩ := insertEdge_ok hs
    have hok : b.unguarded [] body = (.ok y.1, { b with session := ⟨y.2, y.2⟩ }) :=
      unguarded_ok (Prog.eval_stmt_ok exec hs)
    have hrow : x.IsEdge row := ⟨congrArg (Json.dumps false) hpayload, htime, hsrc, hdst⟩
    rw [hok]
    obtain ⟨rows, hrows, hall⟩ := h.edges
    refine ⟨?_, ⟨rows ++ [row], ?_, fun r hr => ?_⟩, rfl, rfl⟩
    · simp only [Backend.db, hw]
      exact h.ledger
    · simp only [Backend.db, hw] at hrows ⊢
      rw [hrows, List.append_assoc]
    · rcases List.mem_append.1 hr with hr | hr
      · exact hall r hr
      · rw [List.mem_singleton.1 hr]
        exact ⟨x, hx, hrow⟩

/-- **One call.** -/
theorem Extends.call (s : StorageCall Json) (hs : s.Of events) (h : Extends events b₀ b) :
    Extends events b₀ (s.perform (PyLib.json sha256 loads limit) [] b).2 := by
  cases s with
  | acknowledgeWrite now item =>
    simp only [StorageCall.perform]
    have hof : ∀ i ∈ [item], ∃ x ∈ events, i.payload = x.payload := fun i hi => by
      rw [List.mem_singleton.1 hi]
      exact hs
    rcases acknowledge_singleton_cases [] now item b with ⟨e, hcall⟩ | ⟨r, w, heval, hcall⟩
    · rw [hcall]
      exact h.rollback
    · rw [hcall]
      exact h.acknowledged hof heval
  | acknowledgeWritesBatch now items =>
    simp only [StorageCall.perform, Backend.acknowledgeWritesBatch]
    split
    · exact h
    · rcases guarded_cases [] (acknowledgeBody (PyLib.json sha256 loads limit) now items) b with
        ⟨e, hcall⟩ | ⟨results, w, heval, hcall⟩
      · rw [hcall]
        exact h.rollback
      · rw [hcall]
        exact h.acknowledged hs heval
  | addDatasetEdge src dst transformId eventTime schemaVersion payload =>
    obtain ⟨x, hx, hpayload, htime, hsrc, hdst⟩ := hs
    exact h.edge hx hpayload htime hsrc hdst
  | recordFieldMapping runId outputDataset inputDataset fieldMap =>
    exact h.aside (uses_insertMapping (fun _ _ => trivial) fieldMap)
  | storeRunEvent runId eventType payload =>
    exact h.aside (p := storeRunEventBody (PyLib.json sha256 loads limit) runId eventType payload)
      (Prog.uses_ofExcept_bind fun _ => ⟨trivial, fun _ => trivial⟩)

/-! ## One call of the engine -/

theorem StorageCall.Of.mono {s : StorageCall Json} {events' : List AnyEvent} (h : s.Of events)
    (hsub : ∀ x ∈ events, x ∈ events') : s.Of events' := by
  cases s with
  | acknowledgeWrite now item => exact Exists.imp (fun x hx => ⟨hsub x hx.1, hx.2⟩) h
  | acknowledgeWritesBatch now items =>
    exact fun item hitem => Exists.imp (fun x hx => ⟨hsub x hx.1, hx.2⟩) (h item hitem)
  | addDatasetEdge src dst transformId eventTime schemaVersion payload =>
    exact Exists.imp (fun x hx => ⟨hsub x hx.1, hx.2⟩) h
  | recordFieldMapping => trivial
  | storeRunEvent => trivial

theorem qualifiedName_mem {raws : List Dict} {d : DatasetRef}
    (h : d ∈ (raws.mapM parseDataset).toOption.getD []) : d.qualifiedName ∈ datasetNames raws := by
  obtain ⟨raw, hraw, hd⟩ := mem_of_mapM (datasets_read (List.ne_nil_of_mem h)) h
  obtain ⟨_, _, -, -, -, hread⟩ := parseDataset_ok hd
  exact List.mem_filterMap.2 ⟨raw, hraw, by rw [hread []]; rfl⟩

theorem of_calls {event : RunEvent} {s : StorageCall Json} (hs : s ∈ event.calls R) :
    s.Of [.openlineage event] := by
  rcases mem_calls hs with rfl | ⟨-, -, -, ⟨outDs, hout, inDs, hin, hs⟩ | ⟨m, -, rfl⟩⟩
  · trivial
  · rcases List.mem_cons.1 hs with rfl | hs
    · exact ⟨_, List.mem_cons_self, rfl, rfl, qualifiedName_mem hin, qualifiedName_mem hout⟩
    · split at hs
      · cases hs
      · rw [List.mem_singleton.1 hs]
        trivial
  · trivial

theorem of_recordedCalls {runEvents : List RunEvent} {results : List AcknowledgedWrite} :
    ∀ s ∈ recordedCalls R runEvents results, s.Of (runEvents.map .openlineage) := by
  intro s hs
  obtain ⟨y, hy, hs⟩ := List.mem_flatMap.1 hs
  split at hs
  · cases hs
  · refine (of_calls hs).mono fun x hx => ?_
    rw [List.mem_singleton.1 hx]
    exact List.mem_map_of_mem (List.of_mem_zip hy).1

theorem uses_ingestCall (c : IngestCall) :
    (c.prog R).Uses (StorageCall.Of (c.events.map .openlineage)) := by
  rcases ingestCall_cases (R := R) c with ⟨out, h⟩ | ⟨e, h⟩ | ⟨now, items, k, h, -, hpayloads, hrest⟩
  · rw [h]
    trivial
  · rw [h]
    trivial
  · rw [h]
    refine ⟨fun item hitem => ?_, fun results => (hrest results).uses of_recordedCalls⟩
    obtain ⟨event, hevent, hpayload⟩ := forall₂_mem hpayloads.flip hitem
    exact ⟨.openlineage event, List.mem_map_of_mem hevent, hpayload⟩

theorem uses_persistEvent (now : ClockText) (event : LineageEvent) (key : Option Str) :
    (persistEvent now event key).Uses (StorageCall.Of [.legacy event]) := by
  refine ⟨⟨_, List.mem_cons_self, rfl⟩, fun _ => ⟨?_, fun _ => trivial⟩⟩
  exact ⟨_, List.mem_cons_self, rfl, rfl, List.mem_cons_self, List.mem_cons_self⟩

theorem Extends.leaves (c : EngineCall) (h : Extends events b₀ b) :
    Extends (events ++ c.anyEvents) b₀ (c.leaves R (PyLib.json sha256 loads limit) b) := by
  have hrun : ∀ {α : Type} (p : Client Json α), p.Uses (StorageCall.Of c.anyEvents) →
      Extends (events ++ c.anyEvents) b₀ (p.run (PyLib.json sha256 loads limit) b).2 := by
    intro α p hp
    have hstart := h.mono fun x hx => List.mem_append_left c.anyEvents hx
    refine Prog.whole_keeps (P := Extends (events ++ c.anyEvents) b₀) _ (fun s b' hs hb' => ?_) hp hstart
    exact hb'.call s (hs.mono fun x hx => List.mem_append_right _ hx)
  cases c with
  | ingestSync now event key => exact hrun _ (uses_persistEvent now event key)
  | ingest now ids event key => exact hrun _ (uses_ingestCall (.ingest now ids event key))
  | ingestBatch now ids runEvents keys => exact hrun _ (uses_ingestCall (.ingestBatch now ids runEvents keys))

/-! ## A sequence of calls -/

variable (R sha256 loads limit) in
/-- **Every new row is of an event of the calls.** -/
theorem vault_extends (calls : List EngineCall)
    (hb : b.session.durable.1.ledger = b.db.ledger ∧ b.session.durable.1.datasetEdges = b.db.datasetEdges) :
    Extends (calls.flatMap EngineCall.anyEvents) b (vault R (PyLib.json sha256 loads limit) calls b) := by
  induction calls using List.reverseRecOn with
  | nil => exact extends_refl [] hb
  | append_singleton calls c ih =>
    have hlast : vault R (PyLib.json sha256 loads limit) (calls ++ [c]) b =
        c.leaves R (PyLib.json sha256 loads limit) (vault R (PyLib.json sha256 loads limit) calls b) := by
      rw [vault, List.foldl_append]
      rfl
    rw [hlast, List.flatMap_append, List.flatMap_singleton]
    exact ih.leaves c

theorem vault_reachable {py : PyLib Json} (calls : List EngineCall) (hb : Reachable py b) :
    Reachable py (vault R py calls b) := by
  induction calls generalizing b with
  | nil => exact hb
  | cons c calls ih =>
    refine ih ?_
    cases c with
    | ingestSync now event key => exact run_reachable hb _
    | ingest now ids event key => exact run_reachable hb _
    | ingestBatch now ids runEvents keys => exact run_reachable hb _

end Calls

end LineageVault
