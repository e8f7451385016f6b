import LineageVault.Api.OpenLineageBatch
import LineageVault.Engine.Legacy
import LineageVault.Foundations.Serving
import LineageVault.Python.IntText
import LineageVault.Storage.FieldImpact
import LineageVault.Storage.WholeCalls

/-! # The server of `api/app.py`

The handlers are programs over the calls they make of the engine and of the metrics; the threads of the
server run them side by side. A writing call of the backend holds its lock from the first statement to the
commit or rollback, and goes statement by statement on the connection that all threads share.
`verify_integrity`, `count_acknowledged` and the SELECTs of `field_impact` take no lock: they may come between
two statements of a call of another request, and are shown what it has written so far.

`Server` is the process with its database: it starts with a recovery, accepts requests, makes their
statements and calls one at a time, answers, and may be stopped or killed anywhere. The clients that never
get an answer count as well: an `Exchange` keeps what was acknowledged for its request.

The routes are those that report the state of the ledger and those that write; `/metrics` and the routes
that only read lineage are left out. A request whose body pydantic refuses never gets to a handler.
-/

namespace LineageVault
open Foundations
set_option autoImplicit false

/-! ## Calls -/

/-- `observability/metrics.py`: two counters and two gauges of the process. -/
structure Metrics where
  eventsIngested : ℕ := 0
  eventsDuplicate : ℕ := 0
  acknowledgedWrites : ℕ := 0
  integrityOk : Bool := false

inductive ServiceCall where
  | storage (s : StorageCall Json)
  | verify
  | countAcknowledged
  /-- the SELECT in the loop of `field_impact` -/
  | selectFields (x : Str × Str)
  /-- the edges in memory -/
  | graph
  | incIngested
  | incDuplicate
  | setIntegrityOk (ok : Bool)
  | setAcknowledgedWrites (n : ℕ)

/-- A call of the engine returns or raises; what it raises is the handler's to catch. -/
@[reducible] def ServiceReply : ServiceCall → Type
  | .storage s => Except PyErr (StorageReply s)
  | .verify => Except PyErr Bool
  | .countAcknowledged => Except PyErr ℕ
  | .selectFields _ => Except PyErr (List (Str × Str))
  | .graph => List (Str × Str)
  | _ => Unit

abbrev Handler := Prog ServiceCall ServiceReply ApiError

abbrev service (s : ServiceCall) : Handler (ServiceReply s) := Prog.query s

/-- What a handler does not catch is answered with status 500. -/
abbrev uncaught {α : Type} (x : Except PyErr α) : Handler α := Prog.ofExcept (x.mapError .raised)

/-- The program of the engine, inside a handler. -/
def Client.handled {α : Type} : Client Json α → Handler α
  | .ret a => .ret a
  | .raise e => .raise (.raised e)
  | .stmt s k => .stmt (.storage s) fun
    | .ok r => handled (k r)
    | .error e => .raise (.raised e)

/-! ## `demo/pipeline.py` -/

/-- What a demo gets from elsewhere: `str(uuid4())`, the clock, the ids of its events, and how often the
loop of `field_impact` goes round. -/
structure DemoStamp where
  runId : Str
  now : DateTime
  startClock : ClockText
  startId : Str
  completeClock : ClockText
  completeId : Str
  legacyClock : ClockText
  legacy : Stamp
  rounds : ℕ

def demoFields (fields : List (Str × Str)) : Json :=
  .obj [(lit "fields", .arr (fields.map fun f => .obj [(lit "name", .str f.1), (lit "type", .str f.2)]))]

/-- An entry of `columnLineage["fields"]`. -/
def fromRawOrders (field : Str) : Json :=
  .obj [(lit "inputFields", .arr [.obj [(lit "namespace", .str (lit "warehouse")),
    (lit "name", .str (lit "raw_orders")), (lit "field", .str field)]])]

def rawOrders : Dict :=
  [(lit "namespace", .str (lit "warehouse")), (lit "name", .str (lit "raw_orders")),
    (lit "facets", .obj [(lit "schema", demoFields [(lit "order_id", lit "integer"),
      (lit "customer_id", lit "integer"), (lit "amount", lit "double")])])]

def curatedOrders : Dict :=
  [(lit "namespace", .str (lit "warehouse")), (lit "name", .str (lit "curated_orders")),
    (lit "facets", .obj [(lit "schema", demoFields [(lit "order_id", lit "integer"),
        (lit "customer_id", lit "integer"), (lit "amount_usd", lit "double")]),
      (lit "columnLineage", .obj [(lit "fields", .obj [(lit "amount_usd", fromRawOrders (lit "amount")),
        (lit "order_id", fromRawOrders (lit "order_id")),
        (lit "customer_id", fromRawOrders (lit "customer_id"))])])])]

def DemoStamp.start (x : DemoStamp) : RunEvent where
  eventType := .start
  eventTime := x.now
  run := [(lit "runId", .str x.runId)]
  job := [(lit "namespace", .str (lit "demo")), (lit "name", .str (lit "orders_etl"))]
  inputs := [rawOrders]
  outputs := []
  producer := defaultProducer

def DemoStamp.complete (x : DemoStamp) : RunEvent :=
  { x.start with eventType := .complete, outputs := [curatedOrders] }

def DemoStamp.legacyEvent (x : DemoStamp) : LineageEvent where
  eventId := x.legacy.eventId
  timestamp := x.legacy.timestamp
  pipelineRunId := x.runId
  sequence := 1
  transform := {
    transformId := x.legacy.transformId
    inputDataset := lit "warehouse.raw_orders"
    outputDataset := lit "warehouse.curated_orders"
    inputSchema := ⟨1, [(lit "order_id", lit "int"), (lit "amount", lit "float")]⟩
    outputSchema := ⟨2, [(lit "order_id", lit "int"), (lit "amount_usd", lit "float")]⟩
    rowCount := 1000 }

/-- The loop of `field_impact`, with a SELECT for each new field; `none` if the fuel ran out. -/
def impactedFields : ℕ → List (Str × Str) → List (Str × Str) → List (Str × Str) →
    Handler (Option (List (Str × Str)))
  | 0, _, _, _ => return none
  | _ + 1, [], _, found => return some found
  | fuel + 1, x :: frontier, seen, found =>
    if seen.contains x then impactedFields fuel frontier seen found
    else do
      let rows ← service (.selectFields x) >>= uncaught
      impactedFields fuel (frontier ++ rows) (x :: seen) (found ++ rows)

def fieldImpact (nx : NetworkX) (rounds : ℕ) (dataset field : Str) : Handler (Option FieldImpact) := do
  let found ← impactedFields rounds [(dataset, field)] [] []
  let edges ← service .graph
  return found.map fun impacted => ⟨dataset, field, impacted, nx.downstream edges dataset⟩

/-! ## Handlers -/

/-- What `create_app` closes over: the limits and the name of the backend from its configuration, and
`str(exc)`. -/
structure App where
  R : Rendering
  nx : NetworkX
  py : PyLib Json
  maxBatch : ℤ
  maxBytes : ℤ
  backend : Str
  message : PyErr → Str

inductive Route where
  | health
  | ready
  | verify
  | postEvent (now : ClockText) (stamp : Stamp) (body : IngestBody)
  | postOpenlineage (now : ClockText) (ids : ℕ → Str) (event : RunEvent) (idempotencyKey : Option HeaderValue)
  | postOpenlineageBatch (now : ClockText) (ids : ℕ → Str) (events : List RunEvent)
      (idempotencyKey : Option HeaderValue)
  | demoRun (stamp : DemoStamp)

structure Request where
  contentLength : Option HeaderValue
  route : Route

inductive Response where
  | health (status : Str) (integrity : Bool) (acknowledgedWrites : ℕ) (backend : Str)
  | ready (acknowledgedWrites : ℕ) (backend : Str)
  | verify (valid : Bool)
  | event (answer : EventAnswer)
  | openlineage (result : IngestResult)
  | batch (answer : BatchAnswer)
  /-- without the impact where its loop goes round more often than the stamp says -/
  | demo (runId : Str) (openlineage : IngestResult) (impact : Option FieldImpact) (integrity : Bool)
      (acknowledgedWrites : ℕ)

namespace App
variable (app : App)

def health : Handler Response := do
  let ok ← service .verify >>= uncaught
  service (.setIntegrityOk ok)
  let gauge ← service .countAcknowledged >>= uncaught
  service (.setAcknowledgedWrites gauge)
  let count ← service .countAcknowledged >>= uncaught
  return .health (lit (if ok then "ok" else "degraded")) ok count app.backend

def ready : Handler Response := do
  let count ← service .countAcknowledged
  match count with
  | .error e => .raise (.http 503 (lit "not_ready") (app.message e))
  | .ok count =>
    let ok ← service .verify
    match ok with
    | .error e => .raise (.http 503 (lit "not_ready") (app.message e))
    | .ok false => .raise (.http 503 (lit "integrity_failed") (lit "ledger integrity check failed"))
    | .ok true => return .ready count app.backend

def verify : Handler Response := do
  let ok ← service .verify >>= uncaught
  return .verify ok

def postEvent (now : ClockText) (stamp : Stamp) (body : IngestBody) : Handler Response := do
  let event := body.event stamp
  let _ ← (persistEvent now event body.idempotencyKey).handled
  service .incIngested
  let ok ← service .verify >>= uncaught
  return .event ⟨event.eventId, ok⟩

/-- One event in the two counters. -/
def count (result : IngestResult) : Handler Unit :=
  if result.duplicate then service .incDuplicate else service .incIngested

def postOpenlineage (now : ClockText) (ids : ℕ → Str) (event : RunEvent)
    (idempotencyKey : Option HeaderValue) : Handler Response := do
  let result ← (ingest app.R now ids event (idempotencyKey.map latin1)).handled
  count result
  return .openlineage result

def postOpenlineageBatch (now : ClockText) (ids : ℕ → Str) (events : List RunEvent)
    (idempotencyKey : Option HeaderValue) : Handler Response :=
  if app.maxBatch < events.length then .raise (batchTooLarge events.length app.maxBatch)
  else if events.isEmpty then do
    let ok ← service .verify >>= uncaught
    return .batch ⟨[], 0, ok⟩
  else do
    let results ←
      (ingestBatch app.R now ids events (headerKeys events.length (idempotencyKey.map latin1))).handled
    results.forM count
    let ok ← service .verify >>= uncaught
    return .batch ⟨results, results.length, ok⟩

/-- `run_demo_pipeline` -/
def demoRun (x : DemoStamp) : Handler Response := do
  let _ ← (ingest app.R x.startClock (fun _ => x.startId) x.start (some (x.runId ++ lit ":START"))).handled
  let result ←
    (ingest app.R x.completeClock (fun _ => x.completeId) x.complete (some (x.runId ++ lit ":COMPLETE"))).handled
  let _ ← (persistEvent x.legacyClock x.legacyEvent (some (lit "legacy:" ++ x.runId))).handled
  let impact ← fieldImpact app.nx x.rounds (lit "warehouse.raw_orders") (lit "amount")
  let ok ← service .verify >>= uncaught
  let count ← service .countAcknowledged >>= uncaught
  return .demo x.runId result impact ok count

def handler : Route → Handler Response
  | .health => app.health
  | .ready => app.ready
  | .verify => verify
  | .postEvent now stamp body => postEvent now stamp body
  | .postOpenlineage now ids event idempotencyKey => app.postOpenlineage now ids event idempotencyKey
  | .postOpenlineageBatch now ids events idempotencyKey =>
    app.postOpenlineageBatch now ids events idempotencyKey
  | .demoRun stamp => app.demoRun stamp

/-- The middleware `limit_request_size`, and the handler behind it. -/
def respond (request : Request) : Handler Response :=
  match request.contentLength.map fun header => intOf (latin1 header) with
  | some (.ok n) =>
    if app.maxBytes < n then
      .raise (.http 413 (lit "payload_too_large") (lit "request exceeds " ++ intText app.maxBytes ++ lit " bytes"))
    else app.handler request.route
  | _ => app.handler request.route

end App

/-! ## Calls of the storage, as the handlers make them -/

/-- The call that takes the lock; an empty batch returns before. -/
def StorageCall.locked : StorageCall Json → Option (WriterCall Json)
  | .acknowledgeWrite now item => some (.ledger (.acknowledgeWritesBatch now [item]))
  | .acknowledgeWritesBatch now items =>
    if items.isEmpty then none else some (.ledger (.acknowledgeWritesBatch now items))
  | .addDatasetEdge src dst transformId eventTime schemaVersion payload =>
    some (.addDatasetEdge src dst transformId eventTime schemaVersion payload)
  | .recordFieldMapping runId outputDataset inputDataset fieldMap =>
    some (.recordFieldMapping runId outputDataset inputDataset fieldMap)
  | .storeRunEvent runId eventType payload => some (.storeRunEvent runId eventType payload)

/-- What the handler gets of it; `acknowledge_write` is the first result of a batch of one. -/
def StorageCall.reply : (s : StorageCall Json) → Outcome → Except PyErr (StorageReply s)
  | .acknowledgeWrite _ _, .acks (result :: _) => .ok result
  | .acknowledgeWritesBatch _ _, .acks results => .ok results
  | .addDatasetEdge .., .done => .ok ()
  | .recordFieldMapping .., .done => .ok ()
  | .storeRunEvent .., .done => .ok ()
  | _, .raised e => .error e
  -- no call comes to any other outcome
  | _, _ => .error .indexError

/-- `verify_integrity`, `count_acknowledged`, `field_impact` and the metrics take no lock. -/
def ServiceCall.locked : ServiceCall → Option (WriterCall Json)
  | .storage s => s.locked
  | _ => none

/-! ## The process and its database -/

/-- What is noted of a call: an item that was acknowledged, and what was counted. -/
inductive Note where
  | acknowledged (item : BatchWriteItem Json) (result : AcknowledgedWrite)
  | ingested
  | duplicate

def notes : (s : ServiceCall) → ServiceReply s → List Note
  | .storage (.acknowledgeWrite _ item), .ok result => [.acknowledged item result]
  | .storage (.acknowledgeWritesBatch _ items), .ok results => List.zipWith .acknowledged items results
  | .incIngested, _ => [.ingested]
  | .incDuplicate, _ => [.duplicate]
  | _, _ => []

/-- The connection may be inside a call, which then holds the lock. -/
structure World where
  connection : Connection
  metrics : Metrics

abbrev World.backend (w : World) : Backend := w.connection.backend

/-- The reply to a call. One of the storage has ended as `ended` says. The others read what the
connection shows, also rows that a call in progress has not committed; they fail where the surroundings
do. -/
def ServiceCall.perform (py : PyLib Json) (fails : Bool) (ended : Outcome) :
    (s : ServiceCall) → World → ServiceReply s × World
  | .storage s, w => (s.reply ended, w)
  | .verify, w => (if fails then .error .operationalError else w.backend.verifyIntegrity py, w)
  | .countAcknowledged, w => (if fails then .error .operationalError else .ok w.backend.countAcknowledged, w)
  | .selectFields x, w => (if fails then .error .operationalError else selectMappings w.backend.db x, w)
  | .graph, w => (w.backend.graph, w)
  | .incIngested, w => ((), { w with metrics := { w.metrics with eventsIngested := w.metrics.eventsIngested + 1 } })
  | .incDuplicate, w => ((), { w with metrics := { w.metrics with eventsDuplicate := w.metrics.eventsDuplicate + 1 } })
  | .setIntegrityOk ok, w => ((), { w with metrics := { w.metrics with integrityOk := ok } })
  | .setAcknowledgedWrites n, w => ((), { w with metrics := { w.metrics with acknowledgedWrites := n } })

abbrev Served := Exchange Request Note ServiceCall ServiceReply ApiError Response

structure Server where
  world : World
  up : Bool
  /-- the request whose call holds the lock -/
  holder : Option ℕ
  /-- the requests of this process -/
  served : List Served
  /-- those of the processes before it -/
  past : List Served
  /-- how many events the recoveries have brought into the ledger -/
  recovered : ℕ

inductive ServerStep where
  /-- a new process opens the database and recovers -/
  | start (fs : List Bool)
  | accept (request : Request)
  /-- the thread of a request goes on: one statement or commit, one call without the lock, or its answer -/
  | proceed (i : ℕ) (fails : Bool)
  /-- the process ends or is killed -/
  | stop

namespace Server

def down (b : Backend) : Server := ⟨⟨⟨b, none⟩, {}⟩, false, none, [], [], 0⟩

/-- `lifespan`: where the recovery raises, the process does not come up. -/
def start (py : PyLib Json) (fs : List Bool) (s : Server) : Server :=
  match s.world.backend.reopen.recoverUncommitted py fs with
  | (.ok n, b) => ⟨⟨⟨b, none⟩, {}⟩, true, none, [], s.past ++ s.served, s.recovered + n⟩
  | (.error _, b) => ⟨⟨⟨b, none⟩, {}⟩, false, none, [], s.past ++ s.served, s.recovered⟩

def reply (app : App) (fails : Bool) (ended : Outcome) (i : ℕ) (x : Served) (s : Server) : Option Server :=
  (x.advance notes (ServiceCall.perform app.py fails ended) s.world).map fun (x, w) =>
    { s with world := w, served := s.served.set i x }

/-- The next statement of the call that holds the lock. Where the call ends, its request is replied to. -/
def execute (app : App) (fails : Bool) (i : ℕ) (x : Served) (r : Running) (s : Server) : Option Server :=
  let world := { s.world with connection := s.world.connection.advance fails r }
  match s.world.connection.outcome fails r with
  | none => some { s with world := world }
  | some ended => reply app false ended i x { s with world := world, holder := none }

/-- A request waits for the lock, takes it, or holds it. -/
def locked (app : App) (fails : Bool) (c : WriterCall Json) (i : ℕ) (x : Served) (s : Server) : Option Server :=
  match s.holder with
  | none =>
    (s.world.connection.step app.py (.start c)).map fun g =>
      { s with world := { s.world with connection := g }, holder := some i }
  | some j => if j = i then s.world.connection.running.bind fun r => s.execute app fails i x r else none

def proceed (app : App) (i : ℕ) (fails : Bool) (s : Server) : Option Server :=
  s.served[i]?.bind fun x =>
    match x.next.bind ServiceCall.locked with
    | some c => s.locked app fails c i x
    -- a call of the storage that takes no lock has an empty batch
    | none => s.reply app fails (.acks []) i x

def step (app : App) (s : Server) : ServerStep → Option Server
  | .start fs => if s.up then none else some (s.start app.py fs)
  | .accept request =>
    if s.up then some { s with served := s.served ++ [.begun app.respond request] } else none
  | .proceed i fails => if s.up then s.proceed app i fails else none
  | .stop =>
    if s.up then
      -- what was not committed is gone with the process
      some { s with world := { s.world with connection := ⟨s.world.backend.reopen, none⟩ }, up := false,
                    holder := none, served := s.served.map Exchange.stop }
    else none

def run (app : App) : Server → List ServerStep → Option Server
  | s, [] => some s
  | s, a :: steps => (s.step app a).bind fun s' => run app s' steps

/-- All requests there have been. -/
def exchanges (s : Server) : List Served := s.past ++ s.served

end Server
end LineageVault
