import LineageVault.Api.Service
import LineageVault.OpenLineage.Recorded

/-! # What the handlers answer

`Accounts` ties an answer to what was acknowledged and counted for its request. `yields_respond`: the
handler of every request answers so, whatever happens to its calls, provided the ledger verifies whenever
it is asked and a batch has a result for each item. `fieldImpact_alone`: the SELECTs that a demo makes one by
one find what `Backend.fieldImpact` does, if nothing comes between them.
-/

namespace LineageVault
open Foundations
set_option autoImplicit false

/-- What every reply of the engine is like. -/
def Expected : (s : ServiceCall) → ServiceReply s → Prop
  | .storage (.acknowledgeWritesBatch _ items), .ok results => results.length = items.length
  | .verify, .ok ok => ok = true
  | _, _ => True

def counted (duplicate : Bool) : Note := if duplicate then .duplicate else .ingested

/-- The counters and the acknowledgements behind an answer. A legacy event is counted as ingested even
when it is a duplicate, and answered with the id the server gave it. -/
inductive Accounts : List Note → Response → Prop where
  | health (count : ℕ) (backend : Str) : Accounts [] (.health (lit "ok") true count backend)
  | ready (count : ℕ) (backend : Str) : Accounts [] (.ready count backend)
  | verify : Accounts [] (.verify true)
  | event (item : BatchWriteItem Json) (ack : AcknowledgedWrite) :
      Accounts [.acknowledged item ack, .ingested] (.event ⟨item.eventId, true⟩)
  | openlineage (item : BatchWriteItem Json) (ack : AcknowledgedWrite) (result : IngestResult)
      (id : result.eventId = ack.eventId) (duplicate : result.duplicate = ack.duplicate) :
      Accounts [.acknowledged item ack, counted result.duplicate] (.openlineage result)
  | batch (items : List (BatchWriteItem Json)) (acks : List AcknowledgedWrite) (results : List IngestResult)
      (each : acks.length = items.length) (ids : results.map IngestResult.eventId = acks.map AcknowledgedWrite.eventId)
      (duplicates : results.map IngestResult.duplicate = acks.map AcknowledgedWrite.duplicate) :
      Accounts (List.zipWith .acknowledged items acks ++ results.map fun r => counted r.duplicate)
        (.batch ⟨results, results.length, true⟩)
  | demo (start complete legacy : BatchWriteItem Json × AcknowledgedWrite) (runId : Str) (result : IngestResult)
      (impact : Option FieldImpact) (count : ℕ) (id : result.eventId = complete.2.eventId)
      (duplicate : result.duplicate = complete.2.duplicate) :
      Accounts ([start, complete, legacy].map fun w => .acknowledged w.1 w.2) (.demo runId result impact true count)

/-- `/ready` never finds the ledger broken. -/
def Tolerable : ApiError → Prop
  | .http _ error _ => error ≠ lit "integrity_failed"
  | .raised _ => True

abbrev Handler.Gives {α : Type} (post : List Note → α → Prop) (seen : List Note) (p : Handler α) : Prop :=
  p.Yields Expected notes post Tolerable seen

/-! ## Pieces of the handlers -/

section Pieces
variable {α β : Type} {post : List Note → α → Prop} {seen : List Note}

/-- A verification whose result the handler goes on with. -/
theorem gives_verify {f : Bool → Handler α} (h : Handler.Gives post seen (f true)) :
    Handler.Gives post seen (service .verify >>= uncaught >>= f) := by
  intro x hx
  rw [show notes .verify x = [] from rfl, List.append_nil]
  cases x with
  | error e => trivial
  | ok ok =>
    obtain rfl : ok = true := hx
    exact h

theorem gives_countAcknowledged {f : ℕ → Handler α} (h : ∀ n, Handler.Gives post seen (f n)) :
    Handler.Gives post seen (service .countAcknowledged >>= uncaught >>= f) := by
  intro x _
  rw [show notes .countAcknowledged x = [] from rfl, List.append_nil]
  cases x with
  | error e => trivial
  | ok n => exact h n

theorem handled_stmt (s : StorageCall Json) (k : StorageReply s → Client Json α) :
    Client.handled (.stmt s k) = .stmt (.storage s) fun
      | .ok r => (k r).handled
      | .error e => .raise (.raised e) :=
  (Client.handled.eq_def _).trans rfl

theorem handled_bind (p : Client Json α) (f : α → Client Json β) :
    (p >>= f).handled = p.handled >>= fun a => (f a).handled := by
  induction p with
  | ret a => rfl
  | raise e => rfl
  | stmt s k ih =>
    rw [Prog.stmt_bind, handled_stmt, handled_stmt, Prog.stmt_bind]
    refine congrArg (Prog.stmt (ServiceCall.storage s)) (funext fun x => ?_)
    cases x with
    | error e => rfl
    | ok r => exact ih r

theorem handled_ofExcept (x : Except PyErr α) : Client.handled (Prog.ofExcept x) = uncaught x := by
  cases x <;> rfl

/-- The storage acknowledges nothing in this call. -/
def StorageCall.silent : StorageCall Json → Prop
  | .acknowledgeWrite .. => False
  | .acknowledgeWritesBatch .. => False
  | _ => True

theorem notes_silent {s : StorageCall Json} (hs : s.silent) (x : ServiceReply (.storage s)) :
    notes (.storage s) x = [] := by
  cases s with
  | acknowledgeWrite now item => exact hs.elim
  | acknowledgeWritesBatch now items => exact hs.elim
  | _ => cases x <;> rfl

/-- A program of the engine that acknowledges nothing, by the calls it issues. -/
theorem gives_issues {p : Client Json α} {good : α → Prop} {calls : List (StorageCall Json)}
    (hp : p.Issues good calls) (hcalls : ∀ s ∈ calls, s.silent) :
    Handler.Gives (fun seen' a => seen' = seen ∧ good a) seen p.handled := by
  induction p generalizing calls with
  | ret a =>
    cases calls with
    | nil => exact ⟨rfl, hp⟩
    | cons s calls => exact hp.elim
  | raise e => trivial
  | stmt s k ih =>
    cases calls with
    | nil => exact hp.elim
    | cons s' calls =>
      obtain ⟨rfl, hk⟩ := hp
      rw [handled_stmt]
      intro x _
      rw [notes_silent (hcalls _ List.mem_cons_self), List.append_nil]
      cases x with
      | error e => trivial
      | ok r => exact ih r (hk r) fun s hs => hcalls s (List.mem_cons_of_mem _ hs)

end Pieces

/-! ## The ingestor -/

theorem silent_lineageCalls (R : Rendering) (event : RunEvent) : ∀ s ∈ event.lineageCalls R, s.silent := by
  intro s hs
  unfold RunEvent.lineageCalls at hs
  split at hs
  · cases hs
  · rcases List.mem_append.1 hs with hs | hs
    · obtain ⟨outDs, -, hs⟩ := List.mem_flatMap.1 hs
      obtain ⟨inDs, -, hs⟩ := List.mem_flatMap.1 hs
      rw [RunEvent.pairCalls, List.mem_cons] at hs
      rcases hs with rfl | hs
      · trivial
      · split at hs
        · cases hs
        · rw [List.mem_singleton.1 hs]
          trivial
    · obtain ⟨m, -, rfl⟩ := List.mem_map.1 hs
      trivial

theorem silent_recordedCalls (R : Rendering) (events : List RunEvent) (results : List AcknowledgedWrite) :
    ∀ s ∈ recordedCalls R events results, s.silent := by
  intro s hs
  obtain ⟨x, -, hs⟩ := List.mem_flatMap.1 hs
  split at hs
  · cases hs
  · rw [RunEvent.calls, List.mem_cons] at hs
    rcases hs with rfl | hs
    · trivial
    · split at hs
      · exact silent_lineageCalls R x.1 s hs
      · cases hs

/-- A batch of the ingestor: one result for each event, each as the storage has acknowledged it. -/
structure AckedBatch (n : ℕ) (seen : List Note) (results : List IngestResult) : Prop where
  acked : ∃ (items : List (BatchWriteItem Json)) (acks : List AcknowledgedWrite),
    items.length = n ∧ acks.length = n ∧ seen = List.zipWith .acknowledged items acks ∧
      results.map IngestResult.eventId = acks.map AcknowledgedWrite.eventId ∧
      results.map IngestResult.duplicate = acks.map AcknowledgedWrite.duplicate

theorem map_zipWith_right {α β γ δ : Type} {f : α → β → γ} {g : γ → δ} {h : β → δ}
    (hgh : ∀ a b, g (f a b) = h b) {xs : List α} {ys : List β} (hlen : ys.length = xs.length) :
    (List.zipWith f xs ys).map g = ys.map h := by
  induction xs generalizing ys with
  | nil =>
    rw [List.length_eq_zero_iff.1 hlen]
    rfl
  | cons x xs ih =>
    obtain ⟨y, ys, rfl⟩ := List.exists_cons_of_length_eq_add_one hlen
    rw [List.zipWith_cons_cons, List.map_cons, List.map_cons, hgh, ih (Nat.succ.inj hlen)]

theorem gives_ingestBatch (R : Rendering) (now : ClockText) (ids : ℕ → Str) {events : List RunEvent}
    (hne : events ≠ []) (keys : Option (List (Option Str))) :
    Handler.Gives (AckedBatch events.length) [] (ingestBatch R now ids events keys).handled := by
  rw [ingestBatch, if_neg (by simpa using hne), handled_bind, handled_ofExcept]
  cases hitems : batchItems R ids events (ingestKeys events keys) 0 with
  | error e => trivial
  | ok items =>
    have hlen := batchItems_length hitems
    change Handler.Gives _ [] (Client.handled (.stmt (.acknowledgeWritesBatch now items) (recordAll R events)))
    rw [handled_stmt]
    intro x hx
    rw [List.nil_append]
    cases x with
    | error e => trivial
    | ok acks =>
      have hacks : acks.length = items.length := hx
      refine Prog.Yields.imp ?_ (gives_issues (issues_recordAll events acks) (silent_recordedCalls R events acks))
      rintro seen results ⟨rfl, rfl, -⟩
      have heach : acks.length = events.length := hacks.trans hlen
      have hids := map_zipWith_right (f := ingestResult R) (g := IngestResult.eventId)
        (h := AcknowledgedWrite.eventId) (fun _ _ => rfl) heach
      have hduplicates := map_zipWith_right (f := ingestResult R) (g := IngestResult.duplicate)
        (h := AcknowledgedWrite.duplicate) (fun _ _ => rfl) heach
      exact ⟨items, acks, hlen, heach, rfl, hids, hduplicates⟩

theorem gives_ingest (R : Rendering) (now : ClockText) (ids : ℕ → Str) (event : RunEvent) (key : Option Str) :
    Handler.Gives (fun seen result => ∃ item ack, seen = [.acknowledged item ack] ∧
      result.eventId = ack.eventId ∧ result.duplicate = ack.duplicate) []
      (ingest R now ids event key).handled := by
  obtain ⟨keys, heq, -⟩ := ingest_eq R now ids event key
  rw [heq, handled_bind]
  refine (gives_ingestBatch R now ids (List.cons_ne_nil event []) keys).bind fun seen results h => ?_
  obtain ⟨items, acks, hitems, hacks, rfl, hids, hduplicates⟩ := h
  obtain ⟨item, rfl⟩ := List.length_eq_one_iff.1 hitems
  obtain ⟨ack, rfl⟩ := List.length_eq_one_iff.1 hacks
  rw [handled_ofExcept]
  cases results with
  | nil => cases hids
  | cons result results =>
    exact ⟨item, ack, rfl, (List.cons.inj hids).1, (List.cons.inj hduplicates).1⟩

/-! ## The handlers -/

theorem gives_count (result : IngestResult) (seen : List Note) :
    Handler.Gives (fun seen' _ => seen' = seen ++ [counted result.duplicate]) seen (App.count result) := by
  unfold App.count counted
  cases result.duplicate <;> exact fun _ _ => rfl

theorem gives_counts (results : List IngestResult) (seen : List Note) :
    Handler.Gives (fun seen' _ => seen' = seen ++ results.map fun r => counted r.duplicate) seen
      (results.forM App.count) := by
  induction results generalizing seen with
  | nil => exact (List.append_nil seen).symm
  | cons result results ih =>
    refine (gives_count result seen).bind fun seen' _ h => ?_
    subst h
    refine (ih _).imp fun seen'' _ h => ?_
    rw [h, List.append_assoc, List.map_cons, List.singleton_append]

theorem gives_persistEvent (now : ClockText) (event : LineageEvent) (key : Option Str) :
    Handler.Gives (fun seen _ => ∃ item ack, item.eventId = event.eventId ∧ seen = [.acknowledged item ack]) []
      (persistEvent now event key).handled := by
  unfold persistEvent
  simp only [storage, Prog.query_bind, handled_stmt]
  intro x _
  cases x with
  | error e => trivial
  | ok ack =>
    intro y _
    cases y with
    | error e => trivial
    | ok u => exact ⟨_, ack, rfl, rfl⟩

theorem gives_postEvent (now : ClockText) (stamp : Stamp) (body : IngestBody) :
    Handler.Gives Accounts [] (App.postEvent now stamp body) := by
  refine (gives_persistEvent now (body.event stamp) body.idempotencyKey).bind fun seen _ h => ?_
  obtain ⟨item, ack, hid, rfl⟩ := h
  intro _ _
  rw [← hid]
  exact gives_verify (.event item ack)

theorem gives_postOpenlineage (app : App) (now : ClockText) (ids : ℕ → Str) (event : RunEvent)
    (key : Option HeaderValue) : Handler.Gives Accounts [] (app.postOpenlineage now ids event key) := by
  refine (gives_ingest app.R now ids event _).bind fun seen result h => ?_
  obtain ⟨item, ack, rfl, hid, hduplicate⟩ := h
  refine (gives_count result _).bind fun seen' _ h => ?_
  subst h
  exact .openlineage item ack result hid hduplicate

theorem gives_postOpenlineageBatch (app : App) (now : ClockText) (ids : ℕ → Str) (events : List RunEvent)
    (key : Option HeaderValue) : Handler.Gives Accounts [] (app.postOpenlineageBatch now ids events key) := by
  unfold App.postOpenlineageBatch
  split
  · exact show lit "batch_too_large" ≠ lit "integrity_failed" by decide
  · split
    · exact gives_verify (.batch [] [] [] rfl rfl rfl)
    · next hne =>
      refine (gives_ingestBatch app.R now ids (by simpa using hne) _).bind fun seen results h => ?_
      obtain ⟨items, acks, hitems, hacks, rfl, hids, hduplicates⟩ := h
      refine (gives_counts results _).bind fun seen' _ h => ?_
      subst h
      exact gives_verify (.batch items acks results (hacks.trans hitems.symm) hids hduplicates)

theorem gives_impactedFields (fuel : ℕ) (frontier seen found : List (Str × Str)) (ns : List Note) :
    Handler.Gives (fun seen' _ => seen' = ns) ns (impactedFields fuel frontier seen found) := by
  induction fuel generalizing frontier seen found with
  | zero => rfl
  | succ fuel ih =>
    cases frontier with
    | nil => rfl
    | cons x frontier =>
      unfold impactedFields
      split
      · exact ih frontier seen found
      · intro rows _
        rw [show notes (.selectFields x) rows = [] from rfl, List.append_nil]
        cases rows with
        | error e => trivial
        | ok rows => exact ih (frontier ++ rows) (x :: seen) (found ++ rows)

/-- With nothing in between the loop is the search of `Backend.fieldImpact`. -/
theorem impactedFields_search {py : PyLib Json} {w : World} {fuel : ℕ} {frontier seen found ys : List (Str × Str)}
    (h : search (selectMappings w.backend.db) fuel frontier seen found = some (.ok ys)) :
    (impactedFields fuel frontier seen found).eval (fun s w => .ok (s.perform py false .done w)) w =
      .ok (some ys, w) := by
  induction fuel generalizing frontier seen found with
  | zero => cases h
  | succ fuel ih =>
    cases frontier with
    | nil =>
      cases h
      rfl
    | cons x frontier =>
      unfold impactedFields
      unfold search at h
      split at h
      · next hseen =>
        rw [if_pos (List.contains_iff_mem.2 hseen)]
        exact ih h
      · next hnew =>
        rw [if_neg fun hseen => hnew (List.contains_iff_mem.1 hseen)]
        split at h
        · next rows hrows =>
          have hreply : ServiceCall.perform py false .done (.selectFields x) w = (.ok rows, w) := by
            rw [ServiceCall.perform, hrows]
            rfl
          refine (Prog.eval_stmt_ok _ (congrArg Except.ok hreply)).trans ?_
          exact ih h
        · cases h

theorem fieldImpact_alone {py : PyLib Json} {nx : NetworkX} {w : World} {dataset field : Str} {impact : FieldImpact}
    (h : w.backend.fieldImpact nx dataset field = some (.ok impact)) :
    (fieldImpact nx ((mappingEdges w.backend.db).length + 2) dataset field).eval
      (fun s w => .ok (s.perform py false .done w)) w = .ok (some impact, w) := by
  obtain ⟨x, hsearch, hx⟩ := Option.map_eq_some_iff.1 h
  cases x with
  | error e => cases hx
  | ok ys =>
    cases hx
    rw [fieldImpact, Prog.eval_bind, impactedFields_search hsearch]
    rfl

theorem gives_demoRun (app : App) (x : DemoStamp) : Handler.Gives Accounts [] (app.demoRun x) := by
  refine (gives_ingest app.R x.startClock _ x.start _).bind fun seen _ h => ?_
  obtain ⟨start, startAck, rfl, -⟩ := h
  refine ((gives_ingest app.R x.completeClock _ x.complete _).after _).bind fun seen result h => ?_
  obtain ⟨_, rfl, complete, completeAck, rfl, hid, hduplicate⟩ := h
  refine ((gives_persistEvent x.legacyClock x.legacyEvent _).after _).bind fun seen _ h => ?_
  obtain ⟨_, rfl, legacy, legacyAck, -, rfl⟩ := h
  unfold fieldImpact
  rw [Prog.bind_assoc]
  refine (gives_impactedFields x.rounds _ [] [] _).bind fun seen found h => ?_
  subst h
  intro edges _
  refine gives_verify (gives_countAcknowledged fun count => ?_)
  exact .demo (start, startAck) (complete, completeAck) (legacy, legacyAck) x.runId result _ count hid hduplicate

theorem gives_ready (app : App) : Handler.Gives Accounts [] app.ready := by
  intro x _
  cases x with
  | error e => exact show lit "not_ready" ≠ lit "integrity_failed" by decide
  | ok count =>
    intro y hy
    cases y with
    | error e => exact show lit "not_ready" ≠ lit "integrity_failed" by decide
    | ok ok =>
      obtain rfl : ok = true := hy
      exact .ready count app.backend

theorem gives_health (app : App) : Handler.Gives Accounts [] app.health := by
  refine gives_verify fun _ _ => ?_
  refine gives_countAcknowledged fun gauge _ _ => ?_
  exact gives_countAcknowledged fun count => .health count app.backend

theorem yields_respond (app : App) (request : Request) : Handler.Gives Accounts [] (app.respond request) := by
  have hhandler : Handler.Gives Accounts [] (app.handler request.route) := by
    cases request.route with
    | health => exact gives_health app
    | ready => exact gives_ready app
    | verify => exact gives_verify .verify
    | postEvent now stamp body => exact gives_postEvent now stamp body
    | postOpenlineage now ids event key => exact gives_postOpenlineage app now ids event key
    | postOpenlineageBatch now ids events key => exact gives_postOpenlineageBatch app now ids events key
    | demoRun stamp => exact gives_demoRun app stamp
  unfold App.respond
  split
  · split
    · exact show lit "payload_too_large" ≠ lit "integrity_failed" by decide
    · exact hhandler
  · exact hhandler

end LineageVault
