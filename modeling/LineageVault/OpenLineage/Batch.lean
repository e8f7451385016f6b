import LineageVault.OpenLineage.Ingest
import LineageVault.Storage.Acknowledge

/-! # What `ingest_batch` does

One call acknowledges the batch; it raises and the batch is gone, or the rest is a client that only
records lineage (`ingestBatch_cases`). On a store that knows the keys nothing is recorded
(`ingestBatch_known`).
-/

namespace LineageVault
open Foundations
set_option autoImplicit false

variable {R : Rendering} {py : PyLib Json}

/-! ## Keys -/

theorem eventType_text_inj {s t : EventType} (h : s.text = t.text) : s = t := by
  cases s <;> cases t <;> first | rfl | (revert h; decide)

theorem ingestKeys_length {events : List RunEvent} {keys : List (Option Str)}
    (hlen : keys.length = events.length) : (ingestKeys events (some keys)).length = events.length := by
  cases keys with
  | nil => exact List.length_replicate
  | cons key keys => exact hlen

/-- An event type has no colon, so a derived key can be taken apart. -/
theorem derivedKey_inj {e e' : RunEvent} (h : e.derivedKey R = e'.derivedKey R) :
    e.runId R = e'.runId R ∧ e.eventType = e'.eventType := by
  have hcolon : ∀ t : EventType, ∀ c ∈ t.text.reverse, (c != CodePoint.scalar ':') = true := by
    intro t
    cases t <;> decide
  have hrev : ∀ x : RunEvent, (x.derivedKey R).reverse =
      x.eventType.text.reverse ++ CodePoint.scalar ':' :: (x.runId R).reverse := by
    intro x
    simp [RunEvent.derivedKey, lit]
  have htake : ∀ x : RunEvent, (x.derivedKey R).reverse.takeWhile (fun c => c != .scalar ':') =
      x.eventType.text.reverse := by
    intro x
    rw [hrev, List.takeWhile_append_of_pos (hcolon x.eventType), List.takeWhile_cons_of_neg (by simp),
      List.append_nil]
  have htype : e.eventType.text = e'.eventType.text := by
    have ht := htake e
    rw [h, htake e'] at ht
    exact (List.reverse_injective ht).symm
  refine ⟨?_, eventType_text_inj htype⟩
  rw [RunEvent.derivedKey, RunEvent.derivedKey, htype, List.append_left_inj, List.append_left_inj] at h
  exact h

theorem eventType_encodable (t : EventType) : t.text.encodable = true := by
  cases t <;> exact Str.encodable_lit _

theorem derivedKey_encodable (e : RunEvent) :
    (e.derivedKey R).encodable = (e.runId R).encodable := by
  simp only [RunEvent.derivedKey, Str.encodable_append, Str.encodable_lit, eventType_encodable,
    Bool.and_true]

/-! ## Items -/

section Items
variable {ids : ℕ → Str} {events : List RunEvent} {keys : List (Option Str)} {i : ℕ}
  {items : List (BatchWriteItem Json)}

theorem batchItems_total (R : Rendering) (ids : ℕ → Str) (h : keys.length = events.length) (i : ℕ) :
    ∃ items, batchItems R ids events keys i = .ok items := by
  induction events generalizing keys i with
  | nil =>
    obtain rfl := List.length_eq_zero_iff.1 h
    exact ⟨[], rfl⟩
  | cons event events ih =>
    obtain ⟨key, keys, rfl⟩ := List.exists_cons_of_length_eq_add_one h
    obtain ⟨items, hitems⟩ := ih (Nat.succ.inj h) (i + 1)
    exact ⟨_, by rw [batchItems, hitems]; rfl⟩

/-- The items, column by column. -/
theorem batchItems_spec (h : batchItems R ids events keys i = .ok items) :
    keys.length = events.length ∧
      items.map BatchWriteItem.idempotencyKey =
        List.zipWith (fun event key => event.resolvedKey R key) events keys ∧
      items.map BatchWriteItem.eventId = (List.range' i events.length).map ids := by
  induction events generalizing keys i items with
  | nil =>
    cases keys with
    | nil => cases h; exact ⟨rfl, rfl, rfl⟩
    | cons key keys => cases h
  | cons event events ih =>
    cases keys with
    | nil => cases h
    | cons key keys =>
      rw [batchItems] at h
      cases hrest : batchItems R ids events keys (i + 1) with
      | error e => rw [hrest] at h; cases h
      | ok rest =>
        rw [hrest] at h
        cases h
        obtain ⟨hlen, hkeys, hids⟩ := ih hrest
        refine ⟨congrArg (· + 1) hlen, ?_, ?_⟩
        · rw [List.map_cons, hkeys]
          rfl
        · rw [List.map_cons, hids]
          rfl

/-- The items, event by event. -/
theorem batchItems_events (h : batchItems R ids events keys i = .ok items) :
    List.Forall₂ (fun event item => item.payload = event.modelDump ∧
      ∃ key ∈ keys, item.idempotencyKey = event.resolvedKey R key) events items := by
  induction events generalizing keys i items with
  | nil =>
    cases keys with
    | nil => cases h; exact .nil
    | cons key keys => cases h
  | cons event events ih =>
    cases keys with
    | nil => cases h
    | cons key keys =>
      rw [batchItems] at h
      obtain ⟨rest, hrest, h⟩ := bind_eq_ok.1 h
      cases h
      refine .cons ⟨rfl, key, List.mem_cons_self, rfl⟩ ((ih hrest).imp ?_)
      rintro event item ⟨hpayload, k, hk, hkey⟩
      exact ⟨hpayload, k, List.mem_cons_of_mem _ hk, hkey⟩

theorem batchItems_length (h : batchItems R ids events keys i = .ok items) :
    items.length = events.length := by
  have hids := congrArg List.length (batchItems_spec h).2.2
  simpa using hids

theorem batchItems_ne_nil (hne : events ≠ []) (h : batchItems R ids events keys i = .ok items) :
    items ≠ [] := by
  rw [← List.length_pos_iff, batchItems_length h, List.length_pos_iff]
  exact hne

end Items

/-! ## Recording -/

theorem uses_recordPair (event : RunEvent) (outDs inDs : DatasetRef) :
    (recordPair R event outDs inDs).Uses StorageCall.records := by
  refine Prog.uses_query_bind trivial fun _ => ?_
  dsimp only
  split
  · split
    · exact ⟨trivial, fun _ => trivial⟩
    · trivial
  · trivial

theorem uses_recordLineage (event : RunEvent) : (recordLineage R event).Uses StorageCall.records := by
  refine Prog.uses_ofExcept_bind fun inputs => Prog.uses_ofExcept_bind fun outputs => ?_
  split
  · trivial
  · refine Prog.Uses.bind ?_ fun _ => Prog.uses_ofExcept_bind fun mappings => ?_
    · exact Prog.uses_forM fun outDs => Prog.uses_forM fun inDs => uses_recordPair event outDs inDs
    · exact Prog.uses_forM fun m => ⟨trivial, fun _ => trivial⟩

theorem uses_recordEvent (event : RunEvent) : (recordEvent R event).Uses StorageCall.records := by
  refine Prog.uses_query_bind trivial fun _ => ?_
  split
  · exact uses_recordLineage event
  · trivial

theorem uses_recordAll (events : List RunEvent) (results : List AcknowledgedWrite) :
    (recordAll R events results).Uses StorageCall.records := by
  induction events generalizing results with
  | nil =>
    cases results with
    | nil => trivial
    | cons result results => trivial
  | cons event events ih =>
    cases results with
    | nil => trivial
    | cons result results =>
      rw [recordAll]
      split
      · exact Prog.Uses.bind (ih results) fun _ => trivial
      · exact Prog.Uses.bind (uses_recordEvent event) fun _ => Prog.Uses.bind (ih results) fun _ => trivial

/-- Nothing is recorded for duplicates. -/
theorem recordAll_duplicates {events : List RunEvent} {results : List AcknowledgedWrite}
    (hlen : events.length = results.length) (h : ∀ r ∈ results, r.duplicate = true) :
    recordAll R events results = .ret (List.zipWith (ingestResult R) events results) := by
  induction events generalizing results with
  | nil =>
    obtain rfl := List.length_eq_zero_iff.1 hlen.symm
    rfl
  | cons event events ih =>
    obtain ⟨result, results, rfl⟩ := List.exists_cons_of_length_eq_add_one hlen.symm
    rw [recordAll, if_pos (h result List.mem_cons_self), ih (Nat.succ.inj hlen)
      fun r hr => h r (List.mem_cons_of_mem _ hr)]
    rfl

/-! ## The batch -/

theorem ingestBatch_stmt {now : ClockText} {ids : ℕ → Str} {events : List RunEvent}
    {idempotencyKeys : Option (List (Option Str))} {items : List (BatchWriteItem Json)}
    (hne : events ≠ []) (h : batchItems R ids events (ingestKeys events idempotencyKeys) 0 = .ok items) :
    ingestBatch R now ids events idempotencyKeys =
      .stmt (.acknowledgeWritesBatch now items) fun results => recordAll R events results := by
  rw [ingestBatch, if_neg (by simpa using hne), h]
  rfl

/-- The acknowledgement raises and nothing is left of the batch, or what is left is to record it. -/
theorem ingestBatch_cases (now : ClockText) {ids : ℕ → Str} {events : List RunEvent}
    {idempotencyKeys : Option (List (Option Str))} {items : List (BatchWriteItem Json)} (hne : events ≠ [])
    (hitems : batchItems R ids events (ingestKeys events idempotencyKeys) 0 = .ok items) (b : Backend) :
    (∃ e, (acknowledgeBody py now items).eval exec b.session.view = .error e ∧
      (ingestBatch R now ids events idempotencyKeys).run py b =
        (.error e, { b with session := b.session.rollback })) ∨
    (∃ results w, (acknowledgeBody py now items).eval exec b.session.view = .ok (results, w) ∧
      (ingestBatch R now ids events idempotencyKeys).run py b =
        (recordAll R events results).run py { b with session := ⟨w, w⟩ }) := by
  have hitemsne := batchItems_ne_nil hne hitems
  rw [ingestBatch_stmt hne hitems, Client.run]
  cases h : (acknowledgeBody py now items).eval exec b.session.view with
  | error e =>
    exact .inl ⟨e, rfl, Prog.whole_stmt_error _ (batch_error hitemsne h)⟩
  | ok x =>
    exact .inr ⟨x.1, x.2, rfl, Prog.whole_stmt_ok _ (batch_ok hitemsne h)⟩

/-- Recording keeps what was acknowledged. -/
theorem recordAll_keeps (events : List RunEvent) (results : List AcknowledgedWrite) (w : Store)
    (b : Backend) :
    Keeps (journal w) ((recordAll R events results).run py { b with session := ⟨w, w⟩ }).2 :=
  Prog.whole_keeps (P := Keeps (journal w)) _ (fun _ _ hs hk => records_keeps hs [] hk)
    (uses_recordAll events results) ⟨rfl, rfl⟩

theorem accepts_of_acknowledged {now : ClockText} {items : List (BatchWriteItem Json)} {v w : Store}
    {rs : List AcknowledgedWrite} (h : (acknowledgeBody py now items).eval exec v = .ok (rs, w)) :
    py.limit.accepts (items.map BatchWriteItem.idempotencyKey) = true := by
  by_contra hb
  rw [Bool.not_eq_true] at hb
  obtain ⟨e, he⟩ := acknowledgeBody_error now hb v
  rw [h] at he
  cases he

/-- A batch of more events than the lookup takes is refused as a whole. -/
theorem ingestBatch_beyond (now : ClockText) (ids : ℕ → Str) {events : List RunEvent}
    {idempotencyKeys : Option (List (Option Str))}
    (hlen : (ingestKeys events idempotencyKeys).length = events.length)
    (hlimit : py.limit.allows events.length = false) (b : Backend) :
    ∃ e, (ingestBatch R now ids events idempotencyKeys).run py b =
      (.error e, { b with session := b.session.rollback }) := by
  have hne : events ≠ [] := by
    rintro rfl
    rw [List.length_nil, py.limit.allows_six (Nat.zero_le 6)] at hlimit
    cases hlimit
  obtain ⟨items, hitems⟩ := batchItems_total R ids hlen 0
  rcases ingestBatch_cases (R := R) now hne hitems b with ⟨e, -, hrun⟩ | ⟨results, w, h, -⟩
  · exact ⟨e, hrun⟩
  · have hallows := (Bool.and_eq_true_iff.1 (accepts_of_acknowledged h)).1
    rw [List.length_map, batchItems_length hitems, hlimit] at hallows
    cases hallows

/-- The results of a batch, made duplicates, are those of the same keys later on. -/
theorem duplicates_of_answers {db db' : Db} {items items' : List (BatchWriteItem Json)}
    {results : List AcknowledgedWrite} (h : List.Forall₂ (Answers db) items results)
    (hdb : db'.idempotency = db.idempotency)
    (hkeys : items'.map BatchWriteItem.idempotencyKey = items.map BatchWriteItem.idempotencyKey) :
    items'.map (duplicateOf db') = results.map fun r => { r with duplicate := true } := by
  induction h generalizing items' with
  | nil =>
    obtain rfl := List.map_eq_nil_iff.1 hkeys
    rfl
  | @cons item r items results hr _ ih =>
    obtain ⟨item', rest, rfl, hk, hrest⟩ := List.map_eq_cons_iff.1 hkeys
    have hevent : existingEvent db' item.idempotencyKey = some r.eventId := by
      rw [existingEvent, hdb]
      exact hr.event
    have hhead : duplicateOf db' item' = { r with duplicate := true } := by
      cases r
      obtain ⟨rfl, rfl, -⟩ := hr
      simp only [duplicateOf, hk]
      rw [hevent, Option.getD_some]
    rw [List.map_cons, List.map_cons, ih hrest, hhead]

/-- Every item is answered from the table, and nothing else happens. -/
theorem ingestBatch_answers {ids : ℕ → Str} {events : List RunEvent}
    {idempotencyKeys : Option (List (Option Str))} {items : List (BatchWriteItem Json)} {b : Backend}
    (now : ClockText) (hne : events ≠ [])
    (hitems : batchItems R ids events (ingestKeys events idempotencyKeys) 0 = .ok items)
    (hkeys : py.limit.accepts (items.map BatchWriteItem.idempotencyKey) = true)
    (hknown : ∀ item ∈ items, existingEvent b.db item.idempotencyKey ≠ none) :
    (ingestBatch R now ids events idempotencyKeys).run py b =
      (.ok (List.zipWith (ingestResult R) events (items.map (duplicateOf b.db))),
        { b with session := ⟨b.session.view, b.session.view⟩ }) := by
  have hlength : events.length = (items.map (duplicateOf b.db)).length := by
    rw [List.length_map, batchItems_length hitems]
  have hall : ∀ r ∈ items.map (duplicateOf b.db), r.duplicate = true := by
    intro r hr
    obtain ⟨item, -, rfl⟩ := List.mem_map.1 hr
    rfl
  have hcall : StorageCall.perform py [] (.acknowledgeWritesBatch now items) b =
      (.ok (items.map (duplicateOf b.db)), { b with session := ⟨b.session.view, b.session.view⟩ }) :=
    batch_ok (batchItems_ne_nil hne hitems) (acknowledgeBody_known hkeys hknown)
  rw [ingestBatch_stmt hne hitems, Client.run, Prog.whole_stmt_ok _ hcall,
    recordAll_duplicates hlength hall, Prog.whole_ret]

/-- Ingesting again on a store that has the keys of the batch. -/
theorem ingestBatch_known {now : ClockText} {ids : ℕ → Str} {events : List RunEvent}
    {idempotencyKeys : Option (List (Option Str))} {items : List (BatchWriteItem Json)} {v w : Store}
    {results : List AcknowledgedWrite} (now' : ClockText) (ids' : ℕ → Str) (b : Backend)
    (hne : events ≠ [])
    (hitems : batchItems R ids events (ingestKeys events idempotencyKeys) 0 = .ok items)
    (h : (acknowledgeBody py now items).eval exec v = .ok (results, w))
    (hi : b.db.idempotency = w.1.idempotency) :
    (ingestBatch R now' ids' events idempotencyKeys).run py b =
      (.ok (List.zipWith (fun event r => { ingestResult R event r with duplicate := true }) events
        results), { b with session := ⟨b.session.view, b.session.view⟩ }) := by
  obtain ⟨hlen, hkeys, -⟩ := batchItems_spec hitems
  obtain ⟨items', hitems'⟩ := batchItems_total R ids' hlen 0
  have hsame := (batchItems_spec hitems').2.1.trans hkeys.symm
  have hanswers := acknowledgeBody_answers h
  have hdup := duplicates_of_answers hanswers hi hsame
  have hknown : ∀ item ∈ items', existingEvent b.db item.idempotencyKey ≠ none := by
    intro item hitem
    have hmem := List.mem_map_of_mem (f := BatchWriteItem.idempotencyKey) hitem
    rw [hsame] at hmem
    obtain ⟨old, hold, hk⟩ := List.mem_map.1 hmem
    obtain ⟨r, -, hr⟩ := forall₂_mem hanswers hold
    rw [existingEvent, hi, ← hk]
    exact Option.ne_none_iff_exists'.2 ⟨_, hr.event⟩
  have haccepts : py.limit.accepts (items'.map BatchWriteItem.idempotencyKey) = true := by
    rw [hsame]
    exact accepts_of_acknowledged h
  rw [ingestBatch_answers now' hne hitems' haccepts hknown, hdup, List.zipWith_map_right]
  rfl

/-! ## For runs on fixed inputs -/

def Rendering.fixed : Rendering := ⟨fun _ => [], fun _ => .null⟩

def table (name : Str) : Dict := [(lit "namespace", .str (lit "db")), (lit "name", .str name)]

/-- A run that has read `db.a` and written `db.b`. -/
def copyOf (runId : Str) : RunEvent where
  eventType := .complete
  eventTime := ⟨2026, 1, 2, 0, 0, 0, 0, some 0⟩
  run := [(lit "runId", .str runId)]
  job := []
  inputs := [table (lit "a")]
  outputs := [table (lit "b")]
  producer := lit "p"

end LineageVault
