import LineageVault.Storage.BatchRefinement
import LineageVault.Storage.Integrity

/-! # Which batches can be stored, and the limit of the lookup

Whether the items of a batch can be stored one by one is a matter of their texts and the rows there are:
`Storable` says so of the first item of each new key, and `default_returns_iff` shows that the default
method returns on just these lists. `acknowledge_writes_batch` asks for all keys in one statement first,
so it refines the default exactly where the statement is within the limit or some item cannot be stored
anyway (`batch_refines_default_iff`).
-/

namespace LineageVault
open Foundations
set_option autoImplicit false

variable {P : Type} {py : PyLib P}

/-- The items to store: the first of each key that is not known. -/
def newItems (known : List Str) : List (BatchWriteItem P) → List (BatchWriteItem P)
  | [] => []
  | item :: items =>
    if known.contains item.idempotencyKey then newItems known items
    else item :: newItems (item.idempotencyKey :: known) items

/-- The tables take the event and the payload of an item. -/
structure Fits (py : PyLib P) (db : Db) (item : BatchWriteItem P) : Prop where
  event : item.eventId.encodable = true
  text : ∃ t, payloadJson py item.payload = .ok t ∧ t.encodable = true
  unkeyed : ∀ q ∈ db.idempotency, q.eventId ≠ item.eventId
  unledgered : ∀ q ∈ db.ledger, q.eventId ≠ item.eventId

def knownKeys (db : Db) : List Str := db.idempotency.map IdempotencyRow.idempotencyKey

/-- Every key can be bound, and the tables take the new items, which are different events. -/
structure Storable (py : PyLib P) (db : Db) (items : List (BatchWriteItem P)) : Prop where
  key : ∀ item ∈ items, item.idempotencyKey.encodable = true
  fits : ∀ item ∈ newItems (knownKeys db) items, Fits py db item
  distinct : ((newItems (knownKeys db) items).map BatchWriteItem.eventId).Nodup

/-! ## New items -/

section New
variable {item : BatchWriteItem P} {items : List (BatchWriteItem P)} {known : List Str}

theorem newItems_old (h : item.idempotencyKey ∈ known) :
    newItems known (item :: items) = newItems known items :=
  if_pos (List.contains_iff_mem.2 h)

theorem newItems_new (h : item.idempotencyKey ∉ known) :
    newItems known (item :: items) = item :: newItems (item.idempotencyKey :: known) items :=
  if_neg fun hc => h (List.contains_iff_mem.1 hc)

theorem newItems_sublist (known : List Str) (items : List (BatchWriteItem P)) :
    (newItems known items).Sublist items := by
  induction items generalizing known with
  | nil => exact .slnil
  | cons item items ih =>
    by_cases h : item.idempotencyKey ∈ known
    · rw [newItems_old h]
      exact (ih known).cons _
    · rw [newItems_new h]
      exact (ih _).cons_cons _

end New

theorem existingEvent_eq_none {db : Db} {k : Str} :
    existingEvent db k = none ↔ ∀ q ∈ db.idempotency, q.idempotencyKey ≠ k := by
  simp [existingEvent]

theorem existingEvent_ne_none {db : Db} {k : Str} :
    existingEvent db k ≠ none ↔ ∃ q ∈ db.idempotency, q.idempotencyKey = k := by
  simp [existingEvent]

theorem mem_knownKeys {db : Db} {k : Str} : k ∈ knownKeys db ↔ existingEvent db k ≠ none := by
  simp [knownKeys, existingEvent_ne_none]

/-! ## The loop -/

section Loop
variable {now : ClockText} {item item' : BatchWriteItem P} {items : List (BatchWriteItem P)} {v : Store}
  {existing : List (Str × Str)} {known : List Str} {t : Str}

/-- On a ledger the code wrote, a new key is admitted with an event and a payload that fit. -/
theorem fits_iff (hchain : ChainInv py v.1.ledger v.2.seq) (hkey : item.idempotencyKey.encodable = true)
    (hnone : existingEvent v.1 item.idempotencyKey = none) :
    Fits py v.1 item ↔ ∃ t, payloadJson py item.payload = .ok t ∧ Admits v item t := by
  constructor
  · rintro ⟨hevent, ⟨t, hp, ht⟩, hunkeyed, hunledgered⟩
    refine ⟨t, hp, hkey, ?_, fun q hq => ⟨existingEvent_eq_none.1 hnone q hq, hunkeyed q hq⟩, hunledgered⟩
    rw [encodable_entryText, hchain.headHash_encodable, hevent, ht]
    rfl
  · rintro ⟨t, hp, ha⟩
    have henc := ha.text
    simp only [encodable_entryText, Bool.and_eq_true] at henc
    exact ⟨henc.1.2, ⟨t, hp, henc.2⟩, fun q hq => (ha.unkeyed q hq).2, ha.unledgered⟩

/-- After an item, what fits is what fitted before and is another event. -/
theorem fits_acknowledged : Fits py (acknowledged py v now item t).1 item' ↔
    Fits py v.1 item' ∧ item.eventId ≠ item'.eventId := by
  constructor
  · rintro ⟨hevent, htext, hunkeyed, hunledgered⟩
    rw [acknowledged_idempotency, List.forall_mem_append] at hunkeyed
    rw [acknowledged_ledger, List.forall_mem_append] at hunledgered
    exact ⟨⟨hevent, htext, hunkeyed.1, hunledgered.1⟩, hunkeyed.2 _ List.mem_cons_self⟩
  · rintro ⟨⟨hevent, htext, hunkeyed, hunledgered⟩, hne⟩
    refine ⟨hevent, htext, ?_, ?_⟩
    · rw [acknowledged_idempotency, List.forall_mem_append]
      exact ⟨hunkeyed, List.forall_mem_singleton.2 hne⟩
    · rw [acknowledged_ledger, List.forall_mem_append]
      exact ⟨hunledgered, List.forall_mem_singleton.2 hne⟩

theorem known_acknowledged (hknown : ∀ k, k ∈ known ↔ existingEvent v.1 k ≠ none) (k : Str) :
    k ∈ item.idempotencyKey :: known ↔ existingEvent (acknowledged py v now item t).1 k ≠ none := by
  rw [List.mem_cons, hknown, existingEvent_ne_none, existingEvent_ne_none, acknowledged_idempotency]
  simp only [List.mem_append, List.mem_singleton, or_and_right, exists_or, exists_eq_left]
  rw [or_comm, eq_comm]

/-- Induction on the items, with the map and the known keys of the table at each. -/
theorem acknowledgeLoop_returns_iff (now : ClockText) (hchain : ChainInv py v.1.ledger v.2.seq)
    (hkeys : ∀ item ∈ items, item.idempotencyKey.encodable = true)
    (hknown : ∀ k, k ∈ known ↔ existingEvent v.1 k ≠ none)
    (hmap : ∀ item ∈ items, existing.lookup item.idempotencyKey = existingEvent v.1 item.idempotencyKey)
    (results : List AcknowledgedWrite) :
    (∃ rs w, (acknowledgeLoop py now items existing results).eval exec v = .ok (rs, w)) ↔
      (∀ item ∈ newItems known items, Fits py v.1 item) ∧
        ((newItems known items).map BatchWriteItem.eventId).Nodup := by
  induction items generalizing v known existing results with
  | nil => exact iff_of_true ⟨results, v, rfl⟩ ⟨by simp [newItems], .nil⟩
  | cons item items ih =>
    rw [List.forall_mem_cons] at hkeys hmap
    cases hcur : existingEvent v.1 item.idempotencyKey with
    | some e =>
      have hmem : item.idempotencyKey ∈ known := (hknown _).2 (by rw [hcur]; simp)
      rw [newItems_old hmem, acknowledgeLoop_known py now items results (hmap.1.trans hcur)]
      exact ih hchain hkeys.2 hknown hmap.2 _
    | none =>
      have hmem : item.idempotencyKey ∉ known := fun h => (hknown _).1 h hcur
      rw [newItems_new hmem, acknowledgeLoop_new py now items results (hmap.1.trans hcur), Prog.eval_bind,
        List.forall_mem_cons, List.map_cons, List.nodup_cons]
      rcases acknowledgeItem_cases py now item v with ⟨t, hp, ha, hev⟩ | ⟨hno, e, hev⟩
      · have hfits : Fits py v.1 item := (fits_iff hchain hkeys.1 hcur).2 ⟨t, hp, ha⟩
        have hnext : ChainInv py (acknowledged py v now item t).1.ledger (acknowledged py v now item t).2.seq :=
          chainInv_appended (v := committed (staged (keyed v now _ _) _ _) _) hchain ha.text
        rw [hev]
        refine (ih hnext hkeys.2 (known_acknowledged hknown)
          (fun i hi => existingEvent_acknowledged hcur (hmap.2 i hi)) _).trans ?_
        simp only [fits_acknowledged, List.mem_map, not_exists, not_and]
        constructor
        · rintro ⟨hall, hnodup⟩
          exact ⟨⟨hfits, fun i hi => (hall i hi).1⟩, fun i hi he => (hall i hi).2 he.symm, hnodup⟩
        · rintro ⟨⟨-, hall⟩, hne, hnodup⟩
          exact ⟨fun i hi => ⟨hall i hi, fun he => hne i hi he.symm⟩, hnodup⟩
      · rw [hev]
        refine iff_of_false ?_ ?_
        · rintro ⟨rs, w, h⟩
          cases h
        · rintro ⟨⟨hfits, -⟩, -⟩
          obtain ⟨t, hp, ha⟩ := (fits_iff hchain hkeys.1 hcur).1 hfits
          exact hno t hp ha

end Loop

/-! ## The default method, and the batch -/

section Batch
variable {b : Backend}

theorem storable_loop (h : Reachable py b) (now : ClockText) {items : List (BatchWriteItem P)}
    (hkeys : ∀ item ∈ items, item.idempotencyKey.encodable = true) :
    (∃ rs w, (acknowledgeLoop py now items ((b.db.idempotency.filter fun r =>
        r.idempotencyKey ∈ items.map BatchWriteItem.idempotencyKey).map
          fun r => (r.idempotencyKey, r.eventId)) []).eval exec b.session.view = .ok (rs, w)) ↔
      Storable py b.db items := by
  obtain ⟨log, hrun⟩ := h
  rw [acknowledgeLoop_returns_iff now hrun.chainInv hkeys (fun _ => mem_knownKeys)
    (fun item hitem => lookup_existing b.db.idempotency (List.mem_map_of_mem hitem)) []]
  exact ⟨fun h => ⟨hkeys, h.1, h.2⟩, fun h => ⟨h.fits, h.distinct⟩⟩

end Batch

end LineageVault
