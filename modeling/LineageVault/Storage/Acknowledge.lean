import LineageVault.Storage.History

/-! # What a batch answers

The batch looks its keys up once and then keeps the map itself. The map agrees with the table on the
keys to come, so every answer is what the table says of the key in the end (`acknowledgeBody_answers`),
and a batch whose keys are all known changes nothing (`acknowledgeBody_known`).
-/

namespace LineageVault
open Foundations
set_option autoImplicit false

variable {P : Type} {py : PyLib P}

/-- The event a key is acknowledged with. -/
def existingEvent (db : Db) (key : Str) : Option Str :=
  (db.idempotency.find? fun q => q.idempotencyKey = key).map IdempotencyRow.eventId

/-! ## The map and the table -/

theorem lookup_existing (rows : List IdempotencyRow) {keys : List Str} {k : Str} (hk : k ∈ keys) :
    ((rows.filter fun r => r.idempotencyKey ∈ keys).map fun r => (r.idempotencyKey, r.eventId)).lookup
        k = (rows.find? fun q => q.idempotencyKey = k).map IdempotencyRow.eventId := by
  induction rows with
  | nil => rfl
  | cons row rows ih =>
    by_cases hrow : row.idempotencyKey = k
    · rw [List.filter_cons_of_pos (by simpa [hrow] using hk), List.find?_cons_of_pos (by simpa using hrow),
        List.map_cons, hrow, List.lookup_cons_self]
      rfl
    · rw [List.find?_cons_of_neg (by simpa using hrow), ← ih]
      by_cases hmem : row.idempotencyKey ∈ keys
      · have hne : (k == row.idempotencyKey) = false := by simpa using Ne.symm hrow
        rw [List.filter_cons_of_pos (by simpa using hmem), List.map_cons, List.lookup_cons, hne]
      · rw [List.filter_cons_of_neg (by simpa using hmem)]

/-- After a fresh item, the map and the table know its key, and the other keys as before. -/
theorem existingEvent_acknowledged {v : Store} {now : ClockText} {item : BatchWriteItem P} {t : Str}
    {existing : List (Str × Str)} {k : Str} (hnone : existingEvent v.1 item.idempotencyKey = none)
    (hk : existing.lookup k = existingEvent v.1 k) :
    ((item.idempotencyKey, item.eventId) :: existing).lookup k =
      existingEvent (acknowledged py v now item t).1 k := by
  simp only [existingEvent, acknowledged_idempotency, List.find?_append]
  rw [List.lookup_cons]
  by_cases hkk : k = item.idempotencyKey
  · subst hkk
    simp only [existingEvent, Option.map_eq_none_iff] at hnone
    simp [hnone]
  · have hne : (k == item.idempotencyKey) = false := by simpa using hkk
    simp only [hne, hk, existingEvent]
    have : ([⟨item.idempotencyKey, item.eventId, now.text⟩] : List IdempotencyRow).find?
        (fun q => q.idempotencyKey = k) = none := by
      simpa using Ne.symm hkk
    rw [this, Option.or_none]

/-! ## The lookup -/

theorem acknowledgeBody_error (now : ClockText) {items : List (BatchWriteItem P)}
    (h : py.limit.accepts (items.map BatchWriteItem.idempotencyKey) = false) (v : Store) :
    ∃ e, (acknowledgeBody py now items).eval exec v = .error e :=
  let ⟨_, he⟩ := selectIdempotency_error h v
  ⟨_, Prog.eval_stmt_error exec he⟩

theorem acknowledgeBody_eval {now : ClockText} {items : List (BatchWriteItem P)} {v : Store}
    (h : py.limit.accepts (items.map BatchWriteItem.idempotencyKey) = true) :
    (acknowledgeBody py now items).eval exec v =
      (acknowledgeLoop py now items
        ((v.1.idempotency.filter fun r => r.idempotencyKey ∈ items.map BatchWriteItem.idempotencyKey).map
          fun r => (r.idempotencyKey, r.eventId)) []).eval exec v :=
  Prog.eval_stmt_ok exec (selectIdempotency_eval h v)

/-! ## Answers -/

theorem existingEvent_mono {v : Store} {now : ClockText} {item : BatchWriteItem P} {t k e : Str}
    (h : existingEvent v.1 k = some e) :
    existingEvent (acknowledged py v now item t).1 k = some e := by
  obtain ⟨q, hq, rfl⟩ := Option.map_eq_some_iff.1 h
  simp only [existingEvent, acknowledged_idempotency, List.find?_append, hq, Option.some_or,
    Option.map_some]

theorem existingEvent_fresh (py : PyLib P) (now : ClockText) {v : Store} {item : BatchWriteItem P} {t : Str}
    (h : ∀ q ∈ v.1.idempotency, q.idempotencyKey ≠ item.idempotencyKey) :
    existingEvent (acknowledged py v now item t).1 item.idempotencyKey = some item.eventId := by
  have hnone : v.1.idempotency.find? (fun q => q.idempotencyKey = item.idempotencyKey) = none := by
    simpa using h
  simp [existingEvent, List.find?_append, hnone]

/-- A result is for its item, and its event is the one of the key in the table. -/
structure Answers (db : Db) (item : BatchWriteItem P) (r : AcknowledgedWrite) : Prop where
  key : r.idempotencyKey = item.idempotencyKey
  acknowledged : r.acknowledged = true
  event : existingEvent db item.idempotencyKey = some r.eventId

theorem forall₂_mem {α β : Type} {R : α → β → Prop} {l : List α} {l' : List β} (h : List.Forall₂ R l l')
    {a : α} (ha : a ∈ l) : ∃ b ∈ l', R a b := by
  induction h with
  | nil => cases ha
  | cons hab _ ih =>
    rcases List.mem_cons.1 ha with rfl | ha
    · exact ⟨_, List.mem_cons_self, hab⟩
    · obtain ⟨b, hb, hr⟩ := ih ha
      exact ⟨b, List.mem_cons_of_mem _ hb, hr⟩

theorem lookup_some {rows : List IdempotencyRow} {keys : List Str} {k e : Str}
    (h : ((rows.filter fun r => r.idempotencyKey ∈ keys).map
      fun r => (r.idempotencyKey, r.eventId)).lookup k = some e) :
    (rows.find? fun q => q.idempotencyKey = k).map IdempotencyRow.eventId = some e := by
  obtain ⟨l₁, l₂, hl, -⟩ := List.lookup_eq_some_iff.1 h
  have hmem : (k, e) ∈ l₁ ++ (k, e) :: l₂ := by simp
  rw [← hl] at hmem
  obtain ⟨q, hq, he⟩ := List.mem_map.1 hmem
  cases he
  have hk : q.idempotencyKey ∈ keys := by simpa using (List.mem_filter.1 hq).2
  rw [← lookup_existing rows hk]
  exact h

theorem acknowledgeBody_answers {now : ClockText} {items : List (BatchWriteItem P)} {v w : Store}
    {rs : List AcknowledgedWrite} (h : (acknowledgeBody py now items).eval exec v = .ok (rs, w)) :
    List.Forall₂ (Answers w.1) items rs := by
  have hend := acknowledgeLoop_keeps
    (J := fun past u existing rs => List.Forall₂ (Answers u.1) past rs ∧
      ∀ k e, existing.lookup k = some e → existingEvent u.1 k = some e)
    ?known ?fresh [] ⟨.nil, fun k e hk => lookup_some hk⟩ (acknowledgeBody_cases h)
  case known =>
    intro past item u existing rs e hJ hl
    obtain ⟨hall, hex⟩ := hJ
    have hanswer : Answers u.1 item ⟨e, item.idempotencyKey, true, true⟩ := ⟨rfl, rfl, hex _ _ hl⟩
    exact ⟨List.rel_append hall (.cons hanswer .nil), hex⟩
  case fresh =>
    intro past item u existing rs t hJ hl hp ha
    obtain ⟨hall, hex⟩ := hJ
    have hfresh := existingEvent_fresh py now (t := t) fun q hq => (ha.unkeyed q hq).1
    have hold : List.Forall₂ (Answers (acknowledged py u now item t).1) past rs :=
      hall.imp fun _ _ hr => ⟨hr.key, hr.acknowledged, existingEvent_mono hr.event⟩
    refine ⟨List.rel_append hold (.cons ⟨rfl, rfl, hfresh⟩ .nil), ?_⟩
    intro k e hk
    rw [List.lookup_cons] at hk
    split at hk
    · next hkk =>
      cases hk
      rw [beq_iff_eq.1 hkk]
      exact hfresh
    · exact existingEvent_mono (hex k e hk)
  obtain ⟨_, hall, -⟩ := hend
  exact hall

/-- The result for an item whose key is known. -/
def duplicateOf (db : Db) (item : BatchWriteItem P) : AcknowledgedWrite :=
  ⟨(existingEvent db item.idempotencyKey).getD [], item.idempotencyKey, true, true⟩

theorem acknowledgeLoop_allKnown (db : Db) {now : ClockText} {items : List (BatchWriteItem P)}
    {v : Store} {existing : List (Str × Str)} (results : List AcknowledgedWrite)
    (h : ∀ item ∈ items, existing.lookup item.idempotencyKey = existingEvent db item.idempotencyKey ∧
      existingEvent db item.idempotencyKey ≠ none) :
    (acknowledgeLoop py now items existing results).eval exec v =
      .ok (results ++ items.map (duplicateOf db), v) := by
  induction items generalizing results with
  | nil => simp [acknowledgeLoop]
  | cons item items ih =>
    obtain ⟨hl, hne⟩ := h item List.mem_cons_self
    obtain ⟨e, he⟩ := Option.ne_none_iff_exists'.1 hne
    rw [acknowledgeLoop_known py now items results (hl.trans he),
      ih _ fun i hi => h i (List.mem_cons_of_mem _ hi), List.append_assoc]
    simp [duplicateOf, he]

theorem acknowledgeBody_known {now : ClockText} {items : List (BatchWriteItem P)} {v : Store}
    (hk : py.limit.accepts (items.map BatchWriteItem.idempotencyKey) = true)
    (h : ∀ item ∈ items, existingEvent v.1 item.idempotencyKey ≠ none) :
    (acknowledgeBody py now items).eval exec v = .ok (items.map (duplicateOf v.1), v) := by
  rw [acknowledgeBody_eval hk, acknowledgeLoop_allKnown v.1 []]
  · rfl
  · exact fun item hi => ⟨lookup_existing v.1.idempotency (List.mem_map_of_mem hi), h item hi⟩

/-! ## One item -/

section Item
variable (now : ClockText) {item : BatchWriteItem P} {b : Backend}

theorem acknowledgeBody_one (hk : item.idempotencyKey.encodable = true) :
    (acknowledgeBody py now [item]).eval exec b.session.view =
      (acknowledgeLoop py now [item] ((b.db.idempotency.filter fun r =>
        r.idempotencyKey ∈ [item].map BatchWriteItem.idempotencyKey).map
          fun r => (r.idempotencyKey, r.eventId)) []).eval exec b.session.view :=
  acknowledgeBody_eval (by simp [hk])

theorem acknowledgeWrite_known (py : PyLib P) (hk : item.idempotencyKey.encodable = true) {e : Str}
    (he : existingEvent b.db item.idempotencyKey = some e) :
    b.acknowledgeWrite py [] now item = (.ok ⟨e, item.idempotencyKey, true, true⟩,
      { b with session := ⟨b.session.view, b.session.view⟩ }) := by
  refine acknowledgeWrite_ok ?_
  rw [acknowledgeBody_one now hk, acknowledgeLoop, lookup_existing b.db.idempotency (by simp),
    ← existingEvent, he]
  rfl

theorem acknowledgeBody_single (hk : item.idempotencyKey.encodable = true)
    (he : existingEvent b.db item.idempotencyKey = none) {t : Str}
    (hp : payloadJson py item.payload = .ok t) (ha : Admits b.session.view item t) :
    (acknowledgeBody py now [item]).eval exec b.session.view =
      .ok ([⟨item.eventId, item.idempotencyKey, true, false⟩],
        acknowledged py b.session.view now item t) := by
  rw [acknowledgeBody_one now hk, acknowledgeLoop, lookup_existing b.db.idempotency (by simp),
    ← existingEvent, he]
  simp only [Prog.eval_bind, acknowledgeItem_eval hp ha]
  rfl

theorem acknowledgeWrite_fresh (hk : item.idempotencyKey.encodable = true)
    (he : existingEvent b.db item.idempotencyKey = none) {t : Str}
    (hp : payloadJson py item.payload = .ok t) (ha : Admits b.session.view item t) :
    b.acknowledgeWrite py [] now item = (.ok ⟨item.eventId, item.idempotencyKey, true, false⟩,
      { b with session := ⟨acknowledged py b.session.view now item t,
        acknowledged py b.session.view now item t⟩ }) :=
  acknowledgeWrite_ok (acknowledgeBody_single now hk he hp ha)

theorem acknowledgeWrite_refused (py : PyLib P) (hk : item.idempotencyKey.encodable = true)
    (he : existingEvent b.db item.idempotencyKey = none)
    (hno : ∀ t, payloadJson py item.payload = .ok t → ¬ Admits b.session.view item t) :
    ∃ e, b.acknowledgeWrite py [] now item = (.error e, { b with session := b.session.rollback }) := by
  rcases acknowledgeItem_cases py now item b.session.view with ⟨t, hp, ha, -⟩ | ⟨-, e, herr⟩
  · exact (hno t hp ha).elim
  · refine ⟨e, acknowledgeWrite_error ?_⟩
    rw [acknowledgeBody_one now hk, acknowledgeLoop, lookup_existing b.db.idempotency (by simp),
      ← existingEvent, he]
    simp only [Prog.eval_bind, herr]

theorem acknowledgeWrite_unbindable (py : PyLib P) (hk : item.idempotencyKey.encodable = false)
    (b : Backend) :
    ∃ e, b.acknowledgeWrite py [] now item = (.error e, { b with session := b.session.rollback }) :=
  let ⟨e, he⟩ := acknowledgeBody_error now (by simp [hk]) b.session.view
  ⟨e, acknowledgeWrite_error he⟩

end Item

end LineageVault
