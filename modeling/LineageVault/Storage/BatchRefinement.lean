import LineageVault.Storage.Acknowledge

/-! # A batch is its items one by one

The batch looks the keys up once and then keeps the map itself; the default method of
`StorageBackend` reads the table again for each item. `acknowledgeLoop_refines` walks both along the
items: the map is the table on the keys to come, and the tables agree up to the times of creation.
`refines_within` is the batch whose lookup SQLite takes; where it refuses the lookup the batch changes
nothing (`refines_refused`).
-/

namespace LineageVault
open Foundations
set_option autoImplicit false

variable {P : Type} {py : PyLib P}

/-- The tables without the times in `created_at`. -/
def timeless (v : Store) : Store :=
  ({ v.1 with idempotency := v.1.idempotency.map fun q => { q with createdAt := [] } }, v.2)

/-! ## Stores that differ in times only -/

theorem timeless_ext {v w : Store} : timeless v = timeless w ↔
    (v.1.idempotency.map fun q => (q.idempotencyKey, q.eventId)) =
        w.1.idempotency.map (fun q => (q.idempotencyKey, q.eventId)) ∧
      { v.1 with idempotency := [] } = { w.1 with idempotency := [] } ∧ v.2 = w.2 := by
  have hrows : ∀ xs ys : List IdempotencyRow,
      (xs.map fun q => { q with createdAt := [] }) = (ys.map fun q => { q with createdAt := [] }) ↔
        (xs.map fun q => (q.idempotencyKey, q.eventId)) =
          ys.map fun q => (q.idempotencyKey, q.eventId) := by
    intro xs ys
    have hinj : Function.Injective fun x : Str × Str => (⟨x.1, x.2, []⟩ : IdempotencyRow) := by
      rintro ⟨a, b⟩ ⟨c, d⟩ h
      cases h
      rfl
    rw [← (List.map_injective_iff.2 hinj).eq_iff, List.map_map, List.map_map]
    rfl
  simp only [timeless, Prod.mk.injEq, Db.mk.injEq, hrows, true_and]
  tauto

theorem admits_timeless {v w : Store} (h : timeless v = timeless w) {item : BatchWriteItem P}
    {t : Str} (ha : Admits v item t) : Admits w item t := by
  obtain ⟨hi, hdb, -⟩ := timeless_ext.1 h
  simp only [Db.mk.injEq, true_and] at hdb
  have hforall : (∀ x ∈ v.1.idempotency.map fun q => (q.idempotencyKey, q.eventId),
      x.1 ≠ item.idempotencyKey ∧ x.2 ≠ item.eventId) := List.forall_mem_map.2 ha.unkeyed
  rw [hi] at hforall
  exact ⟨ha.key, hdb.1 ▸ ha.text, List.forall_mem_map.1 hforall, hdb.1 ▸ ha.unledgered⟩

theorem timeless_acknowledged {v w : Store} (h : timeless v = timeless w) (now now' : ClockText)
    (item : BatchWriteItem P) (t : Str) :
    timeless (acknowledged py v now item t) = timeless (acknowledged py w now' item t) := by
  obtain ⟨hi, hdb, hn⟩ := timeless_ext.1 h
  simp only [Db.mk.injEq, true_and] at hdb
  obtain ⟨hl, hs, he, hf, hr⟩ := hdb
  refine timeless_ext.2 ⟨?_, ?_, ?_⟩
  · simp only [acknowledged_idempotency, List.map_append, hi]
    rfl
  · simp only [acknowledged, appended, committed, staged, keyed, nextRow, hl, hs, he, hf, hr, hn]
    rfl
  · rw [acknowledged_numbers, acknowledged_numbers, hn]

/-! ## All items -/

/-- The rest of the batch, from `v` with its map and results, and the rest of the plain calls, from
`b`, come to the same end. -/
def SameEnd (py : PyLib P) (now : ClockText) (stamped : List (ClockText × BatchWriteItem P))
    (existing : List (Str × Str)) (results : List AcknowledgedWrite) (v : Store) (b : Backend) : Prop :=
  (∃ rs w b', (acknowledgeLoop py now (stamped.map Prod.snd) existing results).eval exec v =
        .ok (results ++ rs, w) ∧
      b.defaultAcknowledgeWritesBatch py stamped = (.ok rs, b') ∧
      rs.map AcknowledgedWrite.idempotencyKey =
        (stamped.map Prod.snd).map BatchWriteItem.idempotencyKey ∧
      timeless w = timeless b'.session.view ∧
      (stamped = [] ∧ b' = b ∨ b'.session.durable = b'.session.view)) ∨
    ∃ e e' b', (acknowledgeLoop py now (stamped.map Prod.snd) existing results).eval exec v = .error e ∧
      b.defaultAcknowledgeWritesBatch py stamped = (.error e', b')

section Loop
variable {now now' : ClockText} {item : BatchWriteItem P}
  {stamped : List (ClockText × BatchWriteItem P)} {v : Store} {b : Backend}
  {existing : List (Str × Str)} {results : List AcknowledgedWrite}

/-- Both do the first item in the same way. -/
theorem SameEnd.cons {r : AcknowledgedWrite} {v₁ : Store} {b₁ : Backend}
    {existing₁ : List (Str × Str)} (h : SameEnd py now stamped existing₁ (results ++ [r]) v₁ b₁)
    (hr : r.idempotencyKey = item.idempotencyKey)
    (hloop : (acknowledgeLoop py now (item :: stamped.map Prod.snd) existing results).eval exec v =
      (acknowledgeLoop py now (stamped.map Prod.snd) existing₁ (results ++ [r])).eval exec v₁)
    (hplain : b.acknowledgeWrite py [] now' item = (.ok r, b₁))
    (hset : b₁.session.durable = b₁.session.view) :
    SameEnd py now ((now', item) :: stamped) existing results v b := by
  unfold SameEnd
  rw [List.map_cons, hloop]
  simp only [Backend.defaultAcknowledgeWritesBatch, hplain]
  rcases h with ⟨rs, w, b', hev, hdef, hkeys, htime, hend⟩ | ⟨e, e', b', hev, hdef⟩
  · refine .inl ⟨r :: rs, w, b', by simpa using hev, by rw [hdef], by simp [hr, hkeys], htime, .inr ?_⟩
    rcases hend with ⟨-, rfl⟩ | hend
    · exact hset
    · exact hend
  · exact .inr ⟨e, e', b', hev, by rw [hdef]⟩

/-- Induction on the items. -/
theorem acknowledgeLoop_refines (results : List AcknowledgedWrite) (hvb : timeless v = timeless b.session.view)
    (hex : ∀ item ∈ stamped.map Prod.snd,
      existing.lookup item.idempotencyKey = existingEvent b.db item.idempotencyKey)
    (henc : ∀ item ∈ stamped.map Prod.snd, item.idempotencyKey.encodable = true) :
    SameEnd py now stamped existing results v b := by
  induction stamped generalizing v b existing results with
  | nil => exact .inl ⟨[], v, b, by simp [acknowledgeLoop], rfl, rfl, hvb, .inl ⟨rfl, rfl⟩⟩
  | cons head stamped ih =>
    obtain ⟨now', item⟩ := head
    rw [List.map_cons, List.forall_mem_cons] at hex henc
    cases hcur : existingEvent b.db item.idempotencyKey with
    | some e =>
      have hloop := acknowledgeLoop_known py now (stamped.map Prod.snd) results (hex.1.trans hcur)
      have hplain := acknowledgeWrite_known now' py henc.1 hcur
      refine SameEnd.cons ?_ rfl (by rw [hloop]) hplain rfl
      exact ih _ hvb hex.2 henc.2
    | none =>
      have hloop := acknowledgeLoop_new py now (stamped.map Prod.snd) results (hex.1.trans hcur)
      rcases acknowledgeItem_cases py now item v with ⟨t, hp, ha, hev⟩ | ⟨hno, e, hev⟩
      · have hplain := acknowledgeWrite_fresh now' henc.1 hcur hp
          (admits_timeless hvb ha)
        refine (ih _ (timeless_acknowledged hvb now now' item t) (fun item' hitem' =>
          existingEvent_acknowledged hcur (hex.2 item' hitem')) henc.2).cons rfl ?_ hplain rfl
        rw [hloop, Prog.eval_bind, hev]
      · obtain ⟨e', hplain⟩ := acknowledgeWrite_refused now' py henc.1 hcur
          fun t hp ha => hno t hp (admits_timeless hvb.symm ha)
        refine .inr ⟨e, e', _, ?_, by rw [Backend.defaultAcknowledgeWritesBatch, hplain]⟩
        rw [List.map_cons, hloop, Prog.eval_bind, hev]

end Loop

/-- An item whose key cannot be bound makes the plain calls raise, at the latest at its turn. -/
theorem default_refuses {stamped : List (ClockText × BatchWriteItem P)}
    (h : bindable ((stamped.map Prod.snd).map BatchWriteItem.idempotencyKey) = false) (b : Backend) :
    ∃ e b', b.defaultAcknowledgeWritesBatch py stamped = (.error e, b') := by
  induction stamped generalizing b with
  | nil => cases h
  | cons head stamped ih =>
    obtain ⟨now, item⟩ := head
    rw [Backend.defaultAcknowledgeWritesBatch]
    rcases hw : b.acknowledgeWrite py [] now item with ⟨e | r, b'⟩
    · exact ⟨e, b', rfl⟩
    · cases hk : item.idempotencyKey.encodable with
      | true =>
        simp only [List.map_cons, bindable_cons, hk, Bool.true_and] at h
        obtain ⟨e, b'', hdef⟩ := ih h b'
        exact ⟨e, b'', by simp only [hdef]⟩
      | false =>
        obtain ⟨e, he⟩ := acknowledgeWrite_unbindable now py hk b
        rw [he] at hw
        cases hw

/-- The batch and its items one by one both return, with the same results in the order of the items and
the same tables up to `created_at`, or both raise, and then the batch changed nothing. -/
def RefinesDefault (py : PyLib P) (now : ClockText) (stamped : List (ClockText × BatchWriteItem P))
    (b : Backend) : Prop :=
  (∃ rs b₁ b₂, b.acknowledgeWritesBatch py [] now (stamped.map Prod.snd) = (.ok rs, b₁) ∧
      b.defaultAcknowledgeWritesBatch py stamped = (.ok rs, b₂) ∧
      rs.map AcknowledgedWrite.idempotencyKey =
        (stamped.map Prod.snd).map BatchWriteItem.idempotencyKey ∧
      timeless b₁.session.view = timeless b₂.session.view ∧
      timeless b₁.session.durable = timeless b₂.session.durable) ∨
    ∃ e e' b₁ b₂, b.acknowledgeWritesBatch py [] now (stamped.map Prod.snd) = (.error e, b₁) ∧
      b.defaultAcknowledgeWritesBatch py stamped = (.error e', b₂) ∧
      b₁.session.durable = b.session.durable ∧ b₁.session.view = b.session.durable ∧
      journal b₁.session.view = journal b.session.view

section Whole
variable {b : Backend} {stamped : List (ClockText × BatchWriteItem P)}

/-- A batch whose lookup is refused changes nothing; the default must raise as well. -/
theorem refines_refused (h : Reachable py b) (now : ClockText) (hne : stamped ≠ [])
    (hlookup : py.limit.accepts ((stamped.map Prod.snd).map BatchWriteItem.idempotencyKey) = false) :
    RefinesDefault py now stamped b ↔
      ∃ e b', b.defaultAcknowledgeWritesBatch py stamped = (.error e, b') := by
  obtain ⟨log, hrun⟩ := h
  obtain ⟨e, he⟩ := acknowledgeBody_error now hlookup b.session.view
  have hbatch := batch_error (by simpa using hne) he
  constructor
  · rintro (⟨rs, b₁, b₂, hok, -⟩ | ⟨e₁, e', b₁, b₂, -, hdef, -⟩)
    · rw [hbatch] at hok
      cases hok
    · exact ⟨e', b₂, hdef⟩
  · rintro ⟨e', b₂, hdef⟩
    exact .inr ⟨e, e', _, b₂, hbatch, hdef, rfl, rfl, hrun.settled⟩

/-- **A batch within the limit refines its items one by one**, from any reachable state and for any
items. -/
theorem refines_within (h : Reachable py b) (now : ClockText)
    (hlimit : py.limit.allows stamped.length = true) : RefinesDefault py now stamped b := by
  cases stamped with
  | nil => exact .inl ⟨[], b, b, rfl, rfl, rfl, rfl, rfl⟩
  | cons head stamped =>
    cases hb : py.limit.accepts (((head :: stamped).map Prod.snd).map BatchWriteItem.idempotencyKey) with
    | false =>
      refine (refines_refused h now (by simp) hb).2 (default_refuses ?_ b)
      simpa only [VariableLimit.accepts, List.length_map, hlimit, Bool.true_and] using hb
    | true =>
      obtain ⟨log, hrun⟩ := h
      have henc : ∀ item ∈ (head :: stamped).map Prod.snd, item.idempotencyKey.encodable = true :=
        fun item hitem =>
          List.all_eq_true.1 (Bool.and_eq_true_iff.1 hb).2 _ (List.mem_map_of_mem hitem)
      rcases acknowledgeLoop_refines [] rfl
          (fun item hitem => lookup_existing b.db.idempotency (List.mem_map_of_mem hitem)) henc with
        ⟨rs, w, b₂, hev, hdef, hkeys, htime, hend⟩ | ⟨e, e', b₂, hev, hdef⟩
      · rw [← acknowledgeBody_eval hb] at hev
        refine .inl ⟨rs, _, b₂, batch_ok (by simp) hev, hdef, hkeys, htime, ?_⟩
        rcases hend with ⟨hnil, -⟩ | hend
        · cases hnil
        · rw [hend]
          exact htime
      · rw [← acknowledgeBody_eval hb] at hev
        exact .inr ⟨e, e', _, b₂, batch_error (by simp) hev, hdef, rfl, rfl, hrun.settled⟩

end Whole

end LineageVault
