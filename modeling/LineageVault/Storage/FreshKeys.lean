import Mathlib.Data.List.Dedup
import LineageVault.Storage.Consistency
import LineageVault.Storage.Storable

/-! # Batches whose keys are new

A batch with new keys that goes through adds one ledger row for each of its different keys
(`acknowledgeBody_rows`).
-/

namespace LineageVault
open Foundations
set_option autoImplicit false

variable {P : Type} {py : PyLib P}

variable {now : ClockText} {items : List (BatchWriteItem P)} {v : Store}

/-- The key table and the ledger grow together, by items of the batch. -/
theorem acknowledgeBody_grows {w : Store} {rs : List AcknowledgedWrite}
    (h : (acknowledgeBody py now items).eval exec v = .ok (rs, w)) :
    ∃ keys rows, w.1.idempotency = v.1.idempotency ++ keys ∧ w.1.ledger = v.1.ledger ++ rows ∧
      rows.length = keys.length ∧
      ∀ q ∈ keys, q.idempotencyKey ∈ items.map BatchWriteItem.idempotencyKey := by
  have hend := acknowledgeLoop_keeps
    (J := fun past u _ _ => ∃ keys rows, u.1.idempotency = v.1.idempotency ++ keys ∧
      u.1.ledger = v.1.ledger ++ rows ∧ rows.length = keys.length ∧
      ∀ q ∈ keys, q.idempotencyKey ∈ past.map BatchWriteItem.idempotencyKey)
    ?known ?fresh [] ⟨[], [], by simp, by simp, rfl, by simp⟩ (acknowledgeBody_cases h)
  case known =>
    intro past item u _ _ _ hJ _
    obtain ⟨keys, rows, hk, hr, hlen, hmem⟩ := hJ
    refine ⟨keys, rows, hk, hr, hlen, ?_⟩
    intro q hq
    rw [List.map_append]
    exact List.mem_append_left _ (hmem q hq)
  case fresh =>
    intro past item u _ _ t hJ _ _ _
    obtain ⟨keys, rows, hk, hr, hlen, hmem⟩ := hJ
    refine ⟨keys ++ [⟨item.idempotencyKey, item.eventId, now.text⟩],
      rows ++ [nextRow py u item.eventId t], ?_, ?_, by simp [hlen], ?_⟩
    · rw [acknowledged_idempotency, hk, List.append_assoc]
    · rw [acknowledged_ledger, hr, List.append_assoc]
    · intro q hq
      rw [List.map_append]
      rcases List.mem_append.1 hq with hq | hq
      · exact List.mem_append_left _ (hmem q hq)
      · rw [List.mem_singleton.1 hq]
        exact List.mem_append_right _ List.mem_cons_self
  obtain ⟨_, hgrows⟩ := hend
  exact hgrows

/-- **A batch of new keys adds one ledger row for each different key.** The keys it adds are the
different keys of its items, each once. -/
theorem acknowledgeBody_rows {w : Store} {rs : List AcknowledgedWrite} (hv : JournalInv v)
    (hfresh : ∀ item ∈ items, existingEvent v.1 item.idempotencyKey = none)
    (h : (acknowledgeBody py now items).eval exec v = .ok (rs, w)) :
    w.1.ledger.length =
      v.1.ledger.length + (items.map BatchWriteItem.idempotencyKey).dedup.length := by
  obtain ⟨keys, rows, hk, hr, hlen, hmem⟩ := acknowledgeBody_grows h
  have hnodup := (journalInv_acknowledge hv h).1.keys
  rw [hk, List.map_append] at hnodup
  have hperm : (keys.map IdempotencyRow.idempotencyKey).Perm
      (items.map BatchWriteItem.idempotencyKey).dedup := by
    refine (List.perm_ext_iff_of_nodup (List.nodup_append.1 hnodup).2.1 (List.nodup_dedup _)).2
      fun k => ?_
    rw [List.mem_dedup]
    constructor
    · intro hmemk
      obtain ⟨q, hq, rfl⟩ := List.mem_map.1 hmemk
      exact hmem q hq
    · intro hmemk
      obtain ⟨item, hitem, rfl⟩ := List.mem_map.1 hmemk
      obtain ⟨r, -, hanswer⟩ := forall₂_mem (acknowledgeBody_answers h) hitem
      obtain ⟨q, hq, -⟩ := Option.map_eq_some_iff.1 hanswer.event
      have hqk : q.idempotencyKey = item.idempotencyKey := by simpa using List.find?_some hq
      have hqmem := List.mem_of_find?_eq_some hq
      rw [hk] at hqmem
      rcases List.mem_append.1 hqmem with hold | hnew
      · exact (existingEvent_eq_none.1 (hfresh item hitem) q hold hqk).elim
      · exact List.mem_map.2 ⟨q, hnew, hqk⟩
  rw [hr, List.length_append, hlen, ← hperm.length_eq, List.length_map]

end LineageVault
