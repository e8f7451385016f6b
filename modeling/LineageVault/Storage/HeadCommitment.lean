import LineageVault.Storage.ExactlyOnce
import LineageVault.Storage.Integrity

/-! # The head hash commits to the history

The text under a hash is cut by bars, and an event id may hold bars itself. It can still be read in
one way only: the digest before the first bar has 64 digits, and no text that json wrote is the tail
of another one after a bar. So a digest determines the entry, and the head the whole ledger.
-/

namespace LineageVault
open Foundations
set_option autoImplicit false

def LedgerRow.text (r : LedgerRow) : Str := entryText r.prevHash r.eventId r.payload

section Json
variable {sha256 : Str → Digest} {loads : Str → Except PyErr Json} {limit : VariableLimit}

/-- Every payload in the ledger is a text that json wrote. -/
theorem scan_payload {b : Backend} (h : Reachable (PyLib.json sha256 loads limit) b) {r : LedgerRow}
    (hr : r ∈ b.db.ledger) : scan .out r.payload = some .out := by
  obtain ⟨log, hrun⟩ := h
  obtain ⟨payload, hp⟩ := hrun.tally.1.written r hr
  rw [← Except.ok.inj hp]
  exact scan_dumps true payload

/-- Rows of two ledgers with the same text agree. -/
theorem row_of_text {b b' : Backend} (h : Reachable (PyLib.json sha256 loads limit) b)
    (h' : Reachable (PyLib.json sha256 loads limit) b') {r r' : LedgerRow} (hr : r ∈ b.db.ledger)
    (hr' : r' ∈ b'.db.ledger) (ht : r.text = r'.text) :
    r.prevHash = r'.prevHash ∧ r.eventId = r'.eventId ∧ r.payload = r'.payload := by
  obtain ⟨log, hrun⟩ := id h
  obtain ⟨log', hrun'⟩ := id h'
  have hlen := (hrun.chainInv.prevHash_length hr).trans (hrun'.chainInv.prevHash_length hr').symm
  exact entryText_inj hlen (scan_payload h hr) (scan_payload h' hr') ht

/-- **The head determines the ledger.** Two ledgers, each with any history of its own, whose heads
are equal have the same events and payload texts in the same places, if SHA-256 does not confuse
their texts and takes none of them to the genesis hash. -/
theorem ledger_of_headHash {b b' : Backend} (h : Reachable (PyLib.json sha256 loads limit) b)
    (h' : Reachable (PyLib.json sha256 loads limit) b')
    (hinj : ∀ r ∈ b.db.ledger, ∀ r' ∈ b'.db.ledger,
      (sha256 r.text).text = (sha256 r'.text).text → r.text = r'.text)
    (hgen : ∀ r ∈ b.db.ledger ++ b'.db.ledger, (sha256 r.text).text ≠ genesisHash)
    (hhead : headHash b.db.ledger = headHash b'.db.ledger) :
    (orderBySeq b.db.ledger).map (fun r => (r.eventId, r.payload)) =
      (orderBySeq b'.db.ledger).map fun r => (r.eventId, r.payload) := by
  obtain ⟨log, hrun⟩ := id h
  obtain ⟨log', hrun'⟩ := id h'
  have hc := hrun.chainInv
  have hc' := hrun'.chainInv
  have hlinks : b.db.ledger.map LedgerRow.link = b'.db.ledger.map LedgerRow.link := by
    refine HashChain.eq_of_head_eq _ hc.linked hc'.linked ?_ ?_ ?_ ?_
    · simp only [List.forall_mem_map]
      intro r hr r' hr' he
      obtain ⟨hp, hbody⟩ := row_of_text h h' hr hr' (hinj r hr r' hr' he)
      exact ⟨hp, Prod.ext hbody.1 hbody.2⟩
    · simp only [List.forall_mem_map]
      intro r hr he
      exact hgen r (List.mem_append_left _ hr) ((hc.entryHash_eq hr).symm.trans he)
    · simp only [List.forall_mem_map]
      intro r hr he
      exact hgen r (List.mem_append_right _ hr) ((hc'.entryHash_eq hr).symm.trans he)
    · rw [← hc.headHash, ← hc'.headHash, hhead]
  rw [orderBySeq_eq hc.sorted, orderBySeq_eq hc'.sorted]
  have hbodies := congrArg (List.map Link.body) hlinks
  rwa [List.map_map, List.map_map] at hbodies

/-- One ledger made by a recovery and an acknowledgement, the other by a batch; an event id with a
bar. -/
theorem ledger_of_headHash_two :
    let digit : (c : CodePoint) → (c ∈ lit "0123456789abcdef") → Digest := Digest.repeated
    let one := digit (.scalar '1') (by decide)
    let sha256 : Str → Digest := fun t =>
      if t = entryText genesisHash (lit "a|\x7b\x7d") (lit "\x7b\x7d") then one
      else if t = entryText one.text (lit "b") (lit "\x7b\x7d") then digit (.scalar '2') (by decide)
      else digit (.scalar '3') (by decide)
    let py := PyLib.json sha256 (fun _ => .ok (.obj [])) .sqlite
    let now := ClockText.fixed
    let b := (history py [] .empty [(.stagePartial (lit "a|\x7b\x7d") (.obj []), []),
      (.recoverUncommitted, []), (.acknowledgeWrite now ⟨lit "k", lit "b", .obj []⟩, [])]).2
    let b' := (history py [] .empty [(.acknowledgeWritesBatch now
      [⟨lit "k", lit "a|\x7b\x7d", .obj []⟩, ⟨lit "l", lit "b", .obj []⟩], [])]).2
    b.db.ledger.length = 2 ∧
      (orderBySeq b.db.ledger).map (fun r => (r.eventId, r.payload)) =
        (orderBySeq b'.db.ledger).map fun r => (r.eventId, r.payload) :=
  ⟨by decide, ledger_of_headHash ⟨_, Run.nil.history _⟩ ⟨_, Run.nil.history _⟩ (by decide)
    (by decide) (by decide)⟩

end Json
end LineageVault
