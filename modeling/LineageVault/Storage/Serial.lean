import LineageVault.Storage.ExactlyOnce
import LineageVault.Storage.Integrity
import LineageVault.Storage.Promise
import Mathlib.Data.List.Perm.Basic

/-! # Serial runs

`Serial log v`: the calls of `log`, one at a time on an empty database, had these outcomes and led to
`v`. A serial run is a history of one SQLite backend, so what was proved of those holds of it.

`Serial.stageAll` appends staged events; `Serial.start` uses it to build the state that an open
transaction counts on.
-/

namespace LineageVault
open Foundations
set_option autoImplicit false

variable {P : Type} {py : PyLib P}

inductive Serial (py : PyLib P) : List (LedgerCall P × Outcome) → Store → Prop where
  | nil : Serial py [] (Db.empty, Numbers.zero)
  | snoc {log : List (LedgerCall P × Outcome)} {v w : Store} {c : LedgerCall P} {o : Outcome} :
      Serial py log v → (c.prog py).eval exec v = .ok (o, w) → Serial py (log ++ [(c, o)]) w

/-! ## As a history of one backend -/

def LedgerCall.toCall : LedgerCall P → Call P
  | .stagePartial eventId payload => .stagePartial eventId payload
  | .acknowledgeWritesBatch now items => .acknowledgeWritesBatch now items
  | .recoverUncommitted => .recoverUncommitted

theorem perform_toCall {c : LedgerCall P} {o : Outcome} {b : Backend} {w : Store}
    (h : (c.prog py).eval exec b.session.view = .ok (o, w)) (hb : b.session = ⟨b.session.view, b.session.view⟩) :
    (c.toCall.perform py [] b).1 = o ∧ (c.toCall.perform py [] b).2.session = ⟨w, w⟩ := by
  cases c with
  | stagePartial eventId payload =>
    obtain ⟨t, ht, h⟩ := Prog.eval_ofExcept_bind_cases exec h
    obtain ⟨_, w', hs, h⟩ := Prog.eval_bind_cases exec h
    cases h
    simp only [LedgerCall.toCall, Call.perform, Backend.stagePartial, ht, guarded_ok hs]
    exact ⟨rfl, rfl⟩
  | acknowledgeWritesBatch now items =>
    simp only [LedgerCall.toCall, Call.perform, Backend.acknowledgeWritesBatch]
    rw [LedgerCall.prog] at h
    split at h
    · next hi =>
      cases h
      rw [if_pos hi]
      exact ⟨rfl, hb⟩
    · next hi =>
      obtain ⟨rs, w', hs, h⟩ := Prog.eval_bind_cases exec h
      cases h
      rw [if_neg hi, guarded_ok hs]
      exact ⟨rfl, rfl⟩
  | recoverUncommitted =>
    obtain ⟨m, w', hs, h⟩ := Prog.eval_bind_cases exec h
    cases h
    simp only [LedgerCall.toCall, Call.perform, Backend.recoverUncommitted, guarded_ok hs]
    exact ⟨rfl, rfl⟩

theorem Serial.run {log : List (LedgerCall P × Outcome)} {v : Store} (h : Serial py log v) :
    ∃ b, Run py (log.map fun x => (x.1.toCall, x.2)) b ∧ b.session = ⟨v, v⟩ := by
  induction h with
  | nil => exact ⟨_, .nil, rfl⟩
  | @snoc log v w c o _ he ih =>
    obtain ⟨b, hrun, hb⟩ := ih
    obtain ⟨ho, hw⟩ := perform_toCall (b := b) (by rw [hb]; exact he) (by rw [hb])
    refine ⟨_, ?_, hw⟩
    rw [List.map_append, List.map_singleton, ← ho]
    exact .snoc c.toCall [] hrun

section Run
variable {log : List (LedgerCall P × Outcome)} {v : Store} (h : Serial py log v)
include h

theorem Serial.chainInv : ChainInv py v.1.ledger v.2.seq := by
  obtain ⟨b, hrun, hb⟩ := h.run
  have hc := hrun.chainInv
  rwa [Backend.db, hb] at hc

theorem Serial.journalInv : JournalInv v := by
  obtain ⟨b, hrun, hb⟩ := h.run
  have hj := hrun.journalInv
  rwa [hb] at hj

theorem Serial.sequenced : Sequenced v := ⟨h.chainInv.sorted, h.chainInv.bound⟩

theorem Serial.oncePerKey : OncePerKey (results log) := by
  obtain ⟨b, hrun, -⟩ := h.run
  obtain ⟨ht, hr⟩ := hrun.tally
  have hlog : results (log.map fun x => (x.1.toCall, x.2)) = results log := List.flatMap_map ..
  rw [← hlog, ← hr]
  exact ht.order

end Run

/-! ## Pending rows -/

theorem look_eq_some {db : Db} (hd : (stagedIds db).Nodup) {e t : Str} {c : Bool} :
    look db e = some (t, c) ↔
      ∃ r ∈ db.walStaging, r.eventId = e ∧ r.payload = t ∧ r.committed = c := by
  rw [look, Option.map_eq_some_iff]
  constructor
  · rintro ⟨r, hr, he⟩
    cases he
    exact ⟨r, List.mem_of_find?_eq_some hr, by simpa using List.find?_some hr, rfl, rfl⟩
  · rintro ⟨r, hr, rfl, rfl, rfl⟩
    refine ⟨r, ?_, rfl⟩
    cases hf : db.walStaging.find? fun q => q.eventId = r.eventId with
    | none => simpa using List.find?_eq_none.1 hf r hr
    | some q =>
      have hq : q.eventId = r.eventId := by simpa using List.find?_some hf
      rw [List.inj_on_of_nodup_map hd (List.mem_of_find?_eq_some hf) hr hq]

theorem look_ne_none {db : Db} {e : Str} : look db e ≠ none ↔ e ∈ stagedIds db := by
  rw [Ne, look_eq_none, stagedIds, List.mem_map]
  simp

theorem mem_pending {db : Db} (hd : (stagedIds db).Nodup) {e t : Str} :
    look db e = some (t, false) ↔ (e, t) ∈ pending db.walStaging := by
  rw [look_eq_some hd, pending, List.mem_map]
  constructor
  · rintro ⟨r, hr, rfl, rfl, hc⟩
    exact ⟨r, (orderById_perm _).mem_iff.2 (List.mem_filter.2 ⟨hr, by simp [hc]⟩), rfl⟩
  · rintro ⟨r, hr, he⟩
    cases he
    obtain ⟨hr, hc⟩ := List.mem_filter.1 ((orderById_perm _).mem_iff.1 hr)
    exact ⟨r, hr, rfl, rfl, by simpa using hc⟩

theorem pending_staged {v : Store} (h : JournalInv v) {e t : Str} (hnew : look v.1 e = none) :
    pending (staged v e t).1.walStaging = pending v.1.walStaging ++ [(e, t)] := by
  have hany : (v.1.walStaging.any fun q => q.eventId = e) = false := by
    simpa [look_eq_none] using hnew
  have hsorted := (journalInv_staged h e t).idSorted
  simp only [staged, hany, Bool.false_eq_true, if_false] at hsorted ⊢
  rw [pending, pending, orderById_eq (hsorted.filter _), orderById_eq (h.idSorted.filter _)]
  simp

/-! ## Staging many events -/

/-- A staging call whose text could be written and bound. -/
structure StagedCall (py : PyLib P) where
  eventId : Str
  payload : P
  text : Str
  json : payloadJson py payload = .ok text
  encodable : eventId.encodable = true ∧ text.encodable = true

namespace StagedCall

def entry (c : StagedCall py) : LedgerCall P × Outcome := (.stagePartial c.eventId c.payload, .done)

def pair (c : StagedCall py) : Str × Str := (c.eventId, c.text)

theorem eval (c : StagedCall py) (v : Store) :
    ((LedgerCall.stagePartial c.eventId c.payload).prog py).eval exec v =
      .ok (.done, staged v c.eventId c.text) := by
  simp only [LedgerCall.prog, c.json, raising, Prog.ofExcept_ok, Prog.ret_bind, stageBody, sql,
    Prog.query_bind]
  rw [Prog.eval_stmt_ok exec (exec_insertOrIgnoreStaging c.encodable.1 c.encodable.2)]
  rfl

end StagedCall

theorem results_stages (cs : List (StagedCall py)) : results (cs.map StagedCall.entry) = [] := by
  rw [results, List.flatMap_map]
  exact List.flatMap_eq_nil_iff.2 fun _ _ => rfl

theorem Serial.stage {log : List (LedgerCall P × Outcome)} {v : Store} (h : Serial py log v)
    (c : StagedCall py) : Serial py (log ++ [c.entry]) (staged v c.eventId c.text) :=
  .snoc h (c.eval v)

theorem look_staged_of_none {v : Store} {e t : Str} (h : look v.1 e = none) {e' t' : Str} {b : Bool} :
    look (staged v e t).1 e' = some (t', b) ↔
      look v.1 e' = some (t', b) ∨ (b = false ∧ (e', t') = (e, t)) := by
  rw [look_staged, Stmt.afterLook]
  by_cases he : e' = e
  · subst he
    simp [h, and_comm, eq_comm]
  · simp [he]

/-- New events in turn: they become pending in this order. -/
theorem Serial.stageAll {log : List (LedgerCall P × Outcome)} {v : Store} (h : Serial py log v)
    {cs : List (StagedCall py)} (hd : (cs.map StagedCall.eventId).Nodup)
    (hnew : ∀ c ∈ cs, look v.1 c.eventId = none) :
    ∃ x, Serial py (log ++ cs.map StagedCall.entry) x ∧ book x.1 = book v.1 ∧
      pending x.1.walStaging = pending v.1.walStaging ++ cs.map StagedCall.pair ∧
      ∀ e t b, look x.1 e = some (t, b) ↔
        look v.1 e = some (t, b) ∨ (b = false ∧ (e, t) ∈ cs.map StagedCall.pair) := by
  induction cs generalizing log v with
  | nil => exact ⟨v, by simpa using h, rfl, by simp, by simp⟩
  | cons c cs ih =>
    obtain ⟨hc, hd⟩ := List.nodup_cons.1 hd
    have hcnew := hnew c List.mem_cons_self
    obtain ⟨x, hx, hbook, hpend, hlook⟩ := ih (h.stage c) hd fun c' hc' => by
      have hne : c'.eventId ≠ c.eventId := fun he => hc (List.mem_map.2 ⟨c', hc', he⟩)
      simpa [look_staged, Stmt.afterLook, hne] using hnew c' (List.mem_cons_of_mem _ hc')
    refine ⟨x, by simpa using hx, hbook, ?_, fun e t b => ?_⟩
    · rw [hpend, pending_staged h.journalInv hcnew, List.append_assoc]
      rfl
    · rw [hlook, look_staged_of_none hcnew, List.map_cons, List.mem_cons, or_assoc, ← and_or_left]
      rfl

/-- Events that are there already change nothing. -/
theorem Serial.stageKnown {log : List (LedgerCall P × Outcome)} {v : Store} (h : Serial py log v)
    {cs : List (StagedCall py)} (hold : ∀ c ∈ cs, look v.1 c.eventId ≠ none) :
    ∃ x, Serial py (log ++ cs.map StagedCall.entry) x ∧ x.1 = v.1 := by
  induction cs generalizing log v with
  | nil => exact ⟨v, by simpa using h, rfl⟩
  | cons c cs ih =>
    have hsame : (staged v c.eventId c.text).1 = v.1 := by
      have hany : (v.1.walStaging.any fun q => q.eventId = c.eventId) = true := by
        have := look_ne_none.1 (hold c List.mem_cons_self)
        simpa [stagedIds] using this
      simp [staged, hany]
    obtain ⟨x, hx, he⟩ := ih (h.stage c) fun c' hc' => by
      rw [hsame]
      exact hold c' (List.mem_cons_of_mem _ hc')
    exact ⟨x, by simpa using hx, he.trans hsame⟩

/-! ## The state an open transaction counts on -/

/-- A list whose image is, in some order, a given one can be put in that order. -/
theorem exists_perm_map_eq {α β : Type} {f : α → β} {xs : List α} {ys : List β}
    (h : (xs.map f).Perm ys) : ∃ zs : List α, zs.Perm xs ∧ zs.map f = ys := by
  have hcomp := congrFun (congrFun (List.eq_map_comp_perm f) ys) xs
  obtain ⟨zs, hz, hp⟩ := hcomp.mpr h.symm
  exact ⟨zs, hp, hz.symm⟩

section Start
variable {left : List (StagedCall py)} {ld base : Look} {seen : Option (List (Str × Str))}

/-- The staging calls that a transaction used, in the order in which it read them, and the others. -/
theorem exists_used (hd : (left.map StagedCall.eventId).Nodup)
    (hleft : ∀ e t, ld e = some (t, false) ↔ (e, t) ∈ left.map StagedCall.pair)
    (hbase : ∀ e, base e = none ∨ base e = ld e)
    (hseen : ∀ rs ∈ seen, (rs.map Prod.fst).Nodup ∧ ∀ e t, base e = some (t, false) ↔ (e, t) ∈ rs) :
    ∃ cs rest, left.Perm (cs ++ rest) ∧ (∀ rs ∈ seen, cs.map StagedCall.pair = rs) ∧
      (∀ e t, base e = some (t, false) ↔ (e, t) ∈ cs.map StagedCall.pair) ∧
      ∀ e t, ld e = some (t, false) ∧ base e = none ↔ (e, t) ∈ rest.map StagedCall.pair := by
  let used : StagedCall py → Bool := fun c => (base c.eventId).isSome
  have hmem : ∀ c ∈ left, ld c.eventId = some (c.text, false) :=
    fun c hc => (hleft _ _).2 (List.mem_map.2 ⟨c, hc, rfl⟩)
  have hused : ∀ e t, base e = some (t, false) ↔
      (e, t) ∈ (left.filter used).map StagedCall.pair := by
    intro e t
    simp only [List.mem_map, List.mem_filter, used]
    constructor
    · intro he
      have hl := ((hbase e).resolve_left (by simp [he])).symm.trans he
      obtain ⟨c, hc, hp⟩ := List.mem_map.1 ((hleft e t).1 hl)
      cases hp
      exact ⟨c, ⟨hc, by simp [he]⟩, rfl⟩
    · rintro ⟨c, ⟨hc, hs⟩, hp⟩
      cases hp
      rw [(hbase c.eventId).resolve_left (Option.isSome_iff_ne_none.1 hs)]
      exact hmem c hc
  have hrest : ∀ e t, ld e = some (t, false) ∧ base e = none ↔
      (e, t) ∈ (left.filter fun c => !used c).map StagedCall.pair := by
    intro e t
    simp only [hleft, List.mem_map, List.mem_filter, used]
    constructor
    · rintro ⟨⟨c, hc, hp⟩, hb⟩
      cases hp
      exact ⟨c, ⟨hc, by simp [hb]⟩, rfl⟩
    · rintro ⟨c, ⟨hc, hs⟩, hp⟩
      cases hp
      exact ⟨⟨c, hc, rfl⟩, by simpa using hs⟩
  have hsplit : (left.filter used ++ left.filter fun c => !used c).Perm left :=
    List.filter_append_perm used left
  cases seen with
  | none => exact ⟨_, _, hsplit.symm, by simp, hused, hrest⟩
  | some rs =>
    obtain ⟨hrs, hmemrs⟩ := hseen rs rfl
    have hnd : ((left.filter used).map StagedCall.pair).Nodup := by
      refine List.Nodup.of_map Prod.fst ?_
      rw [List.map_map]
      exact hd.sublist ((List.filter_sublist ..).map _)
    have hperm : ((left.filter used).map StagedCall.pair).Perm rs :=
      (List.perm_ext_iff_of_nodup hnd (List.Nodup.of_map _ hrs)).2 fun x =>
        (hused x.1 x.2).symm.trans (hmemrs x.1 x.2)
    obtain ⟨cs, hcs, hmap⟩ := exists_perm_map_eq hperm
    refine ⟨cs, _, hsplit.symm.trans (hcs.symm.append_right _), ?_, fun e t => ?_, hrest⟩
    · rintro _ hrs'
      exact hmap.trans (Option.some.inj hrs')
    · rw [hused, (hcs.map _).mem_iff]

/-- The marked rows and the events that were used, staged in that order. -/
theorem Serial.start {log : List (LedgerCall P × Outcome)} {v : Store} (h : Serial py log v)
    {cs : List (StagedCall py)} (hd : (cs.map StagedCall.eventId).Nodup)
    (hv : look v.1 = ld.marked) (hbase : ∀ e, base e = none ∨ base e = ld e)
    (hmarked : ∀ e t, ld e = some (t, true) → base e = some (t, true))
    (hcs : ∀ e t, base e = some (t, false) ↔ (e, t) ∈ cs.map StagedCall.pair) :
    ∃ x, Serial py (log ++ cs.map StagedCall.entry) x ∧ book x.1 = book v.1 ∧ look x.1 = base ∧
      pending x.1.walStaging = cs.map StagedCall.pair := by
  have hpend : pending v.1.walStaging = [] := by
    refine List.eq_nil_iff_forall_not_mem.2 fun x hx => ?_
    have := (mem_pending h.journalInv.staged (e := x.1) (t := x.2)).2 hx
    rw [hv, marked_eq_some] at this
    cases this.2
  have hnew : ∀ c ∈ cs, look v.1 c.eventId = none := by
    intro c hc
    have hb := (hcs _ _).2 (List.mem_map.2 ⟨c, hc, rfl⟩)
    have hl := ((hbase _).resolve_left (by simp [hb])).symm.trans hb
    rw [hv, marked_eq_none, hl]
    simp
  obtain ⟨x, hx, hbook, hpx, hlook⟩ := h.stageAll hd hnew
  refine ⟨x, hx, hbook, funext fun e => Option.ext fun ⟨t, b⟩ => ?_, by rw [hpx, hpend]; rfl⟩
  rw [hlook, hv, marked_eq_some, ← hcs]
  cases b with
  | false => simp
  | true =>
    simp only [Bool.true_eq_false, false_and, or_false, and_true]
    refine ⟨hmarked e t, fun hb => ?_⟩
    exact ((hbase e).resolve_left (by simp [hb])).symm.trans hb

end Start

end LineageVault
