import LineageVault.Storage.Footprint

/-! # What the holder of the lock may count on

While one transaction holds the lock, others still stage events. Its serial run starts from the
committed rows and from those pending events that it uses, and this set grows as it goes: an insert
that finds a pending event uses it from the beginning. `Promise` therefore speaks of every serial
start `x` with further pending events `X` that were not touched yet: the whole call run on `x` is the
rest of it run on some `y`, which stands where the transaction stands.

`Holding` ties this to the database and to what the transaction sees. It holds from the lock on
(`holding_acknowledge`) or from the first reply (`holding_recover`); `Holding.step` and `Holding.uses`
are its steps, `Holding.joined` is a commit of somebody else's, and `Holding.finish` is what it gives
at its own.
-/

namespace LineageVault
open Foundations
set_option autoImplicit false

def Look.over (u X : Look) : Look := fun e => (u e).or (X e)

/-- The committed rows alone. -/
def Look.marked (l : Look) : Look := fun e => (l e).filter fun x => x.2

def Promise (q : Sql Outcome) (start : Store → Prop) (b₀ : Book) (base : Look) (p : Sql Outcome)
    (b : Book) (u : Look) : Prop :=
  ∀ X x, (∀ e, u e ≠ none → X e = none) → start x → Sequenced x → book x.1 = b₀ →
    look x.1 = base.over X →
    ∃ y, Sequenced y ∧ book y.1 = b ∧ look y.1 = u.over X ∧ q.eval exec x = p.eval exec y

/-- The event a statement stages. -/
def Stmt.stages : Stmt → Option Str
  | .insertOrIgnoreStaging eventId _ => some eventId
  | _ => none

/-- The event a statement marks as committed. -/
def Stmt.marks : Stmt → Option Str
  | .updateCommitted eventId => some eventId
  | _ => none

/-- The program marks only touched events (`K`), and all it opened (`O`) by its end. It stages events
only if `ins`. -/
def Careful (ins : Bool) : Sql Outcome → (Str → Prop) → (Str → Prop) → Prop
  | .ret _, _, O => ∀ e, ¬ O e
  | .raise _, _, _ => True
  | .stmt s k, K, O => s.onBook = true ∧ (s.stages ≠ none → ins = true) ∧ (∀ e ∈ s.marks, K e) ∧
      ∀ r, Careful ins (k r) (fun e => e ∈ s.stages ∨ K e)
        (fun e => e ∈ s.stages ∨ (O e ∧ e ∉ s.marks))

/-- A serial start on which the list of pending events is the one that was read. -/
def Starts (seen : Option (List (Str × Str))) (x : Store) : Prop :=
  ∀ rows ∈ seen, pending x.1.walStaging = rows

/-- The call `q` stands at `p`: the database has the book `bd` and the look `ld`, the transaction
sees `bv` and `lv`. Its serial run starts from `base` and has come to `u`. -/
structure Holding (q : Sql Outcome) (seen : Option (List (Str × Str))) (bd : Book) (ld : Look)
    (p : Sql Outcome) (bv : Book) (lv : Look) (base u : Look) (opens : Str → Prop) : Prop where
  promise : Promise q (Starts seen) bd base p bv u
  base_db : ∀ e, base e = none ∨ base e = ld e
  base_marked : ∀ e t, ld e = some (t, true) → base e = some (t, true)
  base_le : ∀ e, u e = none → base e = none
  known : ∀ e, ld e ≠ none → base e = none → u e = none
  u_view : ∀ e, u e = none ∨ u e = lv e
  untouched : ∀ e, u e = none → lv e = ld e
  opened : ∀ e t, u e = some (t, false) → opens e
  careful : Careful seen.isNone p (fun e => u e ≠ none) opens
  rows : ∀ rs ∈ seen, (rs.map Prod.fst).Nodup ∧ ∀ e t, base e = some (t, false) ↔ (e, t) ∈ rs

/-! ## Careful programs -/

theorem Careful.mono {ins : Bool} {p : Sql Outcome} {K K' O O' : Str → Prop}
    (h : Careful ins p K O) (hK : ∀ e, K e → K' e) (hO : ∀ e, O' e → O e) : Careful ins p K' O' := by
  induction p generalizing K K' O O' with
  | ret a => exact fun e he => h e (hO e he)
  | raise e => trivial
  | stmt s k ih =>
    obtain ⟨hs, hins, hm, hk⟩ := h
    refine ⟨hs, hins, fun e he => hK e (hm e he), fun r => ih r (hk r) ?_ ?_⟩
    · exact fun e he => he.imp_right (hK e)
    · exact fun e he => he.imp_right fun ⟨ho, hne⟩ => ⟨hO e ho, hne⟩

theorem careful_ofExcept_bind {ins : Bool} {β : Type} {x : Except PyErr β} {f : β → Sql Outcome}
    {K O : Str → Prop} (h : ∀ b, x = .ok b → Careful ins (f b) K O) :
    Careful ins (raising x >>= f) K O := by
  cases x with
  | ok b => exact h b rfl
  | error e => trivial

section Programs
variable {P : Type} {py : PyLib P}

/-- A statement that neither stages nor marks. -/
theorem careful_plain {ins : Bool} {s : Stmt} {k : Reply s → Sql Outcome} {K O : Str → Prop}
    (hs : s.onBook = true) (hst : s.stages = none) (hm : s.marks = none)
    (hk : ∀ r, Careful ins (k r) K O) : Careful ins (.stmt s k) K O := by
  refine ⟨hs, fun h => absurd hst h, fun e he => ?_, fun r => (hk r).mono ?_ ?_⟩
  · rw [hm] at he; cases he
  · exact fun e he => .inr he
  · rintro e (he | ⟨he, -⟩)
    · rw [hst] at he; cases he
    · exact he

theorem careful_appendLedger {ins : Bool} (eventId : Str) (payload : P) {f : Unit → Sql Outcome}
    {K O : Str → Prop} (h : Careful ins (f ()) K O) :
    Careful ins (appendLedger py eventId payload >>= f) K O := by
  cases hp : payloadJson py payload with
  | error e => rw [appendLedger, hp]; trivial
  | ok t =>
    rw [appendLedger_stmts hp]
    refine careful_plain rfl rfl rfl fun row => ?_
    change Careful ins ((raising _ >>= _) >>= f) K O
    cases hd : entryHash py (row.getD genesisHash) eventId t with
    | error e => trivial
    | ok digest => exact careful_plain rfl rfl rfl fun _ => h

/-- A statement that marks `e`, which was touched before. -/
theorem careful_mark {ins : Bool} {e : Str} {k : Unit → Sql Outcome} {K O : Str → Prop} (he : K e)
    (hk : ∀ r, Careful ins (k r) K fun e' => O e' ∧ e' ≠ e) :
    Careful ins (.stmt (.updateCommitted e) k) K O := by
  refine ⟨rfl, fun h => absurd rfl h, fun e' he' => ?_, fun r => (hk r).mono (fun e' => .inr) ?_⟩
  · cases he'
    exact he
  · rintro e' (he' | ⟨ho, hne⟩)
    · cases he'
    · exact ⟨ho, fun h => hne (by rw [h]; rfl)⟩

theorem careful_acknowledgeItem {now : ClockText} {item : BatchWriteItem P} {f : Unit → Sql Outcome}
    {K O : Str → Prop} (hO : ∀ e, ¬ O e) (h : ∀ K' O', (∀ e, ¬ O' e) → Careful true (f ()) K' O') :
    Careful true (acknowledgeItem py now item >>= f) K O := by
  unfold acknowledgeItem
  rw [Prog.bind_assoc]
  refine careful_ofExcept_bind fun t _ => careful_plain rfl rfl rfl fun _ => ?_
  refine ⟨rfl, fun _ => rfl, fun _ he => (nomatch he), fun _ => ?_⟩
  -- the event is opened by the insert and closed by the mark
  refine careful_mark (.inl rfl) fun _ => careful_appendLedger _ _ (h _ _ ?_)
  rintro e ⟨he | ⟨ho, -⟩, hne⟩
  · exact hne (Option.some.inj he).symm
  · exact hO e ho

theorem careful_acknowledgeLoop (now : ClockText) (items : List (BatchWriteItem P))
    (existing : List (Str × Str)) (results : List AcknowledgedWrite) {K O : Str → Prop}
    (hO : ∀ e, ¬ O e) :
    Careful true (acknowledgeLoop py now items existing results >>= fun rs => .ret (.acks rs)) K O := by
  induction items generalizing existing results K O with
  | nil => exact hO
  | cons item items ih =>
    cases hl : existing.lookup item.idempotencyKey with
    | some eventId =>
      rw [acknowledgeLoop_known py now items results hl]
      exact ih _ _ hO
    | none =>
      rw [acknowledgeLoop_new py now items results hl, Prog.bind_assoc]
      exact careful_acknowledgeItem hO fun _ _ hO' => ih _ _ hO'

theorem careful_acknowledgeWritesBatch (now : ClockText) (items : List (BatchWriteItem P))
    (K : Str → Prop) :
    Careful true (LedgerCall.prog py (.acknowledgeWritesBatch now items)) K fun _ => False := by
  rw [LedgerCall.prog]
  split
  · exact fun _ h => h
  · exact careful_plain rfl rfl rfl fun rows => careful_acknowledgeLoop now items rows [] fun _ h => h

/-- The recovery opens nothing itself: it starts with the rows it read as open. -/
theorem careful_recoverLoop (rows : List (Str × Str)) (count : ℕ) {K O : Str → Prop}
    (hK : ∀ e ∈ rows.map Prod.fst, K e) (hO : ∀ e, O e → e ∈ rows.map Prod.fst) :
    Careful false (recoverLoop py rows count >>= fun n => .ret (.recovered n)) K O := by
  induction rows generalizing count K O with
  | nil => exact fun e he => by cases hO e he
  | cons row rows ih =>
    obtain ⟨e, t⟩ := row
    have hmark : ∀ n, Careful false (Prog.stmt (.updateCommitted e) fun _ =>
        recoverLoop py rows n >>= fun n => .ret (.recovered n)) K O := by
      refine fun n => careful_mark (hK e (by simp)) fun _ => ih n ?_ ?_
      · exact fun e' he' => hK e' (by simp [he'])
      · exact fun e' ⟨ho, hne⟩ => (List.mem_cons.1 (hO e' ho)).resolve_left hne
    cases hl : py.loads t with
    | error err => rw [recoverLoop, hl]; trivial
    | ok payload =>
      rw [recoverLoop_cons hl]
      refine careful_plain rfl rfl rfl fun dup => ?_
      cases dup with
      | true => exact hmark count
      | false =>
        change Careful false ((appendLedger py e payload >>= _) >>= _) K O
        rw [Prog.bind_assoc]
        exact careful_appendLedger e payload (hmark (count + 1))

end Programs

/-! ## Looks over each other -/

theorem over_of_none {u X : Look} {e : Str} (h : X e = none) : u.over X e = u e := by
  simp [Look.over, h]

theorem over_of_some {u X : Look} {e : Str} (h : u e ≠ none) : u.over X e = u e := by
  obtain ⟨x, hx⟩ := Option.ne_none_iff_exists'.1 h
  simp [Look.over, hx]

theorem update_cases (l : Look) (e : Str) (x : Option (Str × Bool)) (e' : Str) :
    (e' = e ∧ Function.update l e x e' = x) ∨ (e' ≠ e ∧ Function.update l e x e' = l e') := by
  by_cases hee : e' = e
  · subst hee
    exact .inl ⟨rfl, Function.update_self ..⟩
  · exact .inr ⟨hee, Function.update_of_ne hee ..⟩

theorem over_update {l X : Look} {e : Str} {x : Option (Str × Bool)} (hl : l e = none)
    (hx : x ≠ none) : l.over (Function.update X e x) = Look.over (Function.update l e x) X := by
  funext e'
  rcases update_cases X e x e' with ⟨rfl, h⟩ | ⟨hee, h⟩
  · rw [over_of_some (u := Function.update l e' x) (by rwa [Function.update_self]), Look.over, hl, h,
      Function.update_self]
    rfl
  · rw [Look.over, Look.over, h, Function.update_of_ne hee]

theorem marked_eq_some {l : Look} {e t : Str} {c : Bool} :
    l.marked e = some (t, c) ↔ l e = some (t, true) ∧ c = true := by
  rw [Look.marked, Option.filter_eq_some_iff]
  constructor
  · rintro ⟨hl, rfl⟩
    exact ⟨hl, rfl⟩
  · rintro ⟨hl, rfl⟩
    exact ⟨hl, rfl⟩

theorem marked_eq_none {l : Look} {e : Str} :
    l.marked e = none ↔ ∀ t, l e ≠ some (t, true) := by
  rw [Look.marked, Option.filter_eq_none_iff]
  constructor
  · exact fun h t ht => h _ ht rfl
  · rintro h ⟨t, c⟩ ht rfl
    exact h t ht

theorem marked_cases (l : Look) (e : Str) : l.marked e = none ∨ l.marked e = l e := by
  cases h : l.marked e with
  | none => exact .inl rfl
  | some x =>
    obtain ⟨hl, hc⟩ := marked_eq_some.1 h
    exact .inr (hl.trans (by rw [← hc])).symm

/-! ## One statement -/

section Statement
variable {q : Sql Outcome} {start : Store → Prop} {seen : Option (List (Str × Str))} {bd bv : Book}
  {ld lv base u : Look} {opens : Str → Prop} {s : Stmt} {k : Reply s → Sql Outcome} {v w : Store}
  {r : Reply s}

/-- What the statement does to the serial run, once its reply is known. The further events `X` of
the old promise are those of the new one with, perhaps, the one that is used now. -/
theorem Promise.executed {base' u' : Look} (h : Promise q start bd base (.stmt s k) (book v.1) u)
    (hs : s.onBook = true) (hv : Sequenced v) (he : exec s v = .ok (r, w))
    (hX : ∀ X', (∀ e, u' e ≠ none → X' e = none) → ∃ X, (∀ e, u e ≠ none → X e = none) ∧
      base.over X = base'.over X' ∧ s.afterLook (u.over X) = u'.over X') :
    Promise q start bd base' (k r) (s.afterBook (book v.1)) u' := by
  intro X' x hdis hstart hx hbook hlook
  obtain ⟨X, hdisX, hbase, hafter⟩ := hX X' hdis
  obtain ⟨y, hy, hby, hly, heval⟩ := h X x hdisX hstart hx hbook (hlook.trans hbase.symm)
  obtain ⟨y', hey⟩ := exec_agrees hs hv hy hby.symm he
  obtain ⟨hy', hby', hly'⟩ := exec_after hs hy hey
  refine ⟨y', hy', by rw [hby', hby], by rw [hly', hly, hafter], ?_⟩
  rw [heval, Prog.eval_stmt_ok _ hey]

/-! ### One event -/

variable {e : Str}

theorem afterLook_congr {l l' : Look} (h : l e = l' e) : s.afterLook l e = s.afterLook l' e := by
  cases s with
  | _ => simp only [Stmt.afterLook, h]

theorem afterLook_eq_none : s.afterLook u e = none ↔ u e = none ∧ e ∉ s.stages := by
  cases s with
  | insertOrIgnoreStaging e' t =>
    by_cases he : e = e'
    · simp [Stmt.afterLook, Stmt.stages, he]
    · simp [Stmt.afterLook, Stmt.stages, he, Ne.symm he]
  | updateCommitted e' => by_cases he : e = e' <;> simp [Stmt.afterLook, Stmt.stages, he]
  | _ => simp [Stmt.afterLook, Stmt.stages]

theorem afterLook_of_notMem (hs : e ∉ s.stages) (hm : e ∉ s.marks) : s.afterLook u e = u e := by
  cases s with
  | insertOrIgnoreStaging e' t =>
    have he : e ≠ e' := fun h => hs (by rw [h]; rfl)
    simp only [Stmt.afterLook, he, if_false]
  | updateCommitted e' =>
    have he : e ≠ e' := fun h => hm (by rw [h]; rfl)
    simp only [Stmt.afterLook, he, if_false]
  | _ => rfl

theorem afterLook_open {t : Str} (h : s.afterLook u e = some (t, false)) :
    e ∈ s.stages ∨ (u e = some (t, false) ∧ e ∉ s.marks) := by
  by_cases hs : e ∈ s.stages
  · exact .inl hs
  by_cases hm : e ∈ s.marks
  · cases s with
    | updateCommitted e' =>
      obtain rfl : e' = e := Option.some.inj hm
      simp only [Stmt.afterLook, if_true] at h
      obtain ⟨x, -, hx⟩ := Option.map_eq_some_iff.1 h
      cases hx
    | _ => cases hm
  · rw [afterLook_of_notMem hs hm] at h
    exact .inr ⟨h, hm⟩

theorem afterLook_staged {l : Look} {t : Str} (h : l e ≠ none) :
    Stmt.afterLook (.insertOrIgnoreStaging e t) l = l := by
  funext e'
  obtain ⟨x, hx⟩ := Option.ne_none_iff_exists'.1 h
  by_cases he : e' = e <;> simp [Stmt.afterLook, he, hx]

/-- Further events that were not touched stay apart. -/
theorem afterLook_over {X : Look} (hX : ∀ e, s.afterLook u e ≠ none → X e = none)
    (hm : ∀ e ∈ s.marks, u e ≠ none) : s.afterLook (u.over X) = (s.afterLook u).over X := by
  funext e
  by_cases hs : e ∈ s.stages
  · have hXe : X e = none := hX e fun h => (afterLook_eq_none.1 h).2 hs
    rw [over_of_none hXe]
    exact afterLook_congr (over_of_none hXe)
  by_cases hu : u e = none
  · have hme : e ∉ s.marks := fun h => hm e h hu
    rw [afterLook_of_notMem hs hme, Look.over, Look.over, afterLook_of_notMem hs hme]
  · have h : s.afterLook u e ≠ none := fun hn => hu (afterLook_eq_none.1 hn).1
    rw [over_of_some h]
    exact afterLook_congr (over_of_some hu)

/-- **A statement that uses no event staged by others.** -/
theorem Holding.step (h : Holding q seen bd ld (.stmt s k) (book v.1) lv base u opens)
    (hfree : ∀ e ∈ s.stages, u e ≠ none ∨ lv e = none) (hv : Sequenced v)
    (he : exec s v = .ok (r, w)) :
    Holding q seen bd ld (k r) (s.afterBook (book v.1)) (s.afterLook lv) base (s.afterLook u)
      fun e => e ∈ s.stages ∨ (opens e ∧ e ∉ s.marks) where
  promise := h.promise.executed h.careful.1 hv he fun X' hX' =>
    ⟨X', fun e hu => hX' e fun hn => hu (afterLook_eq_none.1 hn).1, rfl,
      afterLook_over hX' h.careful.2.2.1⟩
  base_db := h.base_db
  base_marked := h.base_marked
  base_le e hn := h.base_le e (afterLook_eq_none.1 hn).1
  known e hl hb := by
    have hu := h.known e hl hb
    refine afterLook_eq_none.2 ⟨hu, fun hs => ?_⟩
    rcases hfree e hs with hne | hlv
    · exact hne hu
    · exact hl (h.untouched e hu ▸ hlv)
  u_view e := by
    by_cases hu : u e = none
    · by_cases hs : e ∈ s.stages
      · have hlv := (hfree e hs).resolve_left fun hne => hne hu
        exact .inr (afterLook_congr (hu.trans hlv.symm))
      · exact .inl (afterLook_eq_none.2 ⟨hu, hs⟩)
    · exact .inr (afterLook_congr ((h.u_view e).resolve_left hu))
  untouched e hn := by
    obtain ⟨hu, hs⟩ := afterLook_eq_none.1 hn
    rw [afterLook_of_notMem hs fun hm => h.careful.2.2.1 e hm hu]
    exact h.untouched e hu
  opened e t ho := (afterLook_open ho).imp_right fun ⟨hu, hm⟩ => ⟨h.opened e t hu, hm⟩
  careful := by
    refine (h.careful.2.2.2 r).mono (fun e he hn => ?_) fun e he => he
    obtain ⟨hu, hs⟩ := afterLook_eq_none.1 hn
    exact he.elim hs fun hne => hne hu
  rows := h.rows

/-- **An insert that finds an event others staged uses it from the beginning.** -/
theorem Holding.uses {t : Str} {k : Unit → Sql Outcome} {r : Unit}
    (h : Holding q seen bd ld (.stmt (.insertOrIgnoreStaging e t) k) (book v.1) lv base u opens)
    (hu : u e = none) (hlv : lv e ≠ none) (hv : Sequenced v)
    (he : exec (.insertOrIgnoreStaging e t) v = .ok (r, w)) :
    Holding q seen bd ld (k r) (book v.1) lv (Function.update base e (lv e))
      (Function.update u e (lv e)) fun e' => e' = e ∨ opens e' := by
  have hseen : seen = none := by
    have := h.careful.2.1 (by simp [Stmt.stages])
    simpa using this
  have hb : base e = none := h.base_le e hu
  have hld : lv e = ld e := h.untouched e hu
  obtain ⟨⟨t₀, c⟩, hx⟩ := Option.ne_none_iff_exists'.1 hlv
  have hc : c = false := by
    by_contra hc
    rw [Bool.not_eq_false] at hc
    have := h.base_marked e t₀ (by rw [← hld, hx, hc])
    rw [hb] at this
    cases this
  subst hc
  have hdb := fun l : Look => update_cases l e (lv e)
  refine ⟨?promise, fun e' => ?base_db, fun e' t' hm => ?base_marked, fun e' hn => ?base_le,
    fun e' hl hbn => ?known, fun e' => ?u_view, fun e' hn => ?untouched, fun e' t' ho => ?opened,
    ?careful, by simp [hseen]⟩
  case promise =>
    refine h.promise.executed rfl hv he fun X' hX' =>
      ⟨Function.update X' e (lv e), fun e' hu' => ?_, over_update hb hlv, ?_⟩
    · have hee : e' ≠ e := fun hee => hu' (hee ▸ hu)
      rw [Function.update_of_ne hee]
      exact hX' e' (by rwa [Function.update_of_ne hee])
    · have hue : (Function.update u e (lv e)) e ≠ none := by rwa [Function.update_self]
      rw [over_update hu hlv, afterLook_staged (by rwa [over_of_some hue])]
  case base_db =>
    rcases hdb base e' with ⟨rfl, h'⟩ | ⟨-, h'⟩
    · exact .inr (h'.trans hld)
    · rw [h']; exact h.base_db e'
  case base_marked =>
    rcases hdb base e' with ⟨rfl, h'⟩ | ⟨-, h'⟩
    · rw [h', hld, hm]
    · rw [h']; exact h.base_marked e' t' hm
  case base_le =>
    rcases hdb u e' with ⟨-, h'⟩ | ⟨hee, h'⟩
    · exact absurd (h'.symm.trans hn) hlv
    · rw [Function.update_of_ne hee]
      exact h.base_le e' (h'.symm.trans hn)
  case known =>
    rcases hdb base e' with ⟨-, h'⟩ | ⟨hee, h'⟩
    · exact absurd (h'.symm.trans hbn) hlv
    · rw [Function.update_of_ne hee]
      exact h.known e' hl (h'.symm.trans hbn)
  case u_view =>
    rcases hdb u e' with ⟨rfl, h'⟩ | ⟨-, h'⟩
    · exact .inr h'
    · rw [h']; exact h.u_view e'
  case untouched =>
    rcases hdb u e' with ⟨-, h'⟩ | ⟨-, h'⟩
    · exact absurd (h'.symm.trans hn) hlv
    · exact h.untouched e' (h'.symm.trans hn)
  case opened =>
    rcases hdb u e' with ⟨hee, -⟩ | ⟨-, h'⟩
    · exact .inl hee
    · exact .inr (h.opened e' t' (h'.symm.trans ho))
  case careful =>
    refine (h.careful.2.2.2 r).mono (fun e' he' => ?_) fun e' he' => ?_
    · rcases hdb u e' with ⟨-, h'⟩ | ⟨hee, h'⟩
      · rwa [h']
      · rw [h']
        exact he'.resolve_left fun hs => hee (Option.some.inj hs).symm
    · exact he'.imp (fun hee => congrArg some hee.symm) fun ho => ⟨ho, fun hm => nomatch hm⟩

theorem Holding.executed
    (h : Holding q seen bd ld (.stmt s k) (book v.1) (look v.1) base u opens) (hv : Sequenced v)
    (he : exec s v = .ok (r, w)) :
    ∃ base' u' opens', Holding q seen bd ld (k r) (book w.1) (look w.1) base' u' opens' := by
  obtain ⟨-, hbook, hlook⟩ := exec_after h.careful.1 hv he
  rw [hbook, hlook]
  by_cases hfree : ∀ e ∈ s.stages, u e ≠ none ∨ look v.1 e = none
  · exact ⟨_, _, _, h.step hfree hv he⟩
  · simp only [not_forall, not_or, not_not] at hfree
    obtain ⟨e, hs, hu, hlv⟩ := hfree
    cases s with
    | insertOrIgnoreStaging e' t =>
      obtain rfl : e' = e := Option.some.inj hs
      rw [afterLook_staged hlv]
      exact ⟨_, _, _, h.uses hu hlv hv he⟩
    | _ => cases hs

end Statement

/-! ## From the lock to the commit -/

section Ends
variable {q p : Sql Outcome} {seen : Option (List (Str × Str))} {bd bv : Book}
  {ld lv base u : Look} {opens : Str → Prop} {e t : Str}

/-- Another client's event is committed while the transaction is open. -/
theorem Holding.joined (h : Holding q seen bd ld p bv lv base u opens) (hl : ld e = none)
    (hv : lv e = none) :
    Holding q seen bd (Function.update ld e (some (t, false))) p bv
      (Function.update lv e (some (t, false))) base u opens := by
  have hu : u e = none := by
    rcases h.u_view e with hu | hu
    · exact hu
    · rw [hu, hv]
  have hb : base e = none := h.base_le e hu
  have hld := update_cases ld e (some (t, false))
  have hlv := update_cases lv e (some (t, false))
  refine { h with
    base_db := fun e' => ?base_db
    base_marked := fun e' t' hm => ?base_marked
    known := fun e' hl' hb' => ?known
    u_view := fun e' => ?u_view
    untouched := fun e' hn => ?untouched }
  case base_db =>
    rcases hld e' with ⟨rfl, -⟩ | ⟨-, h'⟩
    · exact .inl hb
    · rw [h']; exact h.base_db e'
  case base_marked =>
    rcases hld e' with ⟨-, h'⟩ | ⟨-, h'⟩
    · rw [h'] at hm; cases hm
    · exact h.base_marked e' t' (h'.symm.trans hm)
  case known =>
    rcases hld e' with ⟨rfl, -⟩ | ⟨-, h'⟩
    · exact hu
    · exact h.known e' (fun hn => hl' (h'.trans hn)) hb'
  case u_view =>
    rcases hlv e' with ⟨rfl, -⟩ | ⟨-, h'⟩
    · exact .inl hu
    · rw [h']; exact h.u_view e'
  case untouched =>
    rcases hlv e' with ⟨rfl, h'⟩ | ⟨hee, h'⟩
    · rw [h', Function.update_self]
    · rw [h', Function.update_of_ne hee]
      exact h.untouched e' hn

/-- What the transaction leaves pending is what it did not use. -/
theorem Holding.finish {o : Outcome} (h : Holding q seen bd ld (.ret o) bv lv base u opens) :
    (∀ x, Starts seen x → Sequenced x → book x.1 = bd → look x.1 = base →
      ∃ y, q.eval exec x = .ok (o, y) ∧ Sequenced y ∧ book y.1 = bv ∧ look y.1 = lv.marked) ∧
      ∀ e t, lv e = some (t, false) ↔ ld e = some (t, false) ∧ base e = none := by
  have hopen : ∀ e t, u e ≠ some (t, false) := fun e t hu => h.careful e (h.opened e t hu)
  have hu : u = lv.marked := by
    funext e
    cases hue : u e with
    | none =>
      refine (marked_eq_none.2 fun t ht => ?_).symm
      have hb := h.base_marked e t (by rw [← h.untouched e hue, ht])
      rw [h.base_le e hue] at hb
      cases hb
    | some x =>
      obtain ⟨t, c⟩ := x
      have hlv : lv e = some (t, c) := ((h.u_view e).resolve_left (by simp [hue])).symm.trans hue
      cases c with
      | false => exact absurd hue (hopen e t)
      | true => exact (marked_eq_some.2 ⟨hlv, rfl⟩).symm
  refine ⟨fun x hstart hx hbook hlook => ?_, fun e t => ⟨fun ht => ?_, fun ⟨ht, hb⟩ => ?_⟩⟩
  · obtain ⟨y, hy, hby, hly, heval⟩ := h.promise (fun _ => none) x (fun _ _ => rfl) hstart hx hbook
      (hlook.trans (funext fun e => (over_of_none rfl).symm))
    refine ⟨y, heval, hy, hby, hly.trans ?_⟩
    rw [← hu]
    exact funext fun e => over_of_none rfl
  · have hue : u e = none := by
      rcases h.u_view e with hue | hue
      · exact hue
      · exact absurd (hue.trans ht) (hopen e t)
    exact ⟨by rw [← h.untouched e hue, ht], h.base_le e hue⟩
  · rw [h.untouched e (h.known e (by simp [ht]) hb), ht]

end Ends

section Begins
variable {P : Type} {py : PyLib P} {bd : Book} {ld : Look}

theorem promise_refl (q : Sql Outcome) (start : Store → Prop) (b : Book) (l : Look) :
    Promise q start b l q b l :=
  fun _ x _ _ hx hbook hlook => ⟨x, hx, hbook, hlook, rfl⟩

/-- An acknowledgement starts on the marked rows alone. -/
theorem holding_acknowledge (now : ClockText) (items : List (BatchWriteItem P)) (bd : Book) (ld : Look) :
    Holding (LedgerCall.prog py (.acknowledgeWritesBatch now items)) none bd ld
      (LedgerCall.prog py (.acknowledgeWritesBatch now items)) bd ld ld.marked ld.marked
      fun _ => False where
  promise := promise_refl _ _ _ _
  base_db := marked_cases ld
  base_marked e t h := marked_eq_some.2 ⟨h, rfl⟩
  base_le _ h := h
  known _ _ h := h
  u_view := marked_cases ld
  untouched _ _ := rfl
  opened e t h := by cases (marked_eq_some.1 h).2
  careful := careful_acknowledgeWritesBatch now items _
  rows := by simp

/-- A recovery starts on all it read. -/
theorem holding_recover {rows : List (Str × Str)} (hdistinct : (rows.map Prod.fst).Nodup)
    (hrows : ∀ e t, ld e = some (t, false) ↔ (e, t) ∈ rows) (bd : Book) :
    Holding (LedgerCall.prog py .recoverUncommitted) (some rows) bd ld
      (recoverLoop py rows 0 >>= fun n => .ret (.recovered n)) bd ld ld ld
      (fun e => e ∈ rows.map Prod.fst) where
  promise := by
    intro X x _ hstart hx hbook hlook
    refine ⟨x, hx, hbook, hlook, ?_⟩
    rw [← hstart rows rfl]
    rfl
  base_db _ := .inr rfl
  base_marked _ _ h := h
  base_le _ h := h
  known e hl hb := absurd hb hl
  u_view _ := .inr rfl
  untouched _ _ := rfl
  opened e t h := List.mem_map.2 ⟨(e, t), (hrows e t).1 h, rfl⟩
  careful := by
    refine careful_recoverLoop rows 0 (fun e he => ?_) fun _ h => h
    obtain ⟨⟨e', t⟩, hmem, rfl⟩ := List.mem_map.1 he
    rw [(hrows e' t).2 hmem]
    exact nofun
  rows rs hrs := by
    obtain rfl := Option.some.inj hrs
    exact ⟨hdistinct, hrows⟩

end Begins

end LineageVault
