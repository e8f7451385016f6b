import Mathlib.Data.List.Basic
import Mathlib.Data.Set.Function
import Mathlib.Logic.Relation

/-! # Searching a relation breadth first

`search next` takes the first element off a frontier, drops it if it was seen, and otherwise asks
`next` for its successors, which are found and go to the end of the frontier. Asking may raise.

`mem_search` is what a search that returns has found: the elements that its start leads to in one or
more steps. `search_perm` is how often: once for each edge that leaves an element reached.

With as much fuel as there are edges, and two, a search comes to its end (`search_ends`), and it
returns when asking does not raise (`search_returns`).
-/

namespace LineageVault.Foundations
set_option autoImplicit false

variable {α ε : Type}

/-- `none` when the fuel runs out. -/
def search [DecidableEq α] (next : α → Except ε (List α)) : ℕ → List α → List α → List α → Option (Except ε (List α))
  | 0, _, _, _ => none
  | _ + 1, [], _, found => some (.ok found)
  | fuel + 1, x :: frontier, seen, found =>
    if x ∈ seen then search next fuel frontier seen found
    else
      match next x with
      | .ok ys => search next fuel (frontier ++ ys) (x :: seen) (found ++ ys)
      | .error e => some (.error e)

/-! ## Paths -/

/-- A relation whose pairs are one element twice, or are joined by another one, leads nowhere else. -/
theorem transGen_of_joined {r r' : α → α → Prop}
    (h : ∀ x y, r x y → x = y ∨ Relation.TransGen r' x y) {s d : α} (hne : s ≠ d)
    (hsd : Relation.TransGen r s d) : Relation.TransGen r' s d := by
  have hrefl : Relation.ReflTransGen r' s d := by
    clear hne
    induction hsd with
    | single he =>
      rcases h _ _ he with rfl | he
      · exact .refl
      · exact he.to_reflTransGen
    | tail _ he ih =>
      rcases h _ _ he with rfl | he
      · exact ih
      · exact ih.trans he.to_reflTransGen
  exact (Relation.reflTransGen_iff_eq_or_transGen.1 hrefl).resolve_left hne.symm

/-- A path between images is the image of a path, if no two of its elements have one image. -/
theorem transGen_of_map {β : Type} {r : α → α → Prop} {f : α → β} {t : Set α} (hf : Set.InjOn f t)
    (hr : ∀ x y, r x y → x ∈ t ∧ y ∈ t) {x y : α} (hx : x ∈ t) (hy : y ∈ t)
    (h : Relation.TransGen (Relation.Map r f f) (f x) (f y)) : Relation.TransGen r x y := by
  have hpath : ∀ z, Relation.TransGen (Relation.Map r f f) (f x) z →
      ∃ y' ∈ t, f y' = z ∧ Relation.TransGen r x y' := by
    intro z hz
    induction hz with
    | single he =>
      obtain ⟨x', y', hxy, hx', rfl⟩ := he
      obtain ⟨hx't, hy't⟩ := hr x' y' hxy
      obtain rfl := hf hx't hx hx'
      exact ⟨y', hy't, rfl, .single hxy⟩
    | tail _ he ih =>
      obtain ⟨y', hy't, hfy, hpath⟩ := ih
      obtain ⟨x', z', hxz, hx', rfl⟩ := he
      obtain ⟨hx't, hz't⟩ := hr x' z' hxz
      obtain rfl := hf hx't hy't (hx'.trans hfy.symm)
      exact ⟨z', hz't, rfl, hpath.tail hxz⟩
  obtain ⟨y', hy't, hfy, hpath⟩ := hpath (f y) h
  obtain rfl := hf hy't hy hfy
  exact hpath

/-! ## What is found -/

/-- Everything seen was followed up, and everything found was seen or is still to come. -/
structure Searching (r : α → α → Prop) (s : α) (frontier seen found : List α) : Prop where
  start : s ∈ seen ∨ s ∈ frontier
  followed : ∀ x ∈ seen, ∀ y, r x y → y ∈ found
  covered : ∀ y ∈ found, y ∈ seen ∨ y ∈ frontier
  reached : ∀ y ∈ found, Relation.TransGen r s y
  pending : ∀ x ∈ frontier, Relation.ReflTransGen r s x

theorem searching_start (r : α → α → Prop) (s : α) : Searching r s [s] [] [] where
  start := .inr (List.mem_singleton_self s)
  followed _ hx := (List.not_mem_nil hx).elim
  covered _ hy := (List.not_mem_nil hy).elim
  reached _ hy := (List.not_mem_nil hy).elim
  pending _ hx := List.mem_singleton.1 hx ▸ .refl

variable {r : α → α → Prop} {s x : α} {frontier seen found ys : List α}

theorem Searching.skip (h : Searching r s (x :: frontier) seen found) (hx : x ∈ seen) :
    Searching r s frontier seen found where
  start := by
    rcases h.start with hs | hs
    · exact .inl hs
    · rcases List.mem_cons.1 hs with rfl | hs
      · exact .inl hx
      · exact .inr hs
  followed := h.followed
  covered y hy := by
    rcases h.covered y hy with hs | hs
    · exact .inl hs
    · rcases List.mem_cons.1 hs with rfl | hs
      · exact .inl hx
      · exact .inr hs
  reached := h.reached
  pending y hy := h.pending y (List.mem_cons_of_mem _ hy)

theorem Searching.ask (h : Searching r s (x :: frontier) seen found) (hys : ∀ y, y ∈ ys ↔ r x y) :
    Searching r s (frontier ++ ys) (x :: seen) (found ++ ys) where
  start := by
    rcases h.start with hs | hs
    · exact .inl (List.mem_cons_of_mem _ hs)
    · rcases List.mem_cons.1 hs with rfl | hs
      · exact .inl List.mem_cons_self
      · exact .inr (List.mem_append_left _ hs)
  followed z hz y hzy := by
    rcases List.mem_cons.1 hz with rfl | hz
    · exact List.mem_append_right _ ((hys y).2 hzy)
    · exact List.mem_append_left _ (h.followed z hz y hzy)
  covered y hy := by
    rcases List.mem_append.1 hy with hy | hy
    · rcases h.covered y hy with hs | hs
      · exact .inl (List.mem_cons_of_mem _ hs)
      · rcases List.mem_cons.1 hs with rfl | hs
        · exact .inl List.mem_cons_self
        · exact .inr (List.mem_append_left _ hs)
    · exact .inr (List.mem_append_right _ hy)
  reached y hy := by
    rcases List.mem_append.1 hy with hy | hy
    · exact h.reached y hy
    · exact .tail' (h.pending x List.mem_cons_self) ((hys y).1 hy)
  pending y hy := by
    rcases List.mem_append.1 hy with hy | hy
    · exact h.pending y (List.mem_cons_of_mem _ hy)
    · exact (h.pending x List.mem_cons_self).tail ((hys y).1 hy)

/-- With nothing left to do, what was found is closed under the relation. -/
theorem Searching.done (h : Searching r s [] seen found) (y : α) :
    y ∈ found ↔ Relation.TransGen r s y := by
  refine ⟨h.reached y, fun hy => ?_⟩
  have hs : s ∈ seen := h.start.resolve_right (List.not_mem_nil)
  induction hy with
  | single hsy => exact h.followed s hs _ hsy
  | tail _ hxy ih =>
    have hx := (h.covered _ ih).resolve_right (List.not_mem_nil)
    exact h.followed _ hx _ hxy

variable [DecidableEq α]

theorem Searching.result {next : α → Except ε (List α)} {fuel : ℕ} {out : List α}
    (hnext : ∀ x ys, next x = .ok ys → ∀ y, y ∈ ys ↔ r x y) (h : Searching r s frontier seen found)
    (hout : search next fuel frontier seen found = some (.ok out)) (y : α) :
    y ∈ out ↔ Relation.TransGen r s y := by
  induction fuel generalizing frontier seen found with
  | zero => cases hout
  | succ fuel ih =>
    cases frontier with
    | nil => cases hout; exact h.done y
    | cons x frontier =>
      rw [search] at hout
      split at hout
      · next hx => exact ih (h.skip hx) hout
      · split at hout
        · next ys hys => exact ih (h.ask (hnext x ys hys)) hout
        · cases hout

/-- **A search finds what its start leads to.** -/
theorem mem_search {next : α → Except ε (List α)} {fuel : ℕ} {out : List α}
    (hnext : ∀ x ys, next x = .ok ys → ∀ y, y ∈ ys ↔ r x y)
    (hout : search next fuel [s] [] [] = some (.ok out)) (y : α) :
    y ∈ out ↔ Relation.TransGen r s y :=
  (searching_start r s).result hnext hout y

/-! ## When it returns -/

/-- The edges that leave an element not seen. -/
def unseen (edges : List (α × α)) (seen : List α) : List (α × α) := edges.filter fun e => e.1 ∉ seen

def targets (edges : List (α × α)) (x : α) : List α := (edges.filter fun e => e.1 = x).map Prod.snd

theorem unseen_cons (edges : List (α × α)) (hx : x ∉ seen) :
    (unseen edges (x :: seen)).length + (targets edges x).length = (unseen edges seen).length := by
  induction edges with
  | nil => rfl
  | cons e edges ih =>
    simp only [unseen, targets, List.length_map, List.filter_cons, List.mem_cons, not_or] at ih ⊢
    by_cases hex : e.1 = x
    · subst hex
      simp only [hx, not_true_eq_false, false_and, not_false_eq_true, decide_true, decide_false,
        if_true, Bool.false_eq_true, if_false, List.length_cons]
      omega
    · by_cases hes : e.1 ∈ seen
      · simp only [hex, hes, not_true_eq_false, and_false, decide_false, Bool.false_eq_true, if_false]
        exact ih
      · simp only [hex, hes, not_false_eq_true, and_self, decide_true, if_true, decide_false,
          Bool.false_eq_true, if_false, List.length_cons]
        omega

theorem mem_targets {edges : List (α × α)} {x y : α} : y ∈ targets edges x ↔ (x, y) ∈ edges := by
  simp only [targets, List.mem_map, List.mem_filter, decide_eq_true_eq]
  constructor
  · rintro ⟨e, ⟨he, rfl⟩, rfl⟩
    exact he
  · exact fun h => ⟨(x, y), ⟨h, rfl⟩, rfl⟩

/-- Each turn takes one off the frontier and the edges not seen, together. -/
theorem search_ends_from {edges : List (α × α)} {next : α → Except ε (List α)} {ok : α → Prop}
    (hok : ∀ e ∈ edges, ok e.1 → ok e.2)
    (hnext : ∀ x ys, ok x → next x = .ok ys → ys.Perm (targets edges x)) {fuel : ℕ}
    (hfrontier : ∀ x ∈ frontier, ok x)
    (hfuel : (unseen edges seen).length + frontier.length < fuel) :
    ∃ out, search next fuel frontier seen found = some out ∧
      ∀ e, out = .error e → ∃ x, ok x ∧ next x = .error e := by
  induction fuel generalizing frontier seen found with
  | zero => exact absurd hfuel (Nat.not_lt_zero _)
  | succ fuel ih =>
    cases frontier with
    | nil => exact ⟨.ok found, rfl, fun e he => by cases he⟩
    | cons x frontier =>
      have hx : ok x := hfrontier x List.mem_cons_self
      have hrest : ∀ y ∈ frontier, ok y := fun y hy => hfrontier y (List.mem_cons_of_mem _ hy)
      rw [search]
      rw [List.length_cons] at hfuel
      split
      · exact ih hrest (by omega)
      · next hseen =>
        cases hask : next x with
        | error e =>
          refine ⟨.error e, rfl, ?_⟩
          rintro e' ⟨⟩
          exact ⟨x, hx, hask⟩
        | ok ys =>
          have hperm := hnext x ys hx hask
          refine ih ?_ ?_
          · intro y hy
            rcases List.mem_append.1 hy with hy | hy
            · exact hrest y hy
            · exact hok (x, y) (mem_targets.1 (hperm.mem_iff.1 hy)) hx
          · have hunseen := unseen_cons edges hseen
            have hlength := hperm.length_eq
            rw [List.length_append]
            omega

/-- More fuel changes nothing. -/
theorem search_le {next : α → Except ε (List α)} {fuel fuel' : ℕ} (hle : fuel ≤ fuel')
    {out : Except ε (List α)} (h : search next fuel frontier seen found = some out) :
    search next fuel' frontier seen found = some out := by
  induction fuel generalizing fuel' frontier seen found with
  | zero => cases h
  | succ fuel ih =>
    obtain ⟨fuel', rfl⟩ := Nat.exists_eq_add_of_le' (Nat.zero_lt_of_lt hle)
    have hle' : fuel ≤ fuel' := Nat.le_of_succ_le_succ hle
    cases frontier with
    | nil => exact h
    | cons x frontier =>
      rw [search] at h ⊢
      split at h
      · next hx =>
        rw [if_pos hx]
        exact ih hle' h
      · next hx =>
        rw [if_neg hx]
        cases hask : next x with
        | error e =>
          rw [hask] at h
          exact h
        | ok ys =>
          rw [hask] at h
          exact ih hle' h

/-- **A search comes to its end**, and raises only what asking raises. -/
theorem search_ends {edges : List (α × α)} {next : α → Except ε (List α)} (ok : α → Prop)
    (hok : ∀ e ∈ edges, ok e.1 → ok e.2)
    (hnext : ∀ x ys, ok x → next x = .ok ys → ys.Perm (targets edges x)) (hs : ok s) :
    ∃ out, search next (edges.length + 2) [s] [] [] = some out ∧
      ∀ e, out = .error e → ∃ x, ok x ∧ next x = .error e := by
  refine search_ends_from hok hnext (by simpa using hs) ?_
  have : (unseen edges []).length ≤ edges.length := List.length_filter_le ..
  rw [List.length_singleton]
  omega

/-- **A search returns** when its start and every end of an edge can be asked. -/
theorem search_returns {edges : List (α × α)} {next : α → Except ε (List α)} (ok : α → Prop)
    (hok : ∀ e ∈ edges, ok e.2) (hnext : ∀ x, ok x → next x = .ok (targets edges x)) (hs : ok s) :
    ∃ out, search next (edges.length + 2) [s] [] [] = some (.ok out) := by
  have hperm : ∀ x ys, ok x → next x = .ok ys → ys.Perm (targets edges x) := by
    intro x ys hx hys
    rw [hnext x hx] at hys
    cases hys
    exact .rfl
  obtain ⟨out, hout, hraised⟩ := search_ends ok (fun e he _ => hok e he) hperm hs
  cases out with
  | ok out => exact ⟨out, hout⟩
  | error e =>
    obtain ⟨x, hx, hask⟩ := hraised e rfl
    rw [hnext x hx] at hask
    cases hask

/-! ## How often it is found -/

/-- What was found are the targets of what was seen, and nothing was seen twice. -/
structure Gathered (edges : List (α × α)) (s : α) (seen found : List α) : Prop where
  distinct : seen.Nodup
  reached : ∀ x ∈ seen, Relation.ReflTransGen (fun x y => (x, y) ∈ edges) s x
  gathered : found.Perm (seen.flatMap (targets edges))

theorem Gathered.ask {edges : List (α × α)} (h : Gathered edges s seen found) (hseen : x ∉ seen)
    (hx : Relation.ReflTransGen (fun x y => (x, y) ∈ edges) s x) (hys : ys.Perm (targets edges x)) :
    Gathered edges s (x :: seen) (found ++ ys) where
  distinct := List.nodup_cons.2 ⟨hseen, h.distinct⟩
  reached y hy := by
    rcases List.mem_cons.1 hy with rfl | hy
    · exact hx
    · exact h.reached y hy
  gathered := by
    rw [List.flatMap_cons]
    exact (h.gathered.append hys).trans List.perm_append_comm

/-- What a search has found are the targets of some elements, each once: those its start leads to in
any number of steps. -/
theorem search_gathered {edges : List (α × α)} {next : α → Except ε (List α)} {fuel : ℕ} {out : List α}
    (hnext : ∀ x ys, next x = .ok ys → ys.Perm (targets edges x))
    (hsearch : Searching (fun x y => (x, y) ∈ edges) s frontier seen found)
    (h : Gathered edges s seen found) (hout : search next fuel frontier seen found = some (.ok out)) :
    ∃ visited, Gathered edges s visited out ∧
      ∀ x, Relation.ReflTransGen (fun x y => (x, y) ∈ edges) s x → x ∈ visited := by
  induction fuel generalizing frontier seen found with
  | zero => cases hout
  | succ fuel ih =>
    cases frontier with
    | nil =>
      cases hout
      refine ⟨seen, h, fun x hx => ?_⟩
      rcases Relation.reflTransGen_iff_eq_or_transGen.1 hx with rfl | hx
      · exact hsearch.start.resolve_right List.not_mem_nil
      · exact (hsearch.covered x ((hsearch.done x).2 hx)).resolve_right List.not_mem_nil
    | cons x frontier =>
      rw [search] at hout
      split at hout
      · next hx => exact ih (hsearch.skip hx) h hout
      · next hseen =>
        split at hout
        · next ys hys =>
          have hperm := hnext x ys hys
          have hx := hsearch.pending x List.mem_cons_self
          have hmem : ∀ y, y ∈ ys ↔ (x, y) ∈ edges := fun y => hperm.mem_iff.trans mem_targets
          exact ih (hsearch.ask hmem) (h.ask hseen hx hperm) hout
        · cases hout

/-- The targets of some elements, each once, are the ends of the edges that leave them. -/
theorem flatMap_targets {edges : List (α × α)} {visited : List α} (h : visited.Nodup) :
    (visited.flatMap (targets edges)).Perm ((edges.filter fun e => e.1 ∈ visited).map Prod.snd) := by
  induction visited with
  | nil => simp
  | cons x visited ih =>
    obtain ⟨hx, hvisited⟩ := List.nodup_cons.1 h
    have hsplit := List.filter_append_perm (fun e : α × α => decide (e.1 = x))
      (edges.filter fun e => e.1 ∈ x :: visited)
    have hleft : (edges.filter fun e => e.1 ∈ x :: visited).filter (fun e => decide (e.1 = x)) =
        edges.filter fun e => e.1 = x := by
      rw [List.filter_filter]
      refine List.filter_congr fun e _ => ?_
      by_cases he : e.1 = x <;> simp [he]
    have hright : (edges.filter fun e => e.1 ∈ x :: visited).filter (fun e => !decide (e.1 = x)) =
        edges.filter fun e => e.1 ∈ visited := by
      rw [List.filter_filter]
      refine List.filter_congr fun e _ => ?_
      by_cases he : e.1 = x <;> simp [he, hx]
    rw [hleft, hright] at hsplit
    rw [List.flatMap_cons]
    have hends := hsplit.map Prod.snd
    rw [List.map_append] at hends
    exact ((List.Perm.refl _).append (ih hvisited)).trans hends

open Classical in
/-- **A search finds the end of every edge that leaves an element reached, once for each edge.** -/
theorem search_perm {edges : List (α × α)} {next : α → Except ε (List α)} {fuel : ℕ} {out : List α}
    (hnext : ∀ x ys, next x = .ok ys → ys.Perm (targets edges x))
    (hout : search next fuel [s] [] [] = some (.ok out)) :
    out.Perm ((edges.filter fun e =>
      Relation.ReflTransGen (fun x y => (x, y) ∈ edges) s e.1).map Prod.snd) := by
  have hstart : Gathered edges s [] [] := ⟨.nil, fun x hx => (List.not_mem_nil hx).elim, .refl _⟩
  obtain ⟨visited, h, hall⟩ := search_gathered hnext (searching_start _ s) hstart hout
  have hvisited : (edges.filter fun e => e.1 ∈ visited) =
      edges.filter fun e => Relation.ReflTransGen (fun x y => (x, y) ∈ edges) s e.1 := by
    refine List.filter_congr fun e _ => decide_eq_decide.2 ⟨h.reached e.1, hall e.1⟩
  rw [← hvisited]
  exact h.gathered.trans (flatMap_targets h.distinct)

end LineageVault.Foundations
