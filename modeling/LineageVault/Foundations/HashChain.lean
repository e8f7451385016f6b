import Mathlib.Data.List.Induction
import Mathlib.Data.List.Nodup

/-! # Hash chains

A chain over bodies `B` with digests `H`: every link carries the digest before it, its body, and the
digest of the two. `hash` is any function; what injectivity buys is stated where it is used.

* `Linked hash g ls`: the links of `ls` follow one another from the digest `g`.
* `headFrom g ls`: the digest a further link has to name.
* `eq_of_head_eq`: over chains from the same `g`, the head determines every link, provided `hash`
  does not confuse two links of these chains and none of them has the digest `g`.
* `linked_iff_prefix`: of the lists made of links of one chain, its prefixes alone are chains.
-/

namespace LineageVault.Foundations
set_option autoImplicit false

structure Link (H B : Type) where
  prev : H
  body : B
  digest : H

namespace HashChain
variable {H B : Type} (hash : H → B → H)

def Linked : H → List (Link H B) → Prop
  | _, [] => True
  | g, l :: ls => l.prev = g ∧ l.digest = hash l.prev l.body ∧ Linked l.digest ls

def headFrom (g : H) (ls : List (Link H B)) : H := (ls.getLast?.map Link.digest).getD g

@[simp] theorem headFrom_nil (g : H) : headFrom g ([] : List (Link H B)) = g := rfl

@[simp] theorem headFrom_concat (g : H) (ls : List (Link H B)) (l : Link H B) :
    headFrom g (ls ++ [l]) = l.digest := by
  simp [headFrom]

@[simp] theorem headFrom_cons (g : H) (l : Link H B) (ls : List (Link H B)) :
    headFrom g (l :: ls) = headFrom l.digest ls := by
  cases ls with
  | nil => rfl
  | cons m ls => simp [headFrom, List.getLast?_eq_some_getLast]

theorem linked_append (g : H) (xs ys : List (Link H B)) :
    Linked hash g (xs ++ ys) ↔ Linked hash g xs ∧ Linked hash (headFrom g xs) ys := by
  induction xs generalizing g with
  | nil => simp [Linked]
  | cons l xs ih => simp only [List.cons_append, Linked, ih, headFrom_cons, and_assoc]

/-- Appending keeps a chain exactly when the new link names the head and is hashed from it. -/
theorem linked_concat (g : H) (ls : List (Link H B)) (l : Link H B) :
    Linked hash g (ls ++ [l]) ↔
      Linked hash g ls ∧ l.prev = headFrom g ls ∧ l.digest = hash l.prev l.body := by
  simp [linked_append, Linked]

theorem linked_head {g : H} {ls : List (Link H B)} {l : Link H B} (h : Linked hash g ls)
    (hl : ls.head? = some l) : l.prev = g := by
  cases ls with
  | nil => cases hl
  | cons m ls => cases hl; exact h.1

/-- Each link names the digest of the one before it. -/
theorem linked_next {g : H} {ls : List (Link H B)} {l m : Link H B} {i : ℕ} (h : Linked hash g ls)
    (hl : ls[i]? = some l) (hm : ls[i + 1]? = some m) : m.prev = l.digest := by
  induction ls generalizing g i with
  | nil => cases hl
  | cons k ls ih =>
    cases i with
    | zero =>
      cases hl
      exact linked_head hash h.2.2 (by simpa [List.head?_eq_getElem?] using hm)
    | succ i => exact ih h.2.2 (by simpa using hl) (by simpa using hm)

theorem linked_digest {g : H} {ls : List (Link H B)} {l : Link H B} (h : Linked hash g ls)
    (hl : l ∈ ls) : l.digest = hash l.prev l.body := by
  induction ls generalizing g with
  | nil => cases hl
  | cons k ls ih =>
    rcases List.mem_cons.1 hl with rfl | hl
    · exact h.2.1
    · exact ih h.2.2 hl

/-- What holds of the first digest and of every hash holds of every digest a link names. -/
theorem linked_prev {Q : H → Prop} (hhash : ∀ p b, Q (hash p b)) {g : H} (hg : Q g)
    {ls : List (Link H B)} {l : Link H B} (h : Linked hash g ls) (hl : l ∈ ls) : Q l.prev := by
  induction ls generalizing g with
  | nil => cases hl
  | cons k ls ih =>
    rcases List.mem_cons.1 hl with rfl | hl
    · exact h.1 ▸ hg
    · exact ih (h.2.1 ▸ hhash _ _) h.2.2 hl

theorem linked_headFrom {Q : H → Prop} (hhash : ∀ p b, Q (hash p b)) {g : H} (hg : Q g)
    {ls : List (Link H B)} (h : Linked hash g ls) : Q (headFrom g ls) := by
  induction ls generalizing g with
  | nil => exact hg
  | cons k ls ih =>
    rw [headFrom_cons]
    exact ih (h.2.1 ▸ hhash _ _) h.2.2

/-- **The head commits to the whole chain.** The induction peels links off the right end: equal
digests give equal previous digests, which are the heads of the two shorter chains. -/
theorem eq_of_head_eq {g : H} {xs ys : List (Link H B)}
    (hx : Linked hash g xs) (hy : Linked hash g ys)
    (hinj : ∀ l ∈ xs, ∀ m ∈ ys, hash l.prev l.body = hash m.prev m.body →
      l.prev = m.prev ∧ l.body = m.body)
    (hgx : ∀ l ∈ xs, l.digest ≠ g) (hgy : ∀ l ∈ ys, l.digest ≠ g)
    (hhead : headFrom g xs = headFrom g ys) : xs = ys := by
  induction xs using List.reverseRecOn generalizing ys with
  | nil =>
    cases ys using List.reverseRecOn with
    | nil => rfl
    | append_singleton ys m =>
      rw [headFrom_nil, headFrom_concat] at hhead
      exact absurd hhead.symm (hgy m (by simp))
  | append_singleton xs l ih =>
    cases ys using List.reverseRecOn with
    | nil =>
      rw [headFrom_nil, headFrom_concat] at hhead
      exact absurd hhead (hgx l (by simp))
    | append_singleton ys m =>
      rw [headFrom_concat, headFrom_concat] at hhead
      obtain ⟨hxs, hlp, hld⟩ := (linked_concat hash g xs l).1 hx
      obtain ⟨hys, hmp, hmd⟩ := (linked_concat hash g ys m).1 hy
      obtain ⟨hprev, hbody⟩ := hinj l (by simp) m (by simp) (by rw [← hld, ← hmd, hhead])
      have hlm : l = m := by
        cases l; cases m
        simp only at hprev hbody hhead
        rw [hprev, hbody, hhead]
      have hrest : xs = ys := by
        refine ih hxs hys (fun a ha b hb => hinj a (by simp [ha]) b (by simp [hb]))
          (fun a ha => hgx a (by simp [ha])) (fun b hb => hgy b (by simp [hb])) ?_
        rw [← hlp, ← hmp, hprev]
      rw [hrest, hlm]

/-! ## Where a link stands

`digests g ls` holds the digest before each link, and the head at its end. No digest occurs in it
twice, provided `hash` does not confuse two links of the chain and gives none of them `g`: so the
digest a link names says where in the chain it stands. -/

def digests (g : H) (ls : List (Link H B)) : List H := g :: ls.map Link.digest

theorem digests_concat (g : H) (ls : List (Link H B)) (l : Link H B) :
    digests g (ls ++ [l]) = digests g ls ++ [l.digest] := by
  simp [digests]

theorem digests_succ (g : H) (ls : List (Link H B)) (i : ℕ) :
    (digests g ls)[i + 1]? = ls[i]?.map Link.digest := by
  simp [digests]

theorem linked_at {g : H} {ls : List (Link H B)} {l : Link H B} {i : ℕ} (h : Linked hash g ls)
    (hl : ls[i]? = some l) : (digests g ls)[i]? = some l.prev := by
  cases i with
  | zero =>
    rw [linked_head hash h (by rwa [List.head?_eq_getElem?])]
    rfl
  | succ i =>
    have hlt : i < ls.length := by
      have := (List.getElem?_eq_some_iff.1 hl).1
      omega
    have hi : ls[i]? = some ls[i] := List.getElem?_eq_getElem hlt
    rw [digests_succ, hi, linked_next hash h hi hl]
    rfl

theorem digests_head (g : H) (ls : List (Link H B)) :
    (digests g ls)[ls.length]? = some (headFrom g ls) := by
  induction ls using List.reverseRecOn with
  | nil => rfl
  | append_singleton ls l _ => rw [digests_concat, headFrom_concat]; simp [digests]

theorem digests_nodup {g : H} {ls : List (Link H B)} (h : Linked hash g ls)
    (hinj : ∀ l ∈ ls, ∀ m ∈ ls, l.digest = m.digest → l.prev = m.prev)
    (hg : ∀ l ∈ ls, l.digest ≠ g) : (digests g ls).Nodup := by
  induction ls using List.reverseRecOn with
  | nil => simp [digests]
  | append_singleton ls l ih =>
    obtain ⟨hls, hprev, -⟩ := (linked_concat hash g ls l).1 h
    have hd := ih hls (fun a ha b hb => hinj a (by simp [ha]) b (by simp [hb]))
      fun a ha => hg a (by simp [ha])
    rw [digests_concat]
    refine List.nodup_append.2 ⟨hd, List.nodup_singleton _, fun d hmem _ hl => ?_⟩
    rw [List.mem_singleton.1 hl]
    rintro rfl
    -- a link with the digest of `l` would name the head, and the head stands at the end only
    rcases List.mem_cons.1 hmem with he | hmem
    · exact hg l (by simp) he
    · obtain ⟨m, hm, he⟩ := List.mem_map.1 hmem
      have hmprev := hinj m (by simp [hm]) l (by simp) he
      obtain ⟨i, hi⟩ := List.mem_iff_getElem?.1 hm
      have hlt : i < ls.length := (List.getElem?_eq_some_iff.1 hi).1
      have hat := linked_at hash hls hi
      rw [hmprev, hprev, ← digests_head g ls] at hat
      have hlt' : i < (digests g ls).length := by simp only [digests, List.length_cons, List.length_map]; omega
      have := (List.getElem?_inj hlt' hd).1 hat
      omega

/-- **What is left of a chain is a chain only if its end is missing.** Links of a chain, taken out,
repeated and put into any order, follow one another from `g` exactly when they are its first ones. -/
theorem linked_iff_prefix {g : H} {xs ys : List (Link H B)} (hx : Linked hash g xs)
    (hinj : ∀ l ∈ xs, ∀ m ∈ xs, l.digest = m.digest → l.prev = m.prev)
    (hg : ∀ l ∈ xs, l.digest ≠ g) (hy : ∀ l ∈ ys, l ∈ xs) : Linked hash g ys ↔ ys <+: xs := by
  constructor
  · intro h
    have hd := digests_nodup hash hx hinj hg
    -- the digest that a link of `ys` names stands at one place of `xs`
    have hplace : ∀ {i : ℕ} {l : Link H B}, ys[i]? = some l →
        (digests g xs)[i]? = some l.prev → xs[i]? = some l := by
      intro i l hl hi
      obtain ⟨j, hj⟩ := List.mem_iff_getElem?.1 (hy l (List.mem_of_getElem? hl))
      have hat := linked_at hash hx hj
      have hlt : j < (digests g xs).length := (List.getElem?_eq_some_iff.1 hat).1
      rwa [(List.getElem?_inj hlt hd).1 (hat.trans hi.symm)] at hj
    have hall : ∀ (i : ℕ) (l : Link H B), ys[i]? = some l → xs[i]? = some l := by
      intro i
      induction i with
      | zero =>
        intro l hl
        refine hplace hl ?_
        rw [linked_head hash h (by rwa [List.head?_eq_getElem?])]
        rfl
      | succ i ih =>
        intro l hl
        have hlt : i < ys.length := by
          have := (List.getElem?_eq_some_iff.1 hl).1
          omega
        have hi : ys[i]? = some ys[i] := List.getElem?_eq_getElem hlt
        refine hplace hl ?_
        rw [digests_succ, ih _ hi, linked_next hash h hi hl]
        rfl
    exact List.prefix_iff_getElem?.2 fun i hi => hall i _ (List.getElem?_eq_getElem hi)
  · rintro ⟨zs, rfl⟩
    exact ((linked_append hash g ys zs).1 hx).1

/-- A chain with other bodies is one as long as every digest is still the one of its link. -/
theorem linked_map_iff {α : Type} {f f' : α → Link H B} (hprev : ∀ x, (f' x).prev = (f x).prev)
    (hdigest : ∀ x, (f' x).digest = (f x).digest) {g : H} {xs : List α}
    (h : Linked hash g (xs.map f)) :
    Linked hash g (xs.map f') ↔ ∀ x ∈ xs, (f x).digest = hash (f x).prev (f' x).body := by
  induction xs generalizing g with
  | nil => simp [Linked]
  | cons x xs ih =>
    obtain ⟨hx, -, hxs⟩ := h
    simp only [List.map_cons, Linked, hprev, hdigest, ih hxs, List.forall_mem_cons, hx, true_and]

end HashChain
end LineageVault.Foundations
