import Mathlib.Data.List.Basic
import Mathlib.Order.MinMax

/-!
# Growable tables

A vector read as a table with a default value: `get` reads an absent entry as the
default, `put` grows the vector with the default up to the entry written.

* `get_resize`, `get_put`: what the two operations leave at each place.
* `get_fill`, `length_fill`: writing a value over a range.
* `lastIdx`: of several writers, the last one that writes to a place.
-/

namespace Table

variable {α : Type*}

/-- `std::vector::resize(n, v)`. -/
def resize (n : ℕ) (v : α) (l : List α) : List α := l.take n ++ List.replicate (n - l.length) v

/-- The entry at `k`, or the default. -/
def get (d : α) (l : List α) (k : ℕ) : α := l[k]?.getD d

/-- Write at `k`, growing when needed. -/
def put (d v : α) (l : List α) (k : ℕ) : List α :=
  if k < l.length then l.set k v else (resize (k + 1) d l).set k v

/-- Write at `a`, …, `a + n - 1`. -/
def fill (d v : α) (l : List α) (a : ℕ) : ℕ → List α
  | 0 => l
  | n + 1 => fill d v (put d v l a) (a + 1) n

variable {d v : α} {l : List α}

/-- Tables of one length that read the same. -/
theorem eq_of_get {l l' : List α} (hlen : l.length = l'.length) (h : ∀ k, get d l k = get d l' k) : l = l' := by
  refine List.ext_getElem hlen fun k hk hk' => ?_
  have hget := h k
  unfold get at hget
  rwa [List.getElem?_eq_getElem hk, List.getElem?_eq_getElem hk', Option.getD_some, Option.getD_some] at hget

@[simp] theorem length_resize (n : ℕ) : (resize n v l).length = n := by
  unfold resize
  rw [List.length_append, List.length_take, List.length_replicate]
  omega

theorem get_resize (n k : ℕ) : get d (resize n d l) k = if k < n then get d l k else d := by
  unfold get resize
  by_cases hk : k < n
  · rw [if_pos hk]
    by_cases hl : k < l.length
    · rw [List.getElem?_append_left (by rw [List.length_take]; omega), List.getElem?_take_of_lt hk]
    · rw [List.getElem?_append_right (by rw [List.length_take]; omega), List.getElem?_replicate,
        List.getElem?_eq_none (Nat.not_lt.1 hl)]
      split <;> rfl
  · rw [if_neg hk, List.getElem?_eq_none]
    · rfl
    · rw [List.length_append, List.length_take, List.length_replicate]
      omega

theorem length_put (k : ℕ) : (put d v l k).length = max l.length (k + 1) := by
  unfold put
  by_cases hk : k < l.length
  · rw [if_pos hk, List.length_set]
    omega
  · rw [if_neg hk, List.length_set, length_resize]
    omega

theorem get_put (k j : ℕ) : get d (put d v l k) j = if j = k then v else get d l j := by
  unfold put
  by_cases hk : k < l.length
  · rw [if_pos hk]
    unfold get
    rw [List.getElem?_set]
    by_cases hj : k = j
    · rw [if_pos hj, if_pos hk, if_pos hj.symm]
      rfl
    · rw [if_neg hj, if_neg (Ne.symm hj)]
  · rw [if_neg hk]
    have hset : get d ((resize (k + 1) d l).set k v) j = if j = k then v else get d (resize (k + 1) d l) j := by
      unfold get
      rw [List.getElem?_set]
      by_cases hj : k = j
      · rw [if_pos hj, if_pos (by rw [length_resize]; omega), if_pos hj.symm]
        rfl
      · rw [if_neg hj, if_neg (Ne.symm hj)]
    rw [hset, get_resize]
    by_cases hj : j < k + 1
    · rw [if_pos hj]
    · -- beyond the old end and the new one
      rw [if_neg hj, if_neg (by omega), if_neg (by omega)]
      unfold get
      rw [List.getElem?_eq_none (by omega)]
      rfl

theorem length_fill : ∀ (n a : ℕ) (l : List α), (fill d v l a n).length = if n = 0 then l.length else max l.length (a + n) := by
  intro n
  induction n with
  | zero => intro a l; rfl
  | succ n ih =>
    intro a l
    unfold fill
    rw [ih, length_put]
    split <;> simp <;> omega

/-- **A range written.** -/
theorem get_fill : ∀ (n a : ℕ) (l : List α) (k : ℕ),
    get d (fill d v l a n) k = if a ≤ k ∧ k < a + n then v else get d l k := by
  intro n
  induction n with
  | zero => intro a l k; rw [if_neg (by omega)]; rfl
  | succ n ih =>
    intro a l k
    unfold fill
    rw [ih, get_put]
    by_cases h1 : a + 1 ≤ k ∧ k < a + 1 + n
    · rw [if_pos h1, if_pos (by omega)]
    · rw [if_neg h1]
      by_cases h2 : k = a
      · rw [if_pos h2, if_pos (by omega)]
      · rw [if_neg h2, if_neg (by omega)]

/-! ## The last writer -/

section Writers

variable {β : Type*}

/-- The place of the last element that satisfies `p`, counted from `n`, or `z`. -/
def lastIdx (p : β → Bool) (z : ℤ) : ℕ → List β → ℤ
  | _, [] => z
  | n, b :: bs => lastIdx p (if p b then n else z) (n + 1) bs

variable {p : β → Bool} {z : ℤ}

theorem lastIdx_of_none : ∀ {bs : List β} {n : ℕ}, (∀ b ∈ bs, p b = false) → lastIdx p z n bs = z := by
  intro bs
  induction bs with
  | nil => intro n _; rfl
  | cons b bs ih =>
    intro n h
    obtain ⟨hb, hbs⟩ := List.forall_mem_cons.1 h
    unfold lastIdx
    rw [if_neg (by rw [hb]; simp), ih hbs]

/-- **The last writer.** -/
theorem lastIdx_of_last : ∀ {bs : List β} {n i : ℕ} {b : β}, bs[i]? = some b → p b = true →
    (∀ j b', i < j → bs[j]? = some b' → p b' = false) → lastIdx p z n bs = (n + i : ℕ) := by
  intro bs
  induction bs generalizing z with
  | nil => intro n i b h; simp at h
  | cons b₀ bs ih =>
    intro n i b h hb hlast
    unfold lastIdx
    cases i with
    | zero =>
      rw [List.getElem?_cons_zero, Option.some.injEq] at h
      subst h
      rw [if_pos hb, lastIdx_of_none, Nat.add_zero]
      intro b' hb'
      obtain ⟨j, hj⟩ := List.getElem?_of_mem hb'
      exact hlast (j + 1) b' (Nat.succ_pos j) (by rwa [List.getElem?_cons_succ])
    | succ i =>
      rw [List.getElem?_cons_succ] at h
      rw [ih h hb fun j b' hj hb' => hlast (j + 1) b' (Nat.succ_lt_succ hj) (by rwa [List.getElem?_cons_succ])]
      congr 1
      omega

theorem lastIdx_map {γ : Type*} (f : β → γ) (p : γ → Bool) : ∀ (bs : List β) (z : ℤ) (n : ℕ),
    lastIdx p z n (bs.map f) = lastIdx (fun b => p (f b)) z n bs := by
  intro bs
  induction bs with
  | nil => intro z n; rfl
  | cons b bs ih => intro z n; exact ih _ _

/-- Either nobody satisfies `p`, or there is a last one who does. -/
theorem exists_last (p : β → Bool) : ∀ bs : List β, (∀ b ∈ bs, p b = false) ∨
    ∃ i b, bs[i]? = some b ∧ p b = true ∧ ∀ (j : ℕ) b', i < j → bs[j]? = some b' → p b' = false := by
  intro bs
  induction bs with
  | nil => exact Or.inl (by simp)
  | cons b bs ih =>
    rcases ih with hno | ⟨i, b', hi, hb', hlast⟩
    · cases hb : p b with
      | true =>
        refine Or.inr ⟨0, b, rfl, hb, fun j b' hj hb' => ?_⟩
        obtain ⟨j, rfl⟩ : ∃ m, j = m + 1 := ⟨j - 1, by omega⟩
        rw [List.getElem?_cons_succ] at hb'
        exact hno b' (List.mem_of_getElem? hb')
      | false => exact Or.inl (List.forall_mem_cons.2 ⟨hb, hno⟩)
    · refine Or.inr ⟨i + 1, b', by rwa [List.getElem?_cons_succ], hb', fun j b'' hj hb'' => ?_⟩
      obtain ⟨j, rfl⟩ : ∃ m, j = m + 1 := ⟨j - 1, by omega⟩
      rw [List.getElem?_cons_succ] at hb''
      exact hlast j b'' (by omega) hb''

/-- Either nobody writes, or there is a last one. -/
theorem lastIdx_cases (p : β → Bool) (z : ℤ) (bs : List β) (n : ℕ) :
    (lastIdx p z n bs = z ∧ ∀ b ∈ bs, p b = false) ∨
      ∃ i b, bs[i]? = some b ∧ p b = true ∧ (∀ z', lastIdx p z' n bs = (n + i : ℕ)) := by
  rcases exists_last p bs with hno | ⟨i, b, hi, hb, hlast⟩
  · exact Or.inl ⟨lastIdx_of_none hno, hno⟩
  · exact Or.inr ⟨i, b, hi, hb, fun z' => lastIdx_of_last hi hb hlast⟩

/-- The last writer is one of those there are. -/
theorem lastIdx_range (p : β → Bool) (z : ℤ) (bs : List β) :
    lastIdx p z 0 bs = z ∨ ∃ i < bs.length, lastIdx p z 0 bs = (i : ℕ) := by
  rcases lastIdx_cases p z bs 0 with ⟨h, -⟩ | ⟨i, b, hi, -, h⟩
  · exact Or.inl h
  · refine Or.inr ⟨i, (List.getElem?_eq_some_iff.1 hi).1, ?_⟩
    rw [h, Nat.zero_add]

theorem lastIdx_congr {q : β → Bool} : ∀ {bs : List β} (z : ℤ) (n : ℕ), (∀ b ∈ bs, p b = q b) →
    lastIdx p z n bs = lastIdx q z n bs := by
  intro bs
  induction bs with
  | nil => intro z n _; rfl
  | cons b bs ih =>
    intro z n h
    obtain ⟨hb, hbs⟩ := List.forall_mem_cons.1 h
    unfold lastIdx
    rw [hb, ih _ _ hbs]

/-- **More writers** leave the last one as it is exactly when none of them comes after it. -/
theorem lastIdx_or (q : β → Bool) (hz : z < 0) (bs : List β) :
    lastIdx (fun b => p b || q b) z 0 bs = lastIdx p z 0 bs ↔
      ∀ (i : ℕ) b, bs[i]? = some b → q b = true → ∃ (j : ℕ) (b' : β), i ≤ j ∧ bs[j]? = some b' ∧ p b' = true := by
  rcases exists_last (fun b => p b || q b) bs with hno | ⟨i, b, hi, hb, hlast⟩
  · have hp : ∀ b ∈ bs, p b = false := fun b hb => (Bool.or_eq_false_iff.1 (hno b hb)).1
    refine iff_of_true (by rw [lastIdx_of_none hno, lastIdx_of_none hp]) fun i b hi hq => ?_
    rw [(Bool.or_eq_false_iff.1 (hno b (List.mem_of_getElem? hi))).2] at hq
    exact absurd hq (by simp)
  · have hp : ∀ (j : ℕ) b', i < j → bs[j]? = some b' → p b' = false := fun j b' hj hb' =>
      (Bool.or_eq_false_iff.1 (hlast j b' hj hb')).1
    have hor : lastIdx (fun b => p b || q b) z 0 bs = (0 + i : ℕ) := lastIdx_of_last hi hb hlast
    cases hpb : p b with
    | true =>
      refine iff_of_true (by rw [hor, lastIdx_of_last hi hpb hp]) fun k b' hk hq => ⟨i, b, ?_, hi, hpb⟩
      -- nobody comes after the last writer
      by_contra hik
      rw [(Bool.or_eq_false_iff.1 (hlast k b' (by omega) hk)).2] at hq
      exact absurd hq (by simp)
    | false =>
      rw [hpb, Bool.false_or] at hb
      refine iff_of_false (fun heq => ?_) fun h => ?_
      · rcases lastIdx_cases p z bs 0 with ⟨hz', -⟩ | ⟨k, b', hk, hb', hk'⟩
        · omega
        · obtain rfl : k = i := by have := hk' z; omega
          rw [hi, Option.some.injEq] at hk
          rw [← hk, hpb] at hb'
          exact absurd hb' (by simp)
      · obtain ⟨j, b', hij, hj, hpb'⟩ := h i b hi hb
        rcases Nat.eq_or_lt_of_le hij with rfl | hlt
        · rw [hi, Option.some.injEq] at hj
          rw [← hj, hpb] at hpb'
          exact absurd hpb' (by simp)
        · rw [hp j b' hlt hj] at hpb'
          exact absurd hpb' (by simp)

end Writers

end Table
