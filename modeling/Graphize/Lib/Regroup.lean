import Mathlib.Data.List.Perm.Basic

/-!
# Lists taken apart and put together

* `flatMap_filter_perm`: the elements grouped by a key.
* `flatMap_chunks`: the elements cut into chunks of one length.
* `filterMap_or_perm`: two partial functions that are never both defined.
* `filter_flatMap_of`: a selection that does not divide the blocks.
* `flatMap_zipIdx_at`: the element at one place among the numbered ones.
* `mapM_eq_some_iff`: a partial function that is defined on every element.
-/

namespace Regroup

variable {α β κ : Type*}

/-- **Grouping by a key** keeps the elements. -/
theorem flatMap_filter_perm [DecidableEq κ] (f : α → κ) : ∀ (ks : List κ) (l : List α), ks.Nodup →
    (∀ x ∈ l, f x ∈ ks) → (ks.flatMap fun k => l.filter fun x => f x = k).Perm l := by
  intro ks
  induction ks with
  | nil =>
    intro l _ h
    obtain rfl : l = [] := List.eq_nil_iff_forall_not_mem.2 fun x hx => absurd (h x hx) (by simp)
    simp
  | cons k ks ih =>
    intro l hnd h
    obtain ⟨hk, hnd⟩ := List.nodup_cons.1 hnd
    -- the groups that follow do not see the elements of the first one
    have hrest : (ks.flatMap fun k' => l.filter fun x => f x = k') =
        ks.flatMap fun k' => (l.filter fun x => !decide (f x = k)).filter fun x => f x = k' := by
      refine List.flatMap_congr fun k' hk' => ?_
      rw [List.filter_filter]
      refine List.filter_congr fun x _ => ?_
      by_cases hx : f x = k'
      · have hne : k' ≠ k := by
          rintro rfl
          exact hk hk'
        simp [hx, hne]
      · simp [hx]
    have htail := ih (l.filter fun x => !decide (f x = k)) hnd (by
      intro x hx
      obtain ⟨hx, hne⟩ := List.mem_filter.1 hx
      rcases List.mem_cons.1 (h x hx) with heq | hmem
      · simp [heq] at hne
      · exact hmem)
    rw [List.flatMap_cons, hrest]
    exact (htail.append_left _).trans (List.filter_append_perm _ l)

/-- **Chunks of one length** make up the list. -/
theorem flatMap_chunks (step : ℕ) : ∀ (n : ℕ) (l : List α), l.length ≤ n * step →
    ((List.range n).flatMap fun m => (l.drop (m * step)).take step) = l := by
  intro n
  induction n with
  | zero =>
    intro l h
    rw [Nat.zero_mul] at h
    rw [List.eq_nil_of_length_eq_zero (Nat.le_zero.1 h)]
    rfl
  | succ n ih =>
    intro l h
    have htail := ih (l.drop step) (by rw [List.length_drop, Nat.succ_mul] at *; omega)
    have hnext : ∀ m, (l.drop ((m + 1) * step)).take step = ((l.drop step).drop (m * step)).take step := by
      intro m
      rw [List.drop_drop, Nat.succ_mul, Nat.add_comm]
    rw [List.range_succ_eq_map, List.flatMap_cons, Nat.zero_mul, List.drop_zero, List.flatMap_map]
    simp only [Nat.succ_eq_add_one, hnext]
    rw [htail, List.take_append_drop]

/-- Two partial functions that are never both defined. -/
theorem filterMap_or_perm {f g : α → Option β} (h : ∀ x, f x = none ∨ g x = none) : ∀ l : List α,
    (l.filterMap fun x => (f x).or (g x)).Perm (l.filterMap f ++ l.filterMap g) := by
  intro l
  induction l with
  | nil => exact .refl _
  | cons x l ih =>
    rw [List.filterMap_cons, List.filterMap_cons, List.filterMap_cons]
    rcases h x with hf | hg
    · rw [hf, Option.none_or]
      cases hg : g x with
      | none => exact ih
      | some y => exact (ih.cons y).trans (List.perm_middle.symm)
    · rw [hg, Option.or_none]
      cases f x with
      | none => exact ih
      | some y => exact ih.cons y

/-- **A selection of whole blocks.** -/
theorem filter_flatMap_of (p : α → Bool) (q : β → Bool) (f : α → List β) : ∀ l : List α,
    (∀ a ∈ l, ∀ x ∈ f a, q x = p a) → (l.flatMap f).filter q = (l.filter p).flatMap f := by
  intro l
  induction l with
  | nil => intro _; rfl
  | cons a l ih =>
    intro h
    obtain ⟨ha, hl⟩ := List.forall_mem_cons.1 h
    rw [List.flatMap_cons, List.filter_append, ih hl]
    by_cases hp : p a = true
    · rw [List.filter_cons_of_pos hp, List.flatMap_cons, List.filter_eq_self.2 fun x hx => (ha x hx).trans hp]
    · rw [List.filter_cons_of_neg hp, List.filter_eq_nil_iff.2 fun x hx => by rw [ha x hx]; exact hp]
      rfl

/-- **The element at one place.** -/
theorem flatMap_zipIdx_at (f : α → List β) {a : α} : ∀ (l : List α) (n i : ℕ), l[i]? = some a →
    ((l.zipIdx n).filter fun e => e.2 = n + i).flatMap (fun e => f e.1) = f a := by
  intro l
  induction l with
  | nil => intro n i h; exact absurd h (by simp)
  | cons x l ih =>
    intro n i h
    rw [List.zipIdx_cons]
    cases i with
    | zero =>
      rw [List.getElem?_cons_zero, Option.some.injEq] at h
      have hrest : (l.zipIdx (n + 1)).filter (fun e => e.2 = n + 0) = [] := by
        rw [List.filter_eq_nil_iff]
        intro e he
        have hle := List.le_snd_of_mem_zipIdx he
        simp only [decide_eq_true_eq]
        omega
      rw [List.filter_cons_of_pos (by simp), hrest, List.flatMap_singleton, h]
    | succ i =>
      rw [List.getElem?_cons_succ] at h
      have hplace : (fun e : α × ℕ => decide (e.2 = n + (i + 1))) = fun e => decide (e.2 = n + 1 + i) := by
        funext e
        rw [Nat.add_assoc, Nat.add_comm 1 i]
      rw [List.filter_cons_of_neg (by simp), hplace]
      exact ih (n + 1) i h

/-- A partial function on each element. -/
theorem mapM_eq_some_iff {f : α → Option β} : ∀ {l : List α} {l' : List β},
    l.mapM f = some l' ↔ l.map f = l'.map some := by
  intro l
  induction l with
  | nil =>
    intro l'
    cases l' <;> simp
  | cons a l ih =>
    intro l'
    rw [List.mapM_cons, List.map_cons]
    cases ha : f a with
    | none => cases l' <;> simp
    | some b =>
      cases l' with
      | nil => cases hl : l.mapM f <;> simp
      | cons b' l' =>
        rw [List.map_cons, List.cons.injEq, ← ih]
        cases hl : l.mapM f <;> simp

end Regroup
