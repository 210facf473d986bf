import Mathlib.Algebra.BigOperators.Group.List.Basic
import Mathlib.Algebra.Order.BigOperators.Group.List
import Mathlib.Algebra.GroupWithZero.Nat
import Mathlib.Tactic.Ring

/-!
# Threads as lists of what is left to do

A state has a list of threads, each a list of operations; a step replaces the list of
one thread and may add threads. `total w` sums the weights of everything that is left.

* `weight_set`, `total_set`, `flatMap_set`: what replacing one entry, or the list of one thread,
  does.
* `le_total`, `exists_of_total_pos`: a total is positive exactly when something with a
  positive weight is left.
* `append_eq_append_cons`: where an entry of a log that has grown comes from.
-/

namespace Threads

variable {α : Type*} {w : α → ℕ}

/-- The weight of a list of operations. -/
def weight (w : α → ℕ) (ops : List α) : ℕ := (ops.map w).sum

@[simp] theorem weight_nil : weight w [] = 0 := rfl

@[simp] theorem weight_cons (op : α) (ops : List α) : weight w (op :: ops) = w op + weight w ops := by
  unfold weight
  rw [List.map_cons, List.sum_cons]

@[simp] theorem weight_append (ops ops' : List α) : weight w (ops ++ ops') = weight w ops + weight w ops' := by
  unfold weight
  rw [List.map_append, List.sum_append]

theorem le_weight {op : α} {ops : List α} (h : op ∈ ops) : w op ≤ weight w ops := by
  induction ops with
  | nil => simp at h
  | cons x ops ih =>
    rw [weight_cons]
    rcases List.mem_cons.1 h with rfl | h
    · exact Nat.le_add_right _ _
    · exact le_trans (ih h) (Nat.le_add_left _ _)

theorem exists_of_weight_pos {ops : List α} (h : 0 < weight w ops) : ∃ op ∈ ops, 0 < w op := by
  induction ops with
  | nil => simp at h
  | cons x ops ih =>
    rw [weight_cons] at h
    by_cases hx : 0 < w x
    · exact ⟨x, List.mem_cons_self, hx⟩
    · obtain ⟨op, hop, hw⟩ := ih (by omega)
      exact ⟨op, List.mem_cons_of_mem _ hop, hw⟩

theorem weight_eq_zero {ops : List α} (h : ∀ op ∈ ops, w op = 0) : weight w ops = 0 := by
  by_contra hne
  obtain ⟨op, hop, hw⟩ := exists_of_weight_pos (Nat.pos_of_ne_zero hne)
  have := h op hop
  omega

/-- The weight of all threads. -/
def total (w : α → ℕ) (ths : List (List α)) : ℕ := (ths.map (weight w)).sum

@[simp] theorem total_nil : total w [] = 0 := rfl

@[simp] theorem total_cons (ops : List α) (ths : List (List α)) :
    total w (ops :: ths) = weight w ops + total w ths := by
  unfold total
  rw [List.map_cons, List.sum_cons]

@[simp] theorem total_append (ths ths' : List (List α)) : total w (ths ++ ths') = total w ths + total w ths' := by
  unfold total
  rw [List.map_append, List.sum_append]

/-- **Replacing one entry of a list.** -/
theorem weight_set : ∀ {ops : List α} {i : ℕ} {op : α}, ops[i]? = some op → ∀ op',
    weight w (ops.set i op') + w op = weight w ops + w op' := by
  intro ops
  induction ops with
  | nil => intro i op h; simp at h
  | cons x ops ih =>
    intro i op h op'
    cases i with
    | zero =>
      simp only [List.getElem?_cons_zero, Option.some.injEq] at h
      subst h
      rw [List.set_cons_zero, weight_cons, weight_cons]
      omega
    | succ i =>
      rw [List.getElem?_cons_succ] at h
      have := ih h op'
      rw [List.set_cons_succ, weight_cons, weight_cons]
      omega

/-- The list of one thread. -/
theorem total_set {ths : List (List α)} {t : ℕ} {ops : List α} (h : ths[t]? = some ops) (ops' : List α) :
    total w (ths.set t ops') + weight w ops = total w ths + weight w ops' :=
  weight_set h ops'

/-- What the other entries of a list come to stays as it is. -/
theorem flatMap_set {β : Type*} (f : α → List β) {ops : List α} {i : ℕ} {op : α} (h : ops[i]? = some op) :
    ∃ rest, (ops.flatMap f).Perm (f op ++ rest) ∧ ∀ op', ((ops.set i op').flatMap f).Perm (f op' ++ rest) := by
  obtain ⟨hlt, hget⟩ := List.getElem?_eq_some_iff.1 h
  have hsplit : ops = ops.take i ++ op :: ops.drop (i + 1) := by
    rw [← hget, List.getElem_cons_drop, List.take_append_drop]
  refine ⟨(ops.take i).flatMap f ++ (ops.drop (i + 1)).flatMap f, ?_, fun op' => ?_⟩
  · conv_lhs => rw [hsplit]
    rw [List.flatMap_append, List.flatMap_cons]
    exact List.perm_append_comm_assoc _ _ _
  · rw [List.set_eq_take_append_cons_drop, if_pos hlt, List.flatMap_append, List.flatMap_cons]
    exact List.perm_append_comm_assoc _ _ _

theorem le_total {ops : List α} {ths : List (List α)} (h : ops ∈ ths) : weight w ops ≤ total w ths := by
  unfold total
  exact List.single_le_sum (fun _ _ => Nat.zero_le _) _ (List.mem_map_of_mem h)

/-- The same as an equation for the new total. -/
theorem total_after {ths : List (List α)} {t : ℕ} {ops : List α} (h : ths[t]? = some ops) (ops' : List α) :
    total w (ths.set t ops') = total w ths - weight w ops + weight w ops' := by
  have hset := total_set (w := w) h ops'
  have hle := le_total (w := w) (List.mem_of_getElem? h)
  omega

theorem op_le_total {op : α} {ops : List α} {ths : List (List α)} (h : ops ∈ ths) (ho : op ∈ ops) :
    w op ≤ total w ths :=
  le_trans (le_weight ho) (le_total h)

theorem total_mono {w' : α → ℕ} {ths : List (List α)} (h : ∀ ops ∈ ths, weight w ops ≤ weight w' ops) :
    total w ths ≤ total w' ths := by
  unfold total
  exact List.sum_le_sum h

theorem exists_of_total_pos {ths : List (List α)} (h : 0 < total w ths) :
    ∃ ops ∈ ths, ∃ op ∈ ops, 0 < w op := by
  induction ths with
  | nil => simp at h
  | cons x ths ih =>
    rw [total_cons] at h
    by_cases hx : 0 < weight w x
    · obtain ⟨op, hop, hw⟩ := exists_of_weight_pos hx
      exact ⟨x, List.mem_cons_self, op, hop, hw⟩
    · obtain ⟨ops, hops, op, hop, hw⟩ := ih (by omega)
      exact ⟨ops, List.mem_cons_of_mem _ hops, op, hop, hw⟩

/-- Nothing is left. -/
theorem total_eq_zero {ths : List (List α)} (h : ∀ ops ∈ ths, ops = []) : total w ths = 0 := by
  by_contra hne
  obtain ⟨ops, hops, op, hop, -⟩ := exists_of_total_pos (Nat.pos_of_ne_zero hne)
  rw [h ops hops] at hop
  simp at hop

/-- After a step the lists are the old ones, the replaced one and the new ones. -/
theorem mem_set_append {ths new : List (List α)} {t : ℕ} {ops' x : List α} (h : x ∈ ths.set t ops' ++ new) :
    x ∈ ths ∨ x = ops' ∨ x ∈ new := by
  rcases List.mem_append.1 h with h | h
  · rcases List.mem_or_eq_of_mem_set h with h | h
    · exact Or.inl h
    · exact Or.inr (Or.inl h)
  · exact Or.inr (Or.inr h)

theorem getElem?_self {ths new : List (List α)} {t : ℕ} {ops ops' : List α} (h : ths[t]? = some ops) :
    (ths.set t ops' ++ new)[t]? = some ops' := by
  have ht : t < (ths.set t ops').length := by
    rw [List.length_set]
    exact (List.getElem?_eq_some_iff.1 h).1
  rw [List.getElem?_append_left ht, List.getElem?_set_self (by simpa using ht)]

theorem getElem?_other {ths new : List (List α)} {t u : ℕ} {ops ops' : List α} (h : ths[u]? = some ops)
    (hne : t ≠ u) : (ths.set t ops' ++ new)[u]? = some ops := by
  have hu : u < (ths.set t ops').length := by
    rw [List.length_set]
    exact (List.getElem?_eq_some_iff.1 h).1
  rw [List.getElem?_append_left hu, List.getElem?_set_ne hne, h]

/-- Every list after a step, with its place. -/
theorem getElem?_set_append {ths new : List (List α)} {t u : ℕ} {ops' x : List α}
    (h : (ths.set t ops' ++ new)[u]? = some x) : (t = u ∧ x = ops') ∨ (t ≠ u ∧ ths[u]? = some x) ∨ x ∈ new := by
  by_cases hu : u < (ths.set t ops').length
  · rw [List.getElem?_append_left hu] at h
    by_cases hne : t = u
    · subst hne
      rw [List.getElem?_set_self (by simpa using hu)] at h
      exact Or.inl ⟨rfl, (Option.some.inj h).symm⟩
    · rw [List.getElem?_set_ne hne] at h
      exact Or.inr (Or.inl ⟨hne, h⟩)
  · rw [List.getElem?_append_right (Nat.le_of_not_lt hu)] at h
    exact Or.inr (Or.inr (List.mem_of_getElem? h))

/-- Two threads. -/
theorem add_le_total {ths : List (List α)} {t u : ℕ} {x y : List α} (hx : ths[t]? = some x)
    (hy : ths[u]? = some y) (hne : t ≠ u) : weight w x + weight w y ≤ total w ths := by
  have hset := total_set (w := w) hx []
  have hy' : (ths.set t [])[u]? = some y := by rw [List.getElem?_set_ne hne, hy]
  have := le_total (w := w) (List.mem_of_getElem? hy')
  rw [weight_nil] at hset
  omega

/-! ## Logs -/

/-- An entry of a log that has grown is an old one or a new one. -/
theorem append_eq_append_cons {log evs l l' : List α} {x : α} (h : log ++ evs = l ++ x :: l') :
    (∃ m, log = l ++ x :: m ∧ l' = m ++ evs) ∨ ∃ m, l = log ++ m ∧ evs = m ++ x :: l' := by
  rcases List.append_eq_append_iff.1 h with ⟨m, rfl, hm⟩ | ⟨m, rfl, hm⟩
  · exact Or.inr ⟨m, rfl, hm⟩
  · cases m with
    | nil => exact Or.inr ⟨[], by simp, hm.symm⟩
    | cons y m =>
      simp only [List.cons_append, List.cons.injEq] at hm
      obtain ⟨rfl, rfl⟩ := hm
      exact Or.inl ⟨m, rfl, rfl⟩

end Threads
