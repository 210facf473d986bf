import Mathlib.Data.List.Dedup
import Mathlib.Data.Finset.Card
import Mathlib.Data.Finset.Range
import Mathlib.Order.Interval.Finset.Nat

/-!
# Numbering by first occurrence

`firsts l` lists the elements of `l` in the order in which they first occur; the
position of an element is its number.

* `firsts_getElem?_append`: numbers do not change when the list grows.
* `mem_of_lt`: the elements with smaller numbers are those that occur before.
* `forall_lt_card_iff`: a finite set of numbers lies below its own size exactly when
  it has no gaps.
-/

namespace Numbering

variable {α : Type*} [DecidableEq α]

/-- The elements of a list in the order of their first occurrence. -/
def firsts (l : List α) : List α := l.reverse.dedup.reverse

@[simp] theorem firsts_nil : firsts ([] : List α) = [] := rfl

@[simp] theorem mem_firsts {l : List α} {x : α} : x ∈ firsts l ↔ x ∈ l := by
  unfold firsts
  simp

theorem firsts_nodup (l : List α) : (firsts l).Nodup := by
  unfold firsts
  exact List.nodup_reverse.2 (List.nodup_dedup _)

theorem firsts_concat_of_mem {l : List α} {x : α} (h : x ∈ l) : firsts (l ++ [x]) = firsts l := by
  unfold firsts
  rw [List.reverse_append, List.reverse_singleton, List.singleton_append,
    List.dedup_cons_of_mem (List.mem_reverse.2 h)]

theorem firsts_concat_of_notMem {l : List α} {x : α} (h : x ∉ l) : firsts (l ++ [x]) = firsts l ++ [x] := by
  unfold firsts
  rw [List.reverse_append, List.reverse_singleton, List.singleton_append,
    List.dedup_cons_of_notMem (fun hm => h (List.mem_reverse.1 hm)), List.reverse_cons]

theorem firsts_prefix_append (l : List α) : ∀ m : List α, firsts l <+: firsts (l ++ m) := by
  intro m
  induction m using List.reverseRecOn with
  | nil => simp
  | append_singleton m x ih =>
    rw [← List.append_assoc]
    by_cases hx : x ∈ l ++ m
    · rw [firsts_concat_of_mem hx]; exact ih
    · rw [firsts_concat_of_notMem hx]; exact ih.trans (List.prefix_append _ _)

/-- **Numbers stay** when the list grows. -/
theorem firsts_getElem?_append {l : List α} {p : ℕ} {x : α} (h : (firsts l)[p]? = some x) (m : List α) :
    (firsts (l ++ m))[p]? = some x := by
  obtain ⟨t, ht⟩ := firsts_prefix_append l m
  rw [← ht, List.getElem?_append_left (List.getElem?_eq_some_iff.1 h).1, h]

/-- The numbers below that of `x` belong to what occurs before `x` first does. -/
theorem mem_of_lt {pre post : List α} {x y : α} {p q : ℕ} (hx : x ∉ pre)
    (hp : (firsts (pre ++ x :: post))[p]? = some x) (hq : (firsts (pre ++ x :: post))[q]? = some y) :
    q < p ↔ y ∈ pre := by
  have hsplit : pre ++ x :: post = (pre ++ [x]) ++ post := by simp
  have hnd := firsts_nodup (pre ++ x :: post)
  have hat : ∀ {n : ℕ} {z : α}, (firsts pre)[n]? = some z → (firsts (pre ++ x :: post))[n]? = some z :=
    fun hn => firsts_getElem?_append hn _
  have huniq : ∀ {n m : ℕ} {z : α}, (firsts (pre ++ x :: post))[n]? = some z →
      (firsts (pre ++ x :: post))[m]? = some z → n = m := by
    intro n m z hn hm
    obtain ⟨hn1, hn2⟩ := List.getElem?_eq_some_iff.1 hn
    obtain ⟨hm1, hm2⟩ := List.getElem?_eq_some_iff.1 hm
    exact (hnd.getElem_inj_iff).1 (hn2.trans hm2.symm)
  -- `x` is numbered by the count of what occurs before it
  have hpx : p = (firsts pre).length := by
    refine huniq hp ?_
    rw [hsplit]
    refine firsts_getElem?_append ?_ _
    rw [firsts_concat_of_notMem hx]
    simp
  constructor
  · intro hlt
    rw [hpx] at hlt
    have hz := hat (List.getElem?_eq_getElem hlt)
    rw [hq, Option.some.injEq] at hz
    rw [← mem_firsts, hz]
    exact List.getElem_mem hlt
  · intro hy
    obtain ⟨n, hn⟩ := List.getElem?_of_mem (mem_firsts.2 hy)
    rw [huniq hq (hat hn), hpx]
    exact (List.getElem?_eq_some_iff.1 hn).1

/-- **A set of numbers without gaps** is one that lies below its own size. -/
theorem forall_lt_card_iff {S : Finset ℕ} :
    (∀ p ∈ S, p < S.card) ↔ ∀ p ∈ S, ∀ q < p, q ∈ S := by
  constructor
  · intro h p hp q hq
    have hsub : S ⊆ Finset.range S.card := fun x hx => Finset.mem_range.2 (h x hx)
    have heq : S = Finset.range S.card := Finset.eq_of_subset_of_card_le hsub (by simp)
    rw [heq, Finset.mem_range]
    have := h p hp
    omega
  · intro h p hp
    have hsub : Finset.range (p + 1) ⊆ S := by
      intro q hq
      rcases Nat.lt_succ_iff_lt_or_eq.1 (Finset.mem_range.1 hq) with hlt | rfl
      · exact h p hp q hlt
      · exact hp
    have := Finset.card_le_card hsub
    rw [Finset.card_range] at this
    omega

end Numbering
