import Mathlib.Data.List.Infix
import Mathlib.Data.List.Basic

/-!
# Joined tokens

Tokens joined by a separator that occurs in none of them.

* `infix_joined`: what occurs in the joined text without the separator occurs in a token.
-/

namespace Tokens

variable {α : Type*}

/-- What occurs on neither side of a separator that it does not contain does not occur. -/
theorem infix_append_cons {needle xs ys : List α} {c : α} (hc : c ∉ needle) (h : needle <:+: xs ++ c :: ys) :
    needle <:+: xs ∨ needle <:+: ys := by
  obtain ⟨s, t, h⟩ := h
  rcases List.append_eq_append_iff.1 h with ⟨as, hxs, ht⟩ | ⟨as, hsn, hys⟩
  · exact Or.inl ⟨s, as, hxs.symm⟩
  · cases as with
    | nil =>
      rw [List.append_nil] at hsn
      exact Or.inl ⟨s, [], by rw [List.append_nil]; exact hsn⟩
    | cons a as =>
      rw [List.cons_append, List.cons.injEq] at hys
      obtain ⟨rfl, rfl⟩ := hys
      -- the separator lies before the needle
      rcases List.append_eq_append_iff.1 hsn with ⟨bs, -, hn⟩ | ⟨bs, -, hn⟩
      · exact absurd (by rw [hn]; simp) hc
      · cases bs with
        | nil => exact absurd (by rw [List.nil_append] at hn; rw [← hn]; simp) hc
        | cons b bs =>
          rw [List.cons_append, List.cons.injEq] at hn
          rw [hn.2]
          exact Or.inr ⟨bs, t, rfl⟩

/-- **What occurs in a joined text** without the separator occurs in a token. -/
theorem infix_joined {needle : List α} {c : α} (hc : c ∉ needle) (hne : needle ≠ []) :
    ∀ ts : List (List α), needle <:+: [c].intercalate ts → ∃ t ∈ ts, needle <:+: t := by
  intro ts
  induction ts with
  | nil =>
    intro h
    exact absurd (List.eq_nil_of_infix_nil h) hne
  | cons t ts ih =>
    intro h
    cases ts with
    | nil =>
      rw [List.intercalate_singleton] at h
      exact ⟨t, List.mem_cons_self, h⟩
    | cons t' ts =>
      rw [List.intercalate_cons_cons, List.append_assoc, List.singleton_append] at h
      rcases infix_append_cons hc h with h | h
      · exact ⟨t, List.mem_cons_self, h⟩
      · obtain ⟨t₀, ht, h⟩ := ih h
        exact ⟨t₀, List.mem_cons_of_mem _ ht, h⟩

/-- A token occurs in the joined text. -/
theorem infix_of_mem {c : α} {t : List α} : ∀ {ts : List (List α)}, t ∈ ts → t <:+: [c].intercalate ts := by
  intro ts
  induction ts with
  | nil => intro h; exact absurd h (by simp)
  | cons t₀ ts ih =>
    intro h
    cases ts with
    | nil =>
      rw [List.mem_singleton.1 h, List.intercalate_singleton]
    | cons t' ts =>
      rw [List.intercalate_cons_cons]
      rcases List.mem_cons.1 h with rfl | h
      · exact ⟨[], [c] ++ [c].intercalate (t' :: ts), by simp⟩
      · exact (ih h).trans ⟨t₀ ++ [c], [], by simp⟩

end Tokens
