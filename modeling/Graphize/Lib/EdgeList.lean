import Mathlib.Logic.Relation
import Mathlib.Data.List.Nodup
import Mathlib.Data.List.Count
import Mathlib.Data.Finset.Card
import Mathlib.Algebra.GroupWithZero.Nat
import Mathlib.Algebra.BigOperators.Group.Finset.Basic
import Mathlib.Order.WellFounded
import Mathlib.Order.WellFoundedSet
import Mathlib.Data.List.TakeWhile

/-!
# Finite multigraphs given as lists of edges

An edge may occur several times. `succs es a` lists the heads of `a`'s edges in
order, `indeg es b` counts the edges into `b`.

* `indeg_eq_sum`: the in-degree, counted by source.
* `acyclicFrom_of_topo`: what a topologically ordered list covers is acyclic.
* `exists_minimal`: in the part reached from a root, if it is acyclic, every
  nonempty finite set has a node with no ancestor in the set.
-/

namespace EdgeList

open Relation

variable {α : Type*}

/-- `(a, b)` is an edge. -/
def Edge (es : List (α × α)) (a b : α) : Prop := (a, b) ∈ es

instance [DecidableEq α] (es : List (α × α)) (a b : α) : Decidable (Edge es a b) :=
  inferInstanceAs (Decidable ((a, b) ∈ es))

/-- `b` is reached from `a`. -/
abbrev Reach (es : List (α × α)) : α → α → Prop := ReflTransGen (Edge es)

/-- `a` is a transitive ancestor of `b`. -/
abbrev Anc (es : List (α × α)) : α → α → Prop := TransGen (Edge es)

/-- No node reached from `r` lies on a cycle. -/
def AcyclicFrom (es : List (α × α)) (r : α) : Prop := ∀ v, Reach es r v → ¬Anc es v v

/-- Every edge into a node reached from `r` starts at a node reached from `r`. -/
def ClosedFrom (es : List (α × α)) (r : α) : Prop := ∀ a b, Edge es a b → Reach es r b → Reach es r a

/-- Every predecessor of a listed node is listed before it. -/
def Topo (es : List (α × α)) (L : List α) : Prop :=
  ∀ pre x post, L = pre ++ x :: post → ∀ a, Edge es a x → a ∈ pre

variable {es : List (α × α)}

theorem Reach.edge {r a b : α} (h : Reach es r a) (he : Edge es a b) : Reach es r b := h.tail he

theorem ClosedFrom.anc {r a b : α} (hc : ClosedFrom es r) (hb : Reach es r b) (h : Anc es a b) :
    Reach es r a := by
  induction h using TransGen.head_induction_on with
  | single he => exact hc _ _ he hb
  | head he _ ih => exact hc _ _ he ih

/-- **Minimal nodes.** In an acyclic part, every nonempty set has a node with no
predecessor in the set. -/
theorem exists_minimal {r : α} (hac : AcyclicFrom es r) (S : Finset α) (hS : ∀ v ∈ S, Reach es r v)
    (hne : S.Nonempty) : ∃ v ∈ S, ∀ a ∈ S, ¬Edge es a v := by
  let R : S → S → Prop := fun a b => Anc es a.1 b.1
  have : IsTrans S R := ⟨fun _ _ _ h1 h2 => TransGen.trans h1 h2⟩
  have : Std.Irrefl R := ⟨fun a h => hac a.1 (hS a.1 a.2) h⟩
  have hwf : WellFounded R := Finite.wellFounded_of_trans_of_irrefl R
  obtain ⟨x, hx⟩ := hne
  obtain ⟨m, -, hm⟩ := hwf.has_min Set.univ ⟨⟨x, hx⟩, trivial⟩
  exact ⟨m.1, m.2, fun a ha he => hm ⟨a, ha⟩ trivial (TransGen.single he)⟩

/-! ## Degrees -/

section Degrees

variable [DecidableEq α]

/-- The heads of the edges that leave `a`, in order. -/
def succs (es : List (α × α)) (a : α) : List α := (es.filter (fun e => e.1 = a)).map Prod.snd

/-- The number of edges into `b`. -/
def indeg (es : List (α × α)) (b : α) : ℕ := es.countP (fun e => e.2 = b)

/-- The number of edges into `b` that start in `D`. -/
def indegFrom (es : List (α × α)) (D : List α) (b : α) : ℕ :=
  es.countP (fun e => e.2 = b ∧ e.1 ∈ D)

theorem mem_succs {a b : α} : b ∈ succs es a ↔ Edge es a b := by
  unfold succs Edge
  simp

theorem indeg_pos {b : α} : 0 < indeg es b ↔ ∃ a, Edge es a b := by
  unfold indeg Edge
  rw [List.countP_pos_iff]
  constructor
  · rintro ⟨⟨a, c⟩, he, hc⟩
    simp only [decide_eq_true_eq] at hc
    subst hc; exact ⟨a, he⟩
  · rintro ⟨a, ha⟩; exact ⟨(a, b), ha, by simp⟩

theorem indegFrom_le (D : List α) (b : α) : indegFrom es D b ≤ indeg es b := by
  unfold indegFrom indeg
  apply List.countP_mono_left
  intro e _ h
  simp only [decide_eq_true_eq] at h ⊢
  exact h.1

@[simp] theorem indegFrom_nil (b : α) : indegFrom es [] b = 0 := by
  unfold indegFrom
  rw [List.countP_eq_zero]
  simp

/-- All edges into `b` are counted exactly when all its predecessors are in `D`. -/
theorem indegFrom_eq_indeg {D : List α} {b : α} :
    indegFrom es D b = indeg es b ↔ ∀ a, Edge es a b → a ∈ D := by
  unfold indegFrom indeg Edge
  induction es with
  | nil => simp
  | cons e es ih =>
    have hle : es.countP (fun e => e.2 = b ∧ e.1 ∈ D) ≤ es.countP (fun e => e.2 = b) :=
      indegFrom_le D b
    rw [List.countP_cons, List.countP_cons]
    by_cases hb : e.2 = b
    · by_cases hD : e.1 ∈ D
      · simp only [hb, hD, and_self, decide_true, if_true, Nat.add_right_cancel_iff, ih]
        constructor
        · intro h a ha
          rcases List.mem_cons.1 ha with rfl | ha
          · exact hD
          · exact h a ha
        · intro h a ha; exact h a (List.mem_cons_of_mem _ ha)
      · simp only [hb, hD, and_false, decide_false, decide_true, if_true]
        constructor
        · intro h; simp only [Bool.false_eq_true, if_false] at h; omega
        · intro h
          exact absurd (h e.1 (by rw [← hb]; exact List.mem_cons_self)) hD
    · simp only [hb, false_and, decide_false, Bool.false_eq_true, if_false, Nat.add_zero, ih]
      constructor
      · intro h a ha
        rcases List.mem_cons.1 ha with rfl | ha
        · exact absurd rfl hb
        · exact h a ha
      · intro h a ha; exact h a (List.mem_cons_of_mem _ ha)

/-- The edges from a new source `a` into `b`. -/
theorem indegFrom_concat {D : List α} {a : α} (ha : a ∉ D) (b : α) :
    indegFrom es (D ++ [a]) b = indegFrom es D b + (succs es a).count b := by
  unfold indegFrom succs
  induction es with
  | nil => simp
  | cons e es ih =>
    rw [List.countP_cons, List.countP_cons, ih, List.filter_cons]
    by_cases hea : e.1 = a
    · have hD : e.1 ∉ D := by rw [hea]; exact ha
      by_cases hb : e.2 = b
      · simp [hea, hb, ha]; omega
      · simp [hea, hb, List.count_cons_of_ne (by simpa using hb)]
    · by_cases hb : e.2 = b <;> by_cases hD : e.1 ∈ D <;> simp [hea, hb, hD]
      omega

/-- **The in-degree counted by source**, when `V` lists every source once. -/
theorem indeg_eq_sum {V : List α} (hV : V.Nodup) {b : α} (h : ∀ a, Edge es a b → a ∈ V) :
    (V.map fun a => (succs es a).count b).sum = indeg es b := by
  have key : ∀ W D : List α, (D ++ W).Nodup →
      indegFrom es (D ++ W) b = indegFrom es D b + (W.map fun a => (succs es a).count b).sum := by
    intro W
    induction W with
    | nil => intro D _; simp
    | cons a W ih =>
      intro D hnd
      have hnd' : ((D ++ [a]) ++ W).Nodup := by simpa using hnd
      have haD : a ∉ D := by
        intro hD
        have := (List.nodup_append.1 hnd).2.2 a hD a List.mem_cons_self
        exact this rfl
      have h1 := ih (D ++ [a]) hnd'
      rw [indegFrom_concat haD] at h1
      simp only [List.append_assoc, List.singleton_append] at h1
      rw [h1, List.map_cons, List.sum_cons]; omega
  have h0 := key V [] (by simpa using hV)
  simp only [List.nil_append, indegFrom_nil, Nat.zero_add] at h0
  rw [← h0, indegFrom_eq_indeg]
  exact h

end Degrees

/-! ## Topological order -/

section Order

variable [DecidableEq α]

theorem takeWhile_ne {pre post : List α} {x : α} (hx : x ∉ pre) :
    (pre ++ x :: post).takeWhile (· ≠ x) = pre := by
  rw [List.takeWhile_append_of_pos fun y hy => by
    simp only [decide_not, Bool.not_eq_eq_eq_not, Bool.not_true, decide_eq_false_iff_not]
    rintro rfl; exact hx hy]
  simp

/-- Only the first occurrence of a node has to be checked. -/
theorem topo_iff {L : List α} : Topo es L ↔ ∀ x ∈ L, ∀ e ∈ es, e.2 = x → e.1 ∈ L.takeWhile (· ≠ x) := by
  constructor
  · rintro hT x hx ⟨a, b⟩ he rfl
    obtain ⟨pre, post, hL, hpre⟩ := List.eq_append_cons_of_mem hx
    have ha := hT pre b post hL a he
    rwa [hL, takeWhile_ne hpre]
  · intro hT pre x post hL a he
    have ha := hT x (by rw [hL]; simp) (a, x) he rfl
    have hpre : (pre ++ x :: post).takeWhile (· ≠ x) <+: pre := by
      rw [List.takeWhile_append]
      split
      · simp
      · exact List.takeWhile_prefix _
    rw [hL] at ha
    exact hpre.subset ha

instance (es : List (α × α)) (L : List α) : Decidable (Topo es L) := decidable_of_iff _ topo_iff.symm

theorem Topo.anc_mem {L : List α} (hT : Topo es L) {a b : α} (hb : b ∈ L) (h : Anc es a b) :
    a ∈ L ∧ L.idxOf a < L.idxOf b := by
  have one : ∀ {x y : α}, y ∈ L → Edge es x y → x ∈ L ∧ L.idxOf x < L.idxOf y := by
    intro x y hy he
    obtain ⟨pre, post, hL, hpre⟩ := List.eq_append_cons_of_mem hy
    have hx := hT pre y post hL x he
    subst hL
    refine ⟨List.mem_append_left _ hx, ?_⟩
    rw [List.idxOf_append_of_mem hx, List.idxOf_append_of_notMem hpre]
    have := List.idxOf_lt_length_of_mem hx
    omega
  induction h using TransGen.head_induction_on with
  | single he => exact one hb he
  | head he _ ih =>
    obtain ⟨h1, h2⟩ := one ih.1 he
    exact ⟨h1, lt_trans h2 ih.2⟩

/-- **A topologically ordered cover excludes cycles.** -/
theorem acyclicFrom_of_topo {L : List α} {r : α} (hT : Topo es L) (hL : ∀ v, Reach es r v → v ∈ L) :
    AcyclicFrom es r := by
  intro v hv hvv
  have := (hT.anc_mem (hL v hv) hvv).2
  omega

end Order

end EdgeList
