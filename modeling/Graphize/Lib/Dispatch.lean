import Mathlib.Logic.Relation
import Mathlib.Algebra.BigOperators.Group.Finset.Basic
import Mathlib.Algebra.Order.BigOperators.Group.Finset
import Mathlib.Data.List.Count
import Mathlib.Order.WellFounded

/-!
# Countdown dispatch over a finite graph

A node starts when the last of its inputs has been announced. Each node announces its
outputs one edge at a time after its own work; the node that an announcement makes
ready is held until the next one is found (then it is queued) or until the loop ends.
`remaining` is the number of announcements a node still waits for.

* `Inv.step`: the invariant is kept: a node waits exactly while `remaining` is
  positive, and each held node has exactly one holder.
* `Step.cost_lt`: every step uses up work, so runs are finite.
* `Inv.released_of_anc`: when a node has stopped waiting, all its ancestors have
  done their own work.
* `Inv.all_done`: when nothing is active, nothing is left waiting or held;
  `Inv.stalled`: when some nodes stay at their own work for ever, what waits, waits for them.
-/

namespace Dispatch

open Relation Function

/-- How far a node is. `ω` is the state of its own work. -/
inductive Phase (ω α : Type*)
  | waiting
  | held
  | queued
  | running (w : ω)
  | releasing (i : ℕ) (last : Option α)
  | done
  deriving DecidableEq

variable {α ω : Type*}

/-- The node's own work is done. -/
def Phase.Released : Phase ω α → Prop
  | .releasing _ _ => True
  | .done => True
  | _ => False

/-- Something is left to execute for this node now. -/
def Phase.Active : Phase ω α → Prop
  | .queued => True
  | .running _ => True
  | .releasing _ _ => True
  | _ => False

/-- The node has begun its own work. -/
def Phase.Started : Phase ω α → Prop
  | .running _ => True
  | .releasing _ _ => True
  | .done => True
  | _ => False

theorem Phase.Released.ne_waiting {p : Phase ω α} (h : p.Released) : p ≠ .waiting := by
  rintro rfl; exact h

variable (V : Finset α) (out : α → List α)

/-- How many of its outputs `u` has announced. -/
def sent (ph : α → Phase ω α) (u : α) : ℕ :=
  match ph u with
  | .releasing i _ => i
  | .done => (out u).length
  | _ => 0

variable {out} in
theorem sent_eq {ph ph' : α → Phase ω α} {u : α} (h : ph' u = ph u) : sent out ph' u = sent out ph u := by
  unfold sent; rw [h]

variable {out} in
theorem sent_releasing {ph : α → Phase ω α} {u : α} {i : ℕ} {last : Option α} (h : ph u = .releasing i last) :
    sent out ph u = i := by
  unfold sent; rw [h]

variable {out} in
/-- Only a node whose own work is done announces. -/
theorem released_of_sent {ph : α → Phase ω α} {u : α} (h : 0 < sent out ph u) : (ph u).Released := by
  unfold sent at h
  cases hp : ph u <;> rw [hp] at h <;> trivial

variable [DecidableEq α]

/-- How many announcements `v` still waits for. -/
def remaining (ph : α → Phase ω α) (v : α) : ℕ := ∑ u ∈ V, ((out u).drop (sent out ph u)).count v

/-- Dispatching the held node, if there is one. -/
def requeue (ph : α → Phase ω α) : Option α → α → Phase ω α
  | none => ph
  | some m => update ph m .queued

variable (rank : α → ω → ℕ) (top : α → ℕ)

/-- One step. The work of a node starts below `top` and decreases `rank`. -/
inductive Step (ph : α → Phase ω α) : (α → Phase ω α) → Prop
  | start {v w} : v ∈ V → ph v = .queued → rank v w ≤ top v → Step ph (update ph v (.running w))
  | skip {v} : v ∈ V → ph v = .queued → Step ph (update ph v (.releasing 0 none))
  | work {v w w'} : v ∈ V → ph v = .running w → rank v w' < rank v w →
      Step ph (update ph v (.running w'))
  | release {v w} : v ∈ V → ph v = .running w → Step ph (update ph v (.releasing 0 none))
  | pass {u i last v} : u ∈ V → ph u = .releasing i last → (out u)[i]? = some v →
      remaining V out ph v ≠ 1 → Step ph (update ph u (.releasing (i + 1) last))
  | ready {u i last v} : u ∈ V → ph u = .releasing i last → (out u)[i]? = some v →
      remaining V out ph v = 1 →
      Step ph (update (update (requeue ph last) v .held) u (.releasing (i + 1) (some v)))
  | finish {u i last} : u ∈ V → ph u = .releasing i last → (out u)[i]? = none →
      Step ph (update (requeue ph last) u .done)

/-- The invariant. -/
structure Inv (ph : α → Phase ω α) : Prop where
  bound : ∀ u ∈ V, sent out ph u ≤ (out u).length
  waiting : ∀ v ∈ V, ph v = .waiting ↔ 0 < remaining V out ph v
  held : ∀ u ∈ V, ∀ i v, ph u = .releasing i (some v) → v ∈ V ∧ ph v = .held
  holder : ∀ v ∈ V, ph v = .held → ∃ u ∈ V, ∃ i, ph u = .releasing i (some v)
  unique : ∀ u ∈ V, ∀ u' ∈ V, ∀ i i' v, ph u = .releasing i (some v) →
    ph u' = .releasing i' (some v) → u = u'

variable {V out rank top} {ph ph' : α → Phase ω α}

/-! ## The counts -/

theorem remaining_congr (h : ∀ u ∈ V, sent out ph' u = sent out ph u) (v : α) :
    remaining V out ph' v = remaining V out ph v := by
  unfold remaining
  apply Finset.sum_congr rfl
  intro u hu; rw [h u hu]

/-- Announcing one edge lowers the count of its head by one. -/
theorem remaining_advance {u : α} (hu : u ∈ V) {x : α} (hx : (out u)[sent out ph u]? = some x)
    (h1 : sent out ph' u = sent out ph u + 1) (h2 : ∀ w ∈ V, w ≠ u → sent out ph' w = sent out ph w)
    (v : α) : remaining V out ph v = remaining V out ph' v + if x = v then 1 else 0 := by
  unfold remaining
  rw [← Finset.add_sum_erase V _ hu, ← Finset.add_sum_erase V (fun w => ((out w).drop (sent out ph' w)).count v) hu]
  have hrest : ∑ w ∈ V.erase u, ((out w).drop (sent out ph' w)).count v =
      ∑ w ∈ V.erase u, ((out w).drop (sent out ph w)).count v := by
    apply Finset.sum_congr rfl
    intro w hw
    rw [h2 w (Finset.mem_of_mem_erase hw) (Finset.ne_of_mem_erase hw)]
  have hhead : ((out u).drop (sent out ph u)).count v =
      ((out u).drop (sent out ph' u)).count v + if x = v then 1 else 0 := by
    obtain ⟨hlt, hget⟩ := List.getElem?_eq_some_iff.1 hx
    rw [h1, List.drop_eq_getElem_cons hlt, hget]
    by_cases hv : x = v
    · subst hv; simp
    · rw [List.count_cons_of_ne hv, if_neg hv]; rfl
  rw [hrest, hhead]; omega

/-- An unannounced edge into `v` is counted. -/
theorem remaining_pos {u v : α} (hu : u ∈ V) (h : v ∈ (out u).drop (sent out ph u)) :
    0 < remaining V out ph v := by
  unfold remaining
  have hle := Finset.single_le_sum (f := fun w => ((out w).drop (sent out ph w)).count v)
    (fun _ _ => Nat.zero_le _) hu
  have hpos := List.count_pos_iff.2 h
  exact lt_of_lt_of_le hpos hle

theorem remaining_eq_zero {v : α} (h : remaining V out ph v = 0) {u : α} (hu : u ∈ V) :
    v ∉ (out u).drop (sent out ph u) := by
  intro hm
  have := remaining_pos hu hm
  omega

/-! ## The invariant -/

theorem requeue_apply (last : Option α) (w : α) :
    requeue ph last w = if last = some w then .queued else ph w := by
  cases last with
  | none => simp [requeue]
  | some m =>
    show update ph m .queued w = _
    by_cases hw : w = m
    · subst hw; simp
    · rw [update_of_ne hw, if_neg (by simpa using Ne.symm hw)]

/-- A node that waits for nothing does not wait. -/
theorem Inv.remaining_zero (hi : Inv V out ph) {v : α} (hv : v ∈ V) (h : ph v ≠ .waiting) :
    remaining V out ph v = 0 := by
  by_contra hne
  exact h ((hi.waiting v hv).2 (Nat.pos_of_ne_zero hne))

/-- **A step that only moves a node's own work** keeps the invariant. -/
theorem Inv.update_own (hi : Inv V out ph) {v : α} (hv : v ∈ V) {p : Phase ω α}
    (ha : (ph v).Active) (hb : p.Active) (hl : ∀ i x, ph v ≠ .releasing i (some x))
    (hp : ∀ i x, p ≠ .releasing i (some x)) (hs : sent out (update ph v p) v = sent out ph v) :
    Inv V out (update ph v p) := by
  have hne : ∀ w, w ≠ v → update ph v p w = ph w := fun w hw => update_of_ne hw p ph
  have hsent : ∀ w ∈ V, sent out (update ph v p) w = sent out ph w := by
    intro w _
    by_cases hw : w = v
    · subst hw; exact hs
    · exact sent_eq (hne w hw)
  have hrem := fun x => remaining_congr hsent x
  refine ⟨fun w hw => by rw [hsent w hw]; exact hi.bound w hw, ?_, ?_, ?_, ?_⟩
  · intro w hw
    rw [hrem w]
    by_cases hwv : w = v
    · subst hwv
      have h0 := hi.remaining_zero hw (by intro h0; rw [h0] at ha; exact ha)
      rw [update_self, h0]
      constructor
      · intro hp0; rw [hp0] at hb; exact absurd hb (by simp [Phase.Active])
      · intro hlt; omega
    · rw [hne w hwv]; exact hi.waiting w hw
  · intro w hw i x hx
    by_cases hwv : w = v
    · subst hwv; rw [update_self] at hx; exact absurd hx (hp i x)
    · rw [hne w hwv] at hx
      obtain ⟨hxV, hxh⟩ := hi.held w hw i x hx
      refine ⟨hxV, ?_⟩
      rw [hne x (by intro h0; subst h0; rw [hxh] at ha; exact ha)]; exact hxh
  · intro w hw hwh
    by_cases hwv : w = v
    · subst hwv; rw [update_self] at hwh; rw [hwh] at hb; exact absurd hb (by simp [Phase.Active])
    · rw [hne w hwv] at hwh
      obtain ⟨a, haV, i, hai⟩ := hi.holder w hw hwh
      refine ⟨a, haV, i, ?_⟩
      rw [hne a (by intro h0; subst h0; exact hl i w hai)]; exact hai
  · intro a haV b hbV i j x hax hbx
    have hav : a ≠ v := by intro h0; subst h0; rw [update_self] at hax; exact hp i x hax
    have hbv : b ≠ v := by intro h0; subst h0; rw [update_self] at hbx; exact hp j x hbx
    rw [hne a hav] at hax
    rw [hne b hbv] at hbx
    exact hi.unique a haV b hbV i j x hax hbx

/-! ### What each kind of step announces -/

theorem sent_pass {u : α} {i : ℕ} {last : Option α} (w : α) :
    sent out (update ph u (.releasing (i + 1) last)) w = if w = u then i + 1 else sent out ph w := by
  by_cases hw : w = u
  · subst hw; rw [if_pos rfl, sent_releasing (update_self _ _ _)]
  · rw [if_neg hw, sent_eq (update_of_ne hw _ _)]

/-- Nothing is announced by dispatching a held node. -/
theorem Inv.sent_requeue (hi : Inv V out ph) {u : α} {i : ℕ} {last : Option α} (hu : u ∈ V)
    (hph : ph u = .releasing i last) (w : α) : sent out (requeue ph last) w = sent out ph w := by
  unfold sent
  rw [requeue_apply]
  by_cases hw : last = some w
  · subst hw; rw [if_pos rfl, (hi.held u hu i w hph).2]
  · rw [if_neg hw]

theorem Inv.sent_ready (hi : Inv V out ph) {u v : α} {i : ℕ} {last : Option α} (hu : u ∈ V)
    (hph : ph u = .releasing i last) (hv : v ∈ V) (hr : remaining V out ph v = 1) (w : α) :
    sent out (update (update (requeue ph last) v .held) u (.releasing (i + 1) (some v))) w =
      if w = u then i + 1 else sent out ph w := by
  have hvw : ph v = .waiting := (hi.waiting v hv).2 (by omega)
  by_cases hw : w = u
  · subst hw; rw [if_pos rfl, sent_releasing (update_self _ _ _)]
  · rw [if_neg hw, sent_eq (update_of_ne hw _ _)]
    by_cases hwv : w = v
    · subst hwv; unfold sent; rw [update_self, hvw]
    · rw [sent_eq (update_of_ne hwv _ _), hi.sent_requeue hu hph]

theorem Inv.sent_finish (hi : Inv V out ph) {u : α} {i : ℕ} {last : Option α} (hu : u ∈ V)
    (hph : ph u = .releasing i last) (hv : (out u)[i]? = none) (w : α) :
    sent out (update (requeue ph last) u .done) w = sent out ph w := by
  by_cases hw : w = u
  · subst hw
    have h1 := hi.bound w hu
    have h2 := List.getElem?_eq_none_iff.1 hv
    rw [sent_releasing hph] at h1 ⊢
    unfold sent; rw [update_self]; simp only; omega
  · rw [sent_eq (update_of_ne hw _ _), hi.sent_requeue hu hph]

/-- The counts after the edge `i` of `u` is announced. -/
theorem remaining_of_sent {u v : α} {i : ℕ} {last : Option α} (hu : u ∈ V)
    (hph : ph u = .releasing i last) (hv : (out u)[i]? = some v)
    (hs : ∀ w, sent out ph' w = if w = u then i + 1 else sent out ph w) (w : α) :
    remaining V out ph w = remaining V out ph' w + if v = w then 1 else 0 :=
  remaining_advance hu (by rw [sent_releasing hph]; exact hv)
    (by rw [hs, if_pos rfl, sent_releasing hph]) (fun x _ hx => by rw [hs, if_neg hx]) w

/-- Announcing an edge whose head is still not ready. -/
theorem Inv.pass (hi : Inv V out ph) {u v : α} {i : ℕ} {last : Option α} (hu : u ∈ V)
    (hph : ph u = .releasing i last) (hv : (out u)[i]? = some v) (hr : remaining V out ph v ≠ 1) :
    Inv V out (update ph u (.releasing (i + 1) last)) := by
  set ph' := update ph u (.releasing (i + 1) last) with hph'
  have hne : ∀ w, w ≠ u → ph' w = ph w := fun w hw => update_of_ne hw _ ph
  have hself : ph' u = .releasing (i + 1) last := update_self u _ ph
  have hsu : sent out ph u = i := sent_releasing hph
  have hlt := (List.getElem?_eq_some_iff.1 hv).1
  have hsent : ∀ w, sent out ph' w = if w = u then i + 1 else sent out ph w := sent_pass
  have hadv := remaining_of_sent hu hph hv hsent
  have hpos : 0 < remaining V out ph v := by
    apply remaining_pos hu
    rw [hsu]
    exact List.mem_drop_iff_getElem.2 ⟨0, by omega, by simpa using (List.getElem?_eq_some_iff.1 hv).2⟩
  have hu0 := hi.remaining_zero hu (by rw [hph]; simp)
  refine ⟨?_, ?_, ?_, ?_, ?_⟩
  · intro w hw
    rw [hsent w]
    by_cases hwu : w = u
    · subst hwu; rw [if_pos rfl]; omega
    · rw [if_neg hwu]; exact hi.bound w hw
  · intro w hw
    have := hadv w
    by_cases hwu : w = u
    · subst hwu
      rw [hself]
      constructor
      · intro h0; simp at h0
      · intro h0; omega
    · rw [hne w hwu, hi.waiting w hw]
      by_cases hvw : v = w
      · subst hvw; rw [if_pos rfl] at this; omega
      · rw [if_neg hvw] at this; omega
  · intro w hw j x hx
    have hxh : x ∈ V ∧ ph x = .held := by
      by_cases hwu : w = u
      · subst hwu
        rw [hself] at hx
        obtain ⟨-, rfl⟩ : i + 1 = j ∧ last = some x := by simpa using hx
        exact hi.held _ hw i x hph
      · rw [hne w hwu] at hx; exact hi.held w hw j x hx
    refine ⟨hxh.1, ?_⟩
    rw [hne x (by intro h0; subst h0; rw [hph] at hxh; simp at hxh)]; exact hxh.2
  · intro w hw hwh
    have hwu : w ≠ u := by intro h0; subst h0; rw [hself] at hwh; simp at hwh
    rw [hne w hwu] at hwh
    obtain ⟨a, haV, j, haj⟩ := hi.holder w hw hwh
    by_cases hau : a = u
    · subst hau
      rw [hph] at haj
      obtain ⟨-, rfl⟩ : i = j ∧ last = some w := by simpa using haj
      exact ⟨a, haV, i + 1, hself⟩
    · exact ⟨a, haV, j, by rw [hne a hau]; exact haj⟩
  · -- the holder's loop index moves, what it holds does not
    have hold : ∀ a, ∀ j x, ph' a = .releasing j (some x) → ∃ j', ph a = .releasing j' (some x) := by
      intro a j x hax
      by_cases hau : a = u
      · subst hau
        rw [hself] at hax
        obtain ⟨-, rfl⟩ : i + 1 = j ∧ last = some x := by simpa using hax
        exact ⟨i, hph⟩
      · exact ⟨j, by rw [hne a hau] at hax; exact hax⟩
    intro a haV b hbV j k x hax hbx
    obtain ⟨j', hj⟩ := hold a j x hax
    obtain ⟨k', hk⟩ := hold b k x hbx
    exact hi.unique a haV b hbV j' k' x hj hk

/-- Announcing the edge that makes its head ready. -/
theorem Inv.ready (hi : Inv V out ph) (hout : ∀ u ∈ V, ∀ v ∈ out u, v ∈ V) {u v : α} {i : ℕ}
    {last : Option α} (hu : u ∈ V) (hph : ph u = .releasing i last) (hv : (out u)[i]? = some v)
    (hr : remaining V out ph v = 1) :
    Inv V out (update (update (requeue ph last) v .held) u (.releasing (i + 1) (some v))) := by
  set ph' := update (update (requeue ph last) v .held) u (.releasing (i + 1) (some v)) with hph'
  have hvV : v ∈ V := hout u hu v (List.mem_of_getElem? hv)
  have hvw : ph v = .waiting := (hi.waiting v hvV).2 (by omega)
  have hvu : v ≠ u := by intro h0; subst h0; rw [hph] at hvw; simp at hvw
  have hlast : ∀ m, last = some m → m ∈ V ∧ ph m = .held := by
    rintro m rfl; exact hi.held u hu i m hph
  -- `ph'` at each kind of node
  have hself : ph' u = .releasing (i + 1) (some v) := update_self u _ _
  have hat : ph' v = .held := by rw [hph', update_of_ne hvu, update_self]
  have hm : ∀ m, last = some m → ph' m = .queued := by
    intro m hm
    have hmh := (hlast m hm).2
    have hmu : m ≠ u := by intro h0; subst h0; rw [hph] at hmh; simp at hmh
    have hmv : m ≠ v := by intro h0; subst h0; rw [hvw] at hmh; simp at hmh
    rw [hph', update_of_ne hmu, update_of_ne hmv, requeue_apply, if_pos hm]
  have hne : ∀ w, w ≠ u → w ≠ v → last ≠ some w → ph' w = ph w := by
    intro w h1 h2 h3
    rw [hph', update_of_ne h1, update_of_ne h2, requeue_apply, if_neg h3]
  have hlt := (List.getElem?_eq_some_iff.1 hv).1
  have hsent : ∀ w, sent out ph' w = if w = u then i + 1 else sent out ph w :=
    hi.sent_ready hu hph hvV hr
  have hadv := remaining_of_sent hu hph hv hsent
  -- the holders of `ph'`: `u` now holds `v`, the others are unchanged
  have hold : ∀ a j x, ph' a = .releasing j (some x) →
      (a = u ∧ x = v) ∨ (a ≠ u ∧ ph a = .releasing j (some x)) := by
    intro a j x hax
    by_cases hau : a = u
    · subst hau
      rw [hself] at hax
      obtain ⟨-, rfl⟩ : i + 1 = j ∧ v = x := by simpa using hax
      exact Or.inl ⟨rfl, rfl⟩
    · refine Or.inr ⟨hau, ?_⟩
      have hav : a ≠ v := by intro h0; subst h0; rw [hat] at hax; simp at hax
      have hal : last ≠ some a := by intro h0; rw [hm a h0] at hax; simp at hax
      rwa [hne a hau hav hal] at hax
  refine ⟨?_, ?_, ?_, ?_, ?_⟩
  · intro w hw
    rw [hsent w]
    by_cases hwu : w = u
    · subst hwu; rw [if_pos rfl]; omega
    · rw [if_neg hwu]; exact hi.bound w hw
  · intro w hw
    have hadvw := hadv w
    by_cases hww : ph w = .waiting
    · have hwu : w ≠ u := by intro h0; subst h0; rw [hph] at hww; simp at hww
      by_cases hwv : w = v
      · subst hwv
        rw [if_pos rfl] at hadvw
        rw [hat]
        constructor
        · intro h0; simp at h0
        · intro h0; omega
      · have hwl : last ≠ some w := by intro h0; rw [(hlast w h0).2] at hww; simp at hww
        rw [if_neg (Ne.symm hwv)] at hadvw
        rw [hne w hwu hwv hwl, hi.waiting w hw]; omega
    · have h0 := hi.remaining_zero hw hww
      have hnot : ph' w ≠ .waiting := by
        by_cases hwu : w = u
        · subst hwu; rw [hself]; simp
        by_cases hwv : w = v
        · subst hwv; rw [hat]; simp
        by_cases hwl : last = some w
        · rw [hm w hwl]; simp
        · rw [hne w hwu hwv hwl]; exact hww
      constructor
      · intro h1; exact absurd h1 hnot
      · intro h1; omega
  · intro w hw j x hx
    rcases hold w j x hx with ⟨-, rfl⟩ | ⟨hwu, hx'⟩
    · exact ⟨hvV, hat⟩
    · obtain ⟨hxV, hxh⟩ := hi.held w hw j x hx'
      have hxu : x ≠ u := by intro h0; subst h0; rw [hph] at hxh; simp at hxh
      have hxv : x ≠ v := by intro h0; subst h0; rw [hvw] at hxh; simp at hxh
      have hxl : last ≠ some x := by
        rintro rfl; exact hwu (hi.unique w hw u hu j i x hx' hph)
      exact ⟨hxV, by rw [hne x hxu hxv hxl]; exact hxh⟩
  · intro w hw hwh
    by_cases hwv : w = v
    · subst hwv; exact ⟨u, hu, i + 1, hself⟩
    · have hwu : w ≠ u := by intro h0; subst h0; rw [hself] at hwh; simp at hwh
      have hwl : last ≠ some w := by intro h0; rw [hm w h0] at hwh; simp at hwh
      rw [hne w hwu hwv hwl] at hwh
      obtain ⟨a, haV, j, haj⟩ := hi.holder w hw hwh
      have hau : a ≠ u := by
        intro h0; subst h0
        rw [hph] at haj
        obtain ⟨-, h2⟩ : i = j ∧ last = some w := by simpa using haj
        exact hwl h2
      have hav : a ≠ v := by intro h0; subst h0; rw [hvw] at haj; simp at haj
      have hal : last ≠ some a := by intro h0; rw [(hlast a h0).2] at haj; simp at haj
      exact ⟨a, haV, j, by rw [hne a hau hav hal]; exact haj⟩
  · intro a haV b hbV j k x hax hbx
    rcases hold a j x hax with ⟨rfl, rfl⟩ | ⟨hau, hax'⟩ <;> rcases hold b k x hbx with ⟨h1, h2⟩ | ⟨hbu, hbx'⟩
    · exact h1.symm
    · have := (hi.held b hbV k x hbx').2
      rw [hvw] at this; simp at this
    · subst h2
      have := (hi.held a haV j x hax').2
      rw [hvw] at this; simp at this
    · exact hi.unique a haV b hbV j k x hax' hbx'

/-- Leaving the announcement loop. -/
theorem Inv.finish (hi : Inv V out ph) {u : α} {i : ℕ} {last : Option α} (hu : u ∈ V)
    (hph : ph u = .releasing i last) (hv : (out u)[i]? = none) :
    Inv V out (update (requeue ph last) u .done) := by
  set ph' := update (requeue ph last) u .done with hph'
  have hlast : ∀ m, last = some m → m ∈ V ∧ ph m = .held := by
    rintro m rfl; exact hi.held u hu i m hph
  have hself : ph' u = .done := update_self u _ _
  have hm : ∀ m, last = some m → ph' m = .queued := by
    intro m hm
    have hmh := (hlast m hm).2
    have hmu : m ≠ u := by intro h0; subst h0; rw [hph] at hmh; simp at hmh
    rw [hph', update_of_ne hmu, requeue_apply, if_pos hm]
  have hne : ∀ w, w ≠ u → last ≠ some w → ph' w = ph w := by
    intro w h1 h3
    rw [hph', update_of_ne h1, requeue_apply, if_neg h3]
  have hsent : ∀ w, sent out ph' w = sent out ph w := hi.sent_finish hu hph hv
  have hrem := fun x => remaining_congr (V := V) (fun w _ => hsent w) x
  -- no new holder
  have hold : ∀ a j x, ph' a = .releasing j (some x) → a ≠ u ∧ ph a = .releasing j (some x) := by
    intro a j x hax
    have hau : a ≠ u := by intro h0; subst h0; rw [hself] at hax; simp at hax
    have hal : last ≠ some a := by intro h0; rw [hm a h0] at hax; simp at hax
    exact ⟨hau, by rwa [hne a hau hal] at hax⟩
  refine ⟨fun w hw => by rw [hsent w]; exact hi.bound w hw, ?_, ?_, ?_, ?_⟩
  · intro w hw
    rw [hrem w]
    by_cases hww : ph w = .waiting
    · have hwu : w ≠ u := by intro h0; subst h0; rw [hph] at hww; simp at hww
      have hwl : last ≠ some w := by intro h0; rw [(hlast w h0).2] at hww; simp at hww
      rw [hne w hwu hwl]; exact hi.waiting w hw
    · have h0 := hi.remaining_zero hw hww
      have hnot : ph' w ≠ .waiting := by
        by_cases hwu : w = u
        · subst hwu; rw [hself]; simp
        by_cases hwl : last = some w
        · rw [hm w hwl]; simp
        · rw [hne w hwu hwl]; exact hww
      constructor
      · intro h1; exact absurd h1 hnot
      · intro h1; omega
  · intro w hw j x hx
    obtain ⟨hwu, hx'⟩ := hold w j x hx
    obtain ⟨hxV, hxh⟩ := hi.held w hw j x hx'
    have hxu : x ≠ u := by intro h0; subst h0; rw [hph] at hxh; simp at hxh
    have hxl : last ≠ some x := by
      rintro rfl; exact hwu (hi.unique w hw u hu j i x hx' hph)
    exact ⟨hxV, by rw [hne x hxu hxl]; exact hxh⟩
  · intro w hw hwh
    have hwu : w ≠ u := by intro h0; subst h0; rw [hself] at hwh; simp at hwh
    have hwl : last ≠ some w := by intro h0; rw [hm w h0] at hwh; simp at hwh
    rw [hne w hwu hwl] at hwh
    obtain ⟨a, haV, j, haj⟩ := hi.holder w hw hwh
    have hau : a ≠ u := by
      intro h0; subst h0
      rw [hph] at haj
      obtain ⟨-, h2⟩ : i = j ∧ last = some w := by simpa using haj
      exact hwl h2
    have hal : last ≠ some a := by intro h0; rw [(hlast a h0).2] at haj; simp at haj
    exact ⟨a, haV, j, by rw [hne a hau hal]; exact haj⟩
  · intro a haV b hbV j k x hax hbx
    exact hi.unique a haV b hbV j k x (hold a j x hax).2 (hold b k x hbx).2

/-- **Every step keeps the invariant.** -/
theorem Inv.step (hi : Inv V out ph) (hout : ∀ u ∈ V, ∀ v ∈ out u, v ∈ V)
    (hs : Step V out rank top ph ph') : Inv V out ph' := by
  have hown : ∀ {v : α} {p : Phase ω α}, v ∈ V → (ph v).Active → p.Active →
      (∀ i x, ph v ≠ .releasing i (some x)) → (∀ i x, p ≠ .releasing i (some x)) →
      sent out ph v = 0 → (∀ q : α → Phase ω α, q v = p → sent out q v = 0) →
      Inv V out (update ph v p) :=
    fun hv ha hb hl hp h0 h1 =>
      hi.update_own hv ha hb hl hp (by rw [h0]; exact h1 _ (update_self _ _ _))
  cases hs with
  | start hv hq _ =>
    exact hown hv (by rw [hq]; trivial) trivial (by simp [hq]) (by simp) (by simp [sent, hq])
      (fun q hq' => by simp [sent, hq'])
  | skip hv hq =>
    exact hown hv (by rw [hq]; trivial) trivial (by simp [hq]) (by simp) (by simp [sent, hq])
      (fun q hq' => by simp [sent, hq'])
  | work hv hw _ =>
    exact hown hv (by rw [hw]; trivial) trivial (by simp [hw]) (by simp) (by simp [sent, hw])
      (fun q hq' => by simp [sent, hq'])
  | release hv hw =>
    exact hown hv (by rw [hw]; trivial) trivial (by simp [hw]) (by simp) (by simp [sent, hw])
      (fun q hq' => by simp [sent, hq'])
  | pass hu hph hv hr => exact hi.pass hu hph hv hr
  | ready hu hph hv hr => exact hi.ready hout hu hph hv hr
  | finish hu hph hv => exact hi.finish hu hph hv

/-- The start: only the root is dispatched. -/
theorem inv_init {r : α} (h0 : ∀ u ∈ V, r ∉ out u) (h1 : ∀ v ∈ V, v ≠ r → ∃ u ∈ V, v ∈ out u) :
    Inv V out (ω := ω) (fun v => if v = r then .queued else .waiting) := by
  have hsent : ∀ u, sent out (ω := ω) (fun v => if v = r then .queued else .waiting) u = 0 := by
    intro u; unfold sent; by_cases hu : u = r <;> simp [hu]
  have hno : ∀ w i x, (if w = r then (.queued : Phase ω α) else .waiting) ≠ .releasing i (some x) := by
    intro w i x; by_cases hw : w = r <;> simp [hw]
  refine ⟨fun u _ => by rw [hsent u]; exact Nat.zero_le _, fun v hv => ?_, ?_, ?_, ?_⟩
  · by_cases hvr : v = r
    · subst hvr
      constructor
      · intro h; simp at h
      · intro h
        unfold remaining at h
        obtain ⟨u, hu, hne⟩ := Finset.exists_ne_zero_of_sum_ne_zero (Nat.ne_of_gt h)
        rw [hsent u, List.drop_zero] at hne
        exact absurd (List.count_pos_iff.1 (Nat.pos_of_ne_zero hne)) (h0 u hu)
    · obtain ⟨u, hu, hm⟩ := h1 v hv hvr
      refine ⟨fun _ => remaining_pos hu (by rw [hsent u]; exact hm), fun _ => by simp [hvr]⟩
  · intro u _ i v h; exact absurd h (hno u i v)
  · intro v _ h; by_cases hv : v = r <;> simp [hv] at h
  · intro u _ u' _ i i' v h; exact absurd h (hno u i v)

/-! ## Termination -/

/-- The steps a node still has before it. -/
def phaseCost (out : α → List α) (rank : α → ω → ℕ) (top : α → ℕ) (v : α) : Phase ω α → ℕ
  | .running w => rank v w + (out v).length + 2
  | .releasing i _ => (out v).length - i + 1
  | .done => 0
  | _ => top v + (out v).length + 3

/-- The steps left. -/
def cost (V : Finset α) (out : α → List α) (rank : α → ω → ℕ) (top : α → ℕ) (ph : α → Phase ω α) : ℕ :=
  ∑ v ∈ V, phaseCost out rank top v (ph v)

theorem cost_lt_of {u : α} (hu : u ∈ V)
    (h1 : phaseCost out rank top u (ph' u) < phaseCost out rank top u (ph u))
    (h2 : ∀ w, w ≠ u → phaseCost out rank top w (ph' w) = phaseCost out rank top w (ph w)) :
    cost V out rank top ph' < cost V out rank top ph := by
  unfold cost
  apply Finset.sum_lt_sum
  · intro w _
    by_cases hw : w = u
    · subst hw; exact h1.le
    · exact (h2 w hw).le
  · exact ⟨u, hu, h1⟩

/-- Dispatching a held node leaves every cost as it is. -/
theorem phaseCost_requeue (hi : Inv V out ph) {u : α} {i : ℕ} {last : Option α} (hu : u ∈ V)
    (hph : ph u = .releasing i last) (w : α) :
    phaseCost out rank top w (requeue ph last w) = phaseCost out rank top w (ph w) := by
  rw [requeue_apply]
  by_cases hw : last = some w
  · subst hw
    rw [if_pos rfl, (hi.held u hu i w hph).2]; rfl
  · rw [if_neg hw]

/-- **Every step uses up work.** -/
theorem Step.cost_lt (hi : Inv V out ph) (hout : ∀ u ∈ V, ∀ v ∈ out u, v ∈ V)
    (hs : Step V out rank top ph ph') : cost V out rank top ph' < cost V out rank top ph := by
  have hown : ∀ {v : α} {p : Phase ω α}, v ∈ V →
      phaseCost out rank top v p < phaseCost out rank top v (ph v) →
      cost V out rank top (update ph v p) < cost V out rank top ph :=
    fun {v p} hv hlt => cost_lt_of hv (by rw [update_self]; exact hlt)
      (fun w hw => by rw [update_of_ne hw])
  cases hs with
  | start hv hq hr => exact hown hv (by rw [hq]; simp only [phaseCost]; omega)
  | skip hv hq => exact hown hv (by rw [hq]; simp only [phaseCost]; omega)
  | work hv hw hr => exact hown hv (by rw [hw]; simp only [phaseCost]; omega)
  | release hv hw => exact hown hv (by rw [hw]; simp only [phaseCost]; omega)
  | pass hu hph hv hr =>
    have := (List.getElem?_eq_some_iff.1 hv).1
    exact hown hu (by rw [hph]; simp only [phaseCost]; omega)
  | @ready u i last v hu hph hv hr =>
    have hlt := (List.getElem?_eq_some_iff.1 hv).1
    have hvV := hout u hu v (List.mem_of_getElem? hv)
    have hvw : ph v = .waiting := (hi.waiting v hvV).2 (by omega)
    refine cost_lt_of hu (by rw [update_self, hph]; simp only [phaseCost]; omega) (fun w hw => ?_)
    rw [update_of_ne hw]
    by_cases hwv : w = v
    · subst hwv; rw [update_self, hvw]; rfl
    · rw [update_of_ne hwv, phaseCost_requeue hi hu hph]
  | @finish u i last hu hph hv =>
    refine cost_lt_of hu (by rw [update_self, hph]; simp only [phaseCost]; omega) (fun w hw => ?_)
    rw [update_of_ne hw, phaseCost_requeue hi hu hph]

/-! ## Order and progress -/

/-- An edge into a node that has stopped waiting is announced. -/
theorem Inv.sent_lt (hi : Inv V out ph) {u v : α} (hu : u ∈ V) (hv : v ∈ V) (hw : ph v ≠ .waiting)
    {i : ℕ} (he : (out u)[i]? = some v) : i < sent out ph u := by
  by_contra hle
  push Not at hle
  apply remaining_eq_zero (hi.remaining_zero hv hw) hu
  obtain ⟨hlt, hget⟩ := List.getElem?_eq_some_iff.1 he
  rw [List.mem_drop_iff_getElem]
  exact ⟨i - sent out ph u, by omega, by simp only [Nat.add_sub_cancel' hle, hget]⟩

/-- **Order.** All ancestors of a node that has stopped waiting have done their work. -/
theorem Inv.released_of_anc (hi : Inv V out ph) {a v : α}
    (h : TransGen (fun x y => x ∈ V ∧ y ∈ V ∧ y ∈ out x) a v) (hw : ph v ≠ .waiting) :
    (ph a).Released := by
  have one : ∀ {x y : α}, x ∈ V → y ∈ V → y ∈ out x → ph y ≠ .waiting → (ph x).Released := by
    intro x y hx hy he hne
    obtain ⟨i, hi'⟩ := List.getElem?_of_mem he
    exact released_of_sent (lt_of_le_of_lt (Nat.zero_le _) (hi.sent_lt hx hy hne hi'))
  induction h using TransGen.head_induction_on with
  | single he => exact one he.1 he.2.1 he.2.2 hw
  | head he _ ih => exact one he.1 he.2.1 he.2.2 ih.ne_waiting

/-- **Progress.** When nothing is active, every node is done. -/
theorem Inv.all_done (hi : Inv V out ph) (hact : ∀ v ∈ V, ¬(ph v).Active)
    (hmin : ∀ S ⊆ V, S.Nonempty → ∃ v ∈ S, ∀ a ∈ S, v ∉ out a) : ∀ v ∈ V, ph v = .done := by
  -- a held node would have an active holder
  have hwd : ∀ v ∈ V, ph v = .waiting ∨ ph v = .done := by
    intro v hv
    have ha := hact v hv
    cases hp : ph v with
    | waiting => exact Or.inl rfl
    | held =>
      obtain ⟨u, hu, i, hui⟩ := hi.holder v hv hp
      exact absurd (show (ph u).Active by rw [hui]; trivial) (hact u hu)
    | queued => rw [hp] at ha; exact absurd trivial ha
    | running w => rw [hp] at ha; exact absurd trivial ha
    | releasing i l => rw [hp] at ha; exact absurd trivial ha
    | done => exact Or.inr rfl
  by_contra hne
  push Not at hne
  obtain ⟨x, hx, hxd⟩ := hne
  have hdec : ∀ v, Decidable (ph v = .waiting) := fun v => Classical.dec _
  obtain ⟨v, hv, hva⟩ := hmin (V.filter fun v => ph v = .waiting) (Finset.filter_subset _ _)
    ⟨x, Finset.mem_filter.2 ⟨hx, (hwd x hx).resolve_right hxd⟩⟩
  obtain ⟨hvV, hvw⟩ := Finset.mem_filter.1 hv
  have hpos := (hi.waiting v hvV).1 hvw
  unfold remaining at hpos
  obtain ⟨u, hu, hne⟩ := Finset.exists_ne_zero_of_sum_ne_zero (Nat.ne_of_gt hpos)
  have hmem := List.count_pos_iff.1 (Nat.pos_of_ne_zero hne)
  rcases hwd u hu with huw | hud
  · exact hva u (Finset.mem_filter.2 ⟨hu, huw⟩) (List.mem_of_mem_drop hmem)
  · have : sent out ph u = (out u).length := by unfold sent; rw [hud]
    rw [this, List.drop_length] at hmem
    simp at hmem

/-- **Progress next to nodes that never release.** When only nodes in `X` are active, each
of them at its own work, every other node is done, or it waits and has one of them among its
ancestors. -/
theorem Inv.stalled (hi : Inv V out ph) {X : α → Prop} (hact : ∀ v ∈ V, (ph v).Active → X v)
    (hX : ∀ v, X v → ∃ w, ph v = .running w)
    (hmin : ∀ S ⊆ V, S.Nonempty → ∃ v ∈ S, ∀ a ∈ S, v ∉ out a) :
    ∀ v ∈ V, ph v = .done ∨ X v ∨
      (ph v = .waiting ∧ ∃ a, X a ∧ TransGen (fun x y => x ∈ V ∧ y ∈ V ∧ y ∈ out x) a v) := by
  -- a node that is held would have a holder that releases
  have hcases : ∀ v ∈ V, ph v = .done ∨ X v ∨ ph v = .waiting := by
    intro v hv
    by_cases ha : (ph v).Active
    · exact Or.inr (Or.inl (hact v hv ha))
    · cases hp : ph v with
      | waiting => exact Or.inr (Or.inr rfl)
      | done => exact Or.inl rfl
      | held =>
        obtain ⟨u, hu, i, hui⟩ := hi.holder v hv hp
        obtain ⟨w, hw⟩ := hX u (hact u hu (by rw [hui]; trivial))
        rw [hui] at hw
        cases hw
      | queued => rw [hp] at ha; exact absurd trivial ha
      | running w => rw [hp] at ha; exact absurd trivial ha
      | releasing i l => rw [hp] at ha; exact absurd trivial ha
  by_contra hne
  push Not at hne
  obtain ⟨x, hx, hxd, hxX, hxw⟩ := hne
  -- the first of the nodes that wait without reason
  have hdec : ∀ v, Decidable (ph v = .waiting ∧ ∀ a, X a →
    ¬TransGen (fun x y => x ∈ V ∧ y ∈ V ∧ y ∈ out x) a v) := fun v => Classical.dec _
  have hwait := ((hcases x hx).resolve_left hxd).resolve_left hxX
  obtain ⟨v, hv, hva⟩ := hmin (V.filter fun v => ph v = .waiting ∧ ∀ a, X a →
      ¬TransGen (fun x y => x ∈ V ∧ y ∈ V ∧ y ∈ out x) a v) (Finset.filter_subset _ _)
    ⟨x, Finset.mem_filter.2 ⟨hx, hwait, fun a ha => hxw hwait a ha⟩⟩
  obtain ⟨hvV, hvw, hvX⟩ := Finset.mem_filter.1 hv
  have hpos := (hi.waiting v hvV).1 hvw
  unfold remaining at hpos
  obtain ⟨u, hu, hrem⟩ := Finset.exists_ne_zero_of_sum_ne_zero (Nat.ne_of_gt hpos)
  have hmem := List.mem_of_mem_drop (List.count_pos_iff.1 (Nat.pos_of_ne_zero hrem))
  rcases hcases u hu with hud | huX | huw
  · have : sent out ph u = (out u).length := by unfold sent; rw [hud]
    rw [this, List.drop_length] at hrem
    simp at hrem
  · exact hvX u huX (.single ⟨hu, hvV, hmem⟩)
  · refine hva u (Finset.mem_filter.2 ⟨hu, huw, fun a ha hau => ?_⟩) hmem
    exact hvX a ha (hau.tail ⟨hu, hvV, hmem⟩)

end Dispatch
