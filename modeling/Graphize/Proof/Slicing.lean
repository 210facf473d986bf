import Graphize.Spec.ConcurrentService
import Graphize.Lib.Machine
import Graphize.Lib.Threads
import Mathlib.Tactic.Common

/-!
# What a concurrent service guarantees

* `Slicing.Move`: everything a step can do (`move_of_step`).
* `Token`: an event that happens once is paid for by one operation that is left
  (`Move.token`, `Token.step`); `process` is paid for by its task, and what follows the
  last decrement by the tasks that have not decremented.
* `slices_done_iff`: every way of running the tasks ends with `process` called once for
  each slice, then `merge` once and then the output nodes once, exactly when there is a
  slice at all: with none, nothing ever calls `merge` (`slices_none`).
-/

namespace Graphize

open Threads

namespace Slicing

variable {s s' : Slicing} {n t : ℕ}

/-! ## One step -/

/-- What one step makes of a thread, with the threads it starts, the counter it leaves and
the event it logs. -/
inductive Move (n : ℕ) (c : Int32) :
    List SliceOp → List SliceOp → List (List SliceOp) → Int32 → List SliceEvent → Prop
  | launch (i : ℕ) (hi : i < n) : Move n c [.launch i, .afterService] [.launch (i + 1), .afterService]
      [[.process i, .processed i, .fetchSub]] c []
  | launched (i : ℕ) (hi : n ≤ i) : Move n c [.launch i, .afterService] [.afterService] [] c []
  | return : Move n c [.afterService] [] [] c []
  | process (i : ℕ) : Move n c [.process i, .processed i, .fetchSub] [.processed i, .fetchSub] []
      c [.process i]
  | processed (i : ℕ) : Move n c [.processed i, .fetchSub] [.fetchSub] [] c [.processed i]
  | lastSub (hc : c = 1) : Move n c [.fetchSub] [.merge, .merged, .runOutputNodes] [] (c - 1) []
  | sub (hc : c ≠ 1) : Move n c [.fetchSub] [] [] (c - 1) []
  | merge : Move n c [.merge, .merged, .runOutputNodes] [.merged, .runOutputNodes] [] c [.merge n]
  | merged : Move n c [.merged, .runOutputNodes] [.runOutputNodes] [] c [.merged]
  | output : Move n c [.runOutputNodes] [] [] c [.runOutputNodes]

/-- What a thread can have left to do. -/
inductive Shape : List SliceOp → Prop
  | launch (i : ℕ) : Shape [.launch i, .afterService]
  | after : Shape [.afterService]
  | process (i : ℕ) : Shape [.process i, .processed i, .fetchSub]
  | processed (i : ℕ) : Shape [.processed i, .fetchSub]
  | fetchSub : Shape [.fetchSub]
  | merge : Shape [.merge, .merged, .runOutputNodes]
  | merged : Shape [.merged, .runOutputNodes]
  | output : Shape [.runOutputNodes]
  | done : Shape []

theorem Move.shape {c c' : Int32} {old new : List SliceOp} {started : List (List SliceOp)}
    {evs : List SliceEvent} (h : Move n c old new started c' evs) :
    Shape new ∧ ∀ ops ∈ started, Shape ops := by
  cases h with
  | launch i hi =>
    refine ⟨.launch (i + 1), fun ops hops => ?_⟩
    rw [List.mem_singleton.1 hops]
    exact .process i
  | launched i hi => exact ⟨.after, by simp⟩
  | «return» => exact ⟨.done, by simp⟩
  | process i => exact ⟨.processed i, by simp⟩
  | processed i => exact ⟨.fetchSub, by simp⟩
  | lastSub hc => exact ⟨.merge, by simp⟩
  | sub hc => exact ⟨.done, by simp⟩
  | merge => exact ⟨.merged, by simp⟩
  | merged => exact ⟨.output, by simp⟩
  | output => exact ⟨.done, by simp⟩

/-- **Inversion**: a step of a thread of the right shape is one of the moves. -/
theorem move_of_step (hs : ∀ ops ∈ s.threads, Shape ops) (h : s.step t = some s') :
    ∃ old new started c' evs, s.threads[t]? = some old ∧
      Move s.sliceNum s.countCnd old new started c' evs ∧
      s' = { s with countCnd := c', threads := s.threads.set t new ++ started, log := s.log ++ evs } := by
  unfold step at h
  split at h
  · cases h
  · cases h
  · rename_i op ops ht
    simp only [Option.some.injEq] at h
    subst h
    refine ⟨op :: ops, ?_⟩
    have hshape := hs _ (List.mem_of_getElem? ht)
    -- the shape of a thread fixes what follows its first operation
    generalize hold : op :: ops = old at hshape
    cases hshape with
    | launch i =>
      obtain ⟨rfl, rfl⟩ := List.cons.inj hold
      by_cases hi : i < s.sliceNum
      · refine ⟨_, _, _, _, ht, .launch i hi, ?_⟩
        simp [SliceOp.exec, hi]
      · refine ⟨_, _, _, _, ht, .launched i (by omega), ?_⟩
        simp [SliceOp.exec, hi]
    | after =>
      obtain ⟨rfl, rfl⟩ := List.cons.inj hold
      refine ⟨_, _, _, _, ht, .return, ?_⟩
      simp [SliceOp.exec, ConcurrentService.type]
    | process i =>
      obtain ⟨rfl, rfl⟩ := List.cons.inj hold
      exact ⟨_, _, _, _, ht, .process i, rfl⟩
    | processed i =>
      obtain ⟨rfl, rfl⟩ := List.cons.inj hold
      exact ⟨_, _, _, _, ht, .processed i, rfl⟩
    | fetchSub =>
      obtain ⟨rfl, rfl⟩ := List.cons.inj hold
      by_cases hc : s.countCnd = 1
      · refine ⟨_, _, _, _, ht, .lastSub hc, ?_⟩
        simp [SliceOp.exec, hc]
      · refine ⟨_, _, _, _, ht, .sub hc, ?_⟩
        simp [SliceOp.exec, hc]
    | merge =>
      obtain ⟨rfl, rfl⟩ := List.cons.inj hold
      exact ⟨_, _, _, _, ht, .merge, rfl⟩
    | merged =>
      obtain ⟨rfl, rfl⟩ := List.cons.inj hold
      exact ⟨_, _, _, _, ht, .merged, rfl⟩
    | output =>
      obtain ⟨rfl, rfl⟩ := List.cons.inj hold
      exact ⟨_, _, _, _, ht, .output, rfl⟩
    | done => cases hold

/-- The total weight after a step. -/
theorem total_step {w : SliceOp → ℕ} {old : List SliceOp} (ht : s.threads[t]? = some old)
    (new : List SliceOp) (started : List (List SliceOp)) :
    total w (s.threads.set t new ++ started) + weight w old =
      total w s.threads + weight w new + total w started := by
  have := total_set (w := w) ht new
  rw [total_append]
  omega

/-! ## Tokens -/

/-- The operations that will log `e` once, the tasks not yet launched included. -/
def eventW (n : ℕ) : SliceEvent → SliceOp → ℕ
  | .process k, .launch i => if i ≤ k ∧ k < n then 1 else 0
  | .process k, .process i => if i = k then 1 else 0
  | .processed k, .launch i => if i ≤ k ∧ k < n then 1 else 0
  | .processed k, .processed i => if i = k then 1 else 0
  | .merge k, .merge => if n = k then 1 else 0
  | .merged, .merged => 1
  | .runOutputNodes, .runOutputNodes => 1
  | _, _ => 0

/-- The decrements still to come. -/
def subW (n : ℕ) : SliceOp → ℕ
  | .launch i => n - i
  | .fetchSub => 1
  | _ => 0

/-- The counter is the number of decrements still to come. -/
structure Counting (n : ℕ) (s : Slicing) : Prop where
  sliceNum : s.sliceNum = n
  shape : ∀ ops ∈ s.threads, Shape ops
  count : s.countCnd.toInt = total (subW n) s.threads

/-- How often `e` is still to be paid for by the last decrement. -/
def owed (n : ℕ) (left : ℕ) : SliceEvent → ℕ
  | .process _ | .processed _ => 0
  | .merge k => if n = k ∧ 0 < left then 1 else 0
  | .merged | .runOutputNodes => if 0 < left then 1 else 0

/-- What has been logged, what is left and what is owed add up to what there was. -/
def Token (n : ℕ) (e : SliceEvent) (s : Slicing) : Prop :=
  s.log.count e + total (eventW n e) s.threads + owed n (total (subW n) s.threads) e =
    eventW n e (.launch 0) + owed n n e

/-- A move pays for what it logs. `L` decrements were still to come, `L'` are. -/
theorem Move.token {c c' : Int32} {old new : List SliceOp} {started : List (List SliceOp)}
    {evs : List SliceEvent} (h : Move n c old new started c' evs) {L L' : ℕ} (hc : c.toInt = L)
    (hL : L' + weight (subW n) old = L + weight (subW n) new + total (subW n) started) (e : SliceEvent) :
    evs.count e + weight (eventW n e) new + total (eventW n e) started + owed n L' e =
      weight (eventW n e) old + owed n L e := by
  cases h with
  | launch i hi =>
    have : L' = L := by simp [subW] at hL; omega
    subst this
    cases e <;> simp [eventW] <;> grind
  | launched i hi =>
    have : L' = L := by simp [subW] at hL; omega
    subst this
    cases e <;> simp [eventW] <;> grind
  | «return» =>
    have : L' = L := by simpa [subW] using hL
    subst this
    cases e <;> simp [eventW]
  | process i =>
    have : L' = L := by simpa [subW] using hL
    subst this
    cases e <;> simp [eventW, List.count_cons, add_comm]
  | processed i =>
    have : L' = L := by simpa [subW] using hL
    subst this
    cases e <;> simp [eventW, List.count_cons, add_comm]
  | lastSub hc1 =>
    -- the last decrement turns what was owed into operations
    have h1 : L = 1 := by
      rw [hc1] at hc
      have : (1 : Int32).toInt = 1 := rfl
      omega
    have h2 : L' = 0 := by simp [subW] at hL; omega
    subst h1 h2
    cases e <;> simp [eventW, owed]
  | sub hc1 =>
    have h1 : L ≠ 1 := by
      rintro rfl
      exact hc1 (Int32.toInt_inj.1 hc)
    have h2 : L' + 1 = L := by simpa [subW] using hL
    have h3 : 0 < L' ↔ 0 < L := by omega
    cases e <;> simp [eventW, owed, h3]
  | merge =>
    have : L' = L := by simpa [subW] using hL
    subst this
    cases e <;> simp [eventW, List.count_cons, add_comm]
  | merged =>
    have : L' = L := by simpa [subW] using hL
    subst this
    cases e <;> simp [eventW, add_comm]
  | output =>
    have : L' = L := by simpa [subW] using hL
    subst this
    cases e <;> simp [eventW, add_comm]

/-- The counter after a move. -/
theorem Move.count {c c' : Int32} {old new : List SliceOp} {started : List (List SliceOp)}
    {evs : List SliceEvent} (h : Move n c old new started c' evs) {L L' : ℕ} (hc : c.toInt = L)
    (hle : weight (subW n) old ≤ L)
    (hL : L' + weight (subW n) old = L + weight (subW n) new + total (subW n) started) : c'.toInt = L' := by
  have hdec : 0 < L → (c - 1).toInt = L - 1 := by
    intro hpos
    have hone : (1 : Int32).toInt = 1 := rfl
    rw [Int32.toInt_sub_of_le c 1 (by decide) (Int32.le_iff_toInt_le.2 (by omega)), hone, hc]
  cases h with
  | launch i hi => simp [subW] at hL; omega
  | launched i hi => simp [subW] at hL; omega
  | lastSub hc1 =>
    simp only [subW, weight_cons, weight_nil, total_nil] at hle hL
    rw [hdec (by omega)]
    omega
  | sub hc1 =>
    simp only [subW, weight_cons, weight_nil, total_nil] at hle hL
    rw [hdec (by omega)]
    omega
  | _ => simp [subW] at hL; omega

/-- **Every step keeps the counts.** -/
theorem Counting.step (hs : Counting n s) (h : s.step t = some s') :
    Counting n s' ∧ ∀ e, Token n e s → Token n e s' := by
  obtain ⟨old, new, started, c', evs, ht, hm, rfl⟩ := move_of_step hs.shape h
  have hL := total_step (w := subW n) ht new started
  have hle : weight (subW n) old ≤ total (subW n) s.threads := le_total (List.mem_of_getElem? ht)
  rw [hs.sliceNum] at hm
  refine ⟨⟨hs.sliceNum, fun ops hops => ?_, hm.count hs.count hle hL⟩, fun e he => ?_⟩
  · rcases mem_set_append hops with hops | rfl | hops
    · exact hs.shape ops hops
    · exact hm.shape.1
    · exact hm.shape.2 ops hops
  · have htok := hm.token hs.count hL e
    have htot := total_step (w := eventW n e) ht new started
    unfold Token at he ⊢
    rw [List.count_append]
    show _ + total _ (s.threads.set t new ++ started) + owed n (total _ (s.threads.set t new ++ started)) e = _
    omega

/-! ## Order -/

/-- What is logged before what. -/
inductive Precedes (n : ℕ) : SliceEvent → SliceEvent → Prop
  | process (i : ℕ) : Precedes n (.process i) (.processed i)
  | processed (i k : ℕ) (hi : i < n) : Precedes n (.processed i) (.merge k)
  | merge : Precedes n (.merge n) .merged
  | merged : Precedes n .merged .runOutputNodes

/-- In every state the later event is logged only if the earlier one is. -/
theorem Counting.logged (hs : Counting n s) (htok : ∀ e, Token n e s) {d e : SliceEvent}
    (hde : Precedes n d e) (he : e ∈ s.log) : d ∈ s.log := by
  have hpos : 0 < s.log.count e := List.count_pos_iff.2 he
  have hd := htok d
  have he' := htok e
  have hmono : ∀ w w' : SliceOp → ℕ, (∀ ops, Shape ops → weight w ops ≤ weight w' ops) →
      total w s.threads ≤ total w' s.threads :=
    fun w w' hw => total_mono fun ops hops => hw ops (hs.shape ops hops)
  apply List.count_pos_iff.1
  unfold Token at hd he'
  cases hde with
  | process i =>
    have hle := hmono (eventW n (.process i)) (eventW n (.processed i)) (by
      intro ops h
      cases h <;> simp [eventW])
    simp only [eventW, owed] at hd he'
    split at he' <;> split at hd <;> omega
  | processed i k hi =>
    -- the last decrement comes after every return
    have hle := hmono (eventW n (.processed i)) (subW n) (by
      intro ops h
      cases h with
      | launch j =>
        simp only [eventW, subW, weight_cons, weight_nil]
        split <;> omega
      | process j => simp only [eventW, subW, weight_cons, weight_nil]; split <;> omega
      | processed j => simp only [eventW, subW, weight_cons, weight_nil]; split <;> omega
      | _ => simp [eventW])
    simp only [eventW, owed, Nat.zero_le, hi, and_self, if_true] at hd he'
    split at he' <;> split at he' <;> omega
  | merge =>
    have hle := hmono (eventW n (.merge n)) (eventW n .merged) (by
      intro ops h
      cases h <;> simp [eventW])
    simp only [eventW, owed, true_and] at hd he'
    split at he' <;> split at hd <;> omega
  | merged =>
    have hle := hmono (eventW n .merged) (eventW n .runOutputNodes) (by
      intro ops h
      cases h <;> simp [eventW])
    simp only [eventW, owed] at hd he'
    omega

/-- What holds in every state of a run. -/
structure Inv (n : ℕ) (s : Slicing) : Prop where
  counting : Counting n s
  token : ∀ e, Token n e s
  order : ∀ l e l', s.log = l ++ e :: l' → ∀ d, Precedes n d e → d ∈ l

theorem Inv.step (hs : Inv n s) (h : s.step t = some s') : Inv n s' := by
  obtain ⟨hc, htok⟩ := hs.counting.step h
  obtain ⟨old, new, started, c', evs, ht, hm, rfl⟩ := move_of_step hs.counting.shape h
  have htok' := fun e => htok e (hs.token e)
  refine ⟨hc, htok', fun l e l' hl d hde => ?_⟩
  rcases append_eq_append_cons hl with ⟨m, hm', -⟩ | ⟨m, rfl, hevs⟩
  · exact hs.order l e m hm' d hde
  · -- `e` is logged by this step, alone
    have hlen : evs.length ≤ 1 := by cases hm <;> simp
    rw [hevs, List.length_append, List.length_cons] at hlen
    have hm0 : m = [] := List.length_eq_zero_iff.1 (by omega)
    have hl0 : l' = [] := List.length_eq_zero_iff.1 (by omega)
    subst hm0 hl0
    have hmem := hc.logged htok' hde (by rw [hl]; simp)
    rw [hevs] at hmem
    rcases List.mem_append.1 hmem with hmem | hmem
    · rw [List.append_nil]
      exact hmem
    · rw [List.mem_singleton.1 hmem] at hde
      cases hde

theorem inv_doService (hn : n < 2 ^ 31) : Inv n (ConcurrentService.doService n) where
  counting := {
    sliceNum := rfl
    shape := by
      intro ops hops
      rw [List.mem_singleton.1 hops]
      exact .launch 0
    count := by
      show (Int32.ofNat n).toInt = _
      rw [Int32.toInt_ofNat_of_lt hn]
      simp [ConcurrentService.doService, subW] }
  token e := by
    show 0 + total _ [_] + owed n (total _ [_]) e = _
    cases e <;> simp [eventW, subW]
  order l e l' hl := by
    exact absurd hl (by simp [ConcurrentService.doService])

theorem inv_run (hn : n < 2 ^ 31) {ts : List ℕ}
    (h : Machine.run Slicing.step (ConcurrentService.doService n) ts = some s) : Inv n s :=
  Machine.run_inv (Inv n) (fun _ _ _ hs h => hs.step h) ts _ s (inv_doService hn) h

/-- Nothing is left to do where no thread can go on. -/
theorem total_of_stuck (h : Machine.Stuck Slicing.step s) (w : SliceOp → ℕ) : total w s.threads = 0 := by
  refine total_eq_zero fun ops hops => ?_
  obtain ⟨t, ht⟩ := List.mem_iff_getElem?.1 hops
  cases ops with
  | nil => rfl
  | cons op ops =>
    have := h t
    simp [Slicing.step, ht] at this

/-- What a service that has come to its end has done. -/
structure Done (n : ℕ) (s : Slicing) : Prop where
  process : ∀ i, s.log.count (.process i) = if i < n then 1 else 0
  merge : ∀ m, s.log.count (.merge m) = if m = n then 1 else 0
  output : s.log.count .runOutputNodes = 1
  merge_after : ∀ l m l', s.log = l ++ .merge m :: l' → ∀ i < n, .processed i ∈ l
  output_after : ∀ l l', s.log = l ++ .runOutputNodes :: l' → .merged ∈ l

theorem Inv.done (hs : Inv n s) (hn : n ≠ 0) (h : Machine.Stuck Slicing.step s) : Done n s := by
  have hpos : 0 < n := Nat.pos_of_ne_zero hn
  have htok : ∀ e, s.log.count e = eventW n e (.launch 0) + owed n n e := by
    intro e
    have htoken := hs.token e
    rw [Token, total_of_stuck h, total_of_stuck h] at htoken
    have : owed n 0 e = 0 := by cases e <;> simp [owed]
    omega
  refine ⟨fun i => ?_, fun m => ?_, ?_, fun l m l' hl i hi => ?_, fun l l' hl => ?_⟩
  · rw [htok]; simp [eventW, owed]
  · rw [htok]; simp [eventW, owed, hpos, eq_comm]
  · rw [htok]; simp [eventW, owed, hpos]
  · exact hs.order l _ l' hl _ (.processed i m hi)
  · exact hs.order l _ l' hl _ .merged

end Slicing

/-- **A service without slices never merges**, however it is run. -/
theorem slices_none {ts : List ℕ} {s : Slicing}
    (h : Machine.run Slicing.step (ConcurrentService.doService 0) ts = some s) :
    s.log.count (.merge 0) = 0 ∧ s.log.count .runOutputNodes = 0 := by
  have hs := Slicing.inv_run (by decide) h
  have h1 := hs.token (.merge 0)
  have h2 := hs.token .runOutputNodes
  simp only [Slicing.Token, Slicing.eventW, Slicing.owed, true_and, lt_irrefl, if_false] at h1 h2
  omega

/-- **What a service guarantees**: for every slice count in the range of `int` and every
way of running the tasks, `process` is never called twice for an index, and where nothing is
left to do it has been called once for each index below the count, then `merge` once, then
the output nodes once; this holds exactly when the count is not 0. -/
theorem slices_done_iff {n : ℕ} (hn : n < 2 ^ 31) :
    (∀ ts s, Machine.run Slicing.step (ConcurrentService.doService n) ts = some s →
      (∀ i, s.log.count (.process i) ≤ 1) ∧ (Machine.Stuck Slicing.step s → s.Done n)) ↔ n ≠ 0 := by
  constructor
  · rintro h rfl
    -- the loop ends at once, and nothing is left
    obtain ⟨s, hrun, hstuck⟩ : ∃ s, Machine.run Slicing.step (ConcurrentService.doService 0) [0, 0] = some s ∧
        Machine.Stuck Slicing.step s := by
      refine ⟨_, rfl, fun t => ?_⟩
      rcases t with _ | t <;> rfl
    have hdone := ((h _ s hrun).2 hstuck).merge 0
    rw [(slices_none hrun).1] at hdone
    exact absurd hdone (by decide)
  · intro hne ts s hrun
    have hs := Slicing.inv_run hn hrun
    refine ⟨fun i => ?_, hs.done hne⟩
    have htok := hs.token (.process i)
    simp only [Slicing.Token, Slicing.eventW, Slicing.owed] at htok
    split at htok <;> omega

/-- Two slices, whose tasks take turns. -/
theorem slices_two :
    ∃ s, Machine.run Slicing.step (ConcurrentService.doService 2) [0, 0, 0, 0, 2, 1, 2, 1, 1, 2, 2, 2, 2] = some s ∧
      s.Done 2 := by
  obtain ⟨s, hrun, hstuck⟩ : ∃ s, Machine.run Slicing.step (ConcurrentService.doService 2)
      [0, 0, 0, 0, 2, 1, 2, 1, 1, 2, 2, 2, 2] = some s ∧ Machine.Stuck Slicing.step s := by
    refine ⟨_, rfl, fun t => ?_⟩
    rcases t with _ | _ | _ | t <;> rfl
  exact ⟨s, hrun, ((slices_done_iff (by decide)).2 (by decide) _ s hrun).2 hstuck⟩

/-- No slice: `do_service` has returned, and the output nodes are never run. -/
theorem slices_zero :
    ∃ s, Machine.run Slicing.step (ConcurrentService.doService 0) [0, 0] = some s ∧
      Machine.Stuck Slicing.step s ∧ ¬ s.Done 0 := by
  refine ⟨_, rfl, fun t => ?_, fun h => ?_⟩
  · rcases t with _ | t <;> rfl
  · exact absurd h.output (by decide)

end Graphize
