import Graphize.Lib.Machine
import Mathlib.Data.List.Basic
import Mathlib.Data.List.Perm.Basic

/-!
# A desk with servers

A desk accepts items into one queue; its `n` servers take them from the front and finish
them in any order. The users see a list of actions, and `step n` says which action may come
next.

* `Law`: what holds at all times: served in the order of acceptance, nothing lost and nothing
  served twice, and at most `n` items at work; `law_run`.
* `eq_of_one`: a single server also finishes in that order; `started_of_zero`: no server, no work.
* `perm_of_rest`: what an idle desk without a queue has accepted, it has finished.
* `memory_run`: the desk remembers its actions.
-/

namespace Desk

variable {α : Type*}

/-- What the users of a desk see. -/
inductive Action (α : Type*) where
  | accept (a : α)
  | start (a : α)
  | finish (a : α)

/-- The items it was given: those in the queue and at work, and those that have been. -/
structure State (α : Type*) where
  queue : List α := []
  active : List α := []
  accepted : List α := []
  started : List α := []
  finished : List α := []

variable [DecidableEq α]

/-- One action of a desk with `n` servers. -/
def step (n : ℕ) (d : State α) : Action α → Option (State α)
  | .accept a => some { d with queue := d.queue ++ [a], accepted := d.accepted ++ [a] }
  | .start a =>
    if d.queue.head? = some a ∧ d.active.length < n then
      some { d with queue := d.queue.tail, active := d.active ++ [a], started := d.started ++ [a] }
    else none
  | .finish a =>
    if a ∈ d.active then
      some { d with active := d.active.erase a, finished := d.finished ++ [a] }
    else none

/-- **The law of a desk.** -/
structure Law (n : ℕ) (d : State α) : Prop where
  /-- First come, first served. -/
  fifo : d.accepted = d.started ++ d.queue
  served : d.started.Perm (d.finished ++ d.active)
  capacity : d.active.length ≤ n

variable {n : ℕ} {d d' : State α} {a : α}

theorem start_iff : step n d (.start a) = some d' ↔ ∃ q, d.queue = a :: q ∧ d.active.length < n ∧
    d' = { d with queue := q, active := d.active ++ [a], started := d.started ++ [a] } := by
  unfold step
  cases hq : d.queue with
  | nil => simp
  | cons b q =>
    simp only [List.head?_cons, Option.some.injEq, List.tail_cons, List.cons.injEq]
    constructor
    · intro h
      split at h
      · rename_i hc
        obtain ⟨rfl, hlt⟩ := hc
        exact ⟨q, ⟨rfl, rfl⟩, hlt, (Option.some.inj h).symm⟩
      · cases h
    · rintro ⟨q', ⟨rfl, rfl⟩, hlt, rfl⟩
      rw [if_pos ⟨rfl, hlt⟩]

theorem finish_iff : step n d (.finish a) = some d' ↔ a ∈ d.active ∧
    d' = { d with active := d.active.erase a, finished := d.finished ++ [a] } := by
  unfold step
  dsimp only
  split
  · rename_i ha
    rw [Option.some.injEq]
    exact ⟨fun h => ⟨ha, h.symm⟩, fun h => h.2.symm⟩
  · rename_i ha
    constructor
    · intro h
      cases h
    · intro h
      exact absurd h.1 ha

/-- One action keeps the law. -/
theorem Law.step {act : Action α} (hl : Law n d) (h : step n d act = some d') : Law n d' := by
  cases act with
  | accept a =>
    obtain rfl := Option.some.inj h
    refine ⟨?_, hl.served, hl.capacity⟩
    dsimp only
    rw [hl.fifo, List.append_assoc]
  | start a =>
    obtain ⟨q, hq, hlt, rfl⟩ := start_iff.1 h
    refine ⟨?_, ?_, ?_⟩
    · dsimp only
      rw [hl.fifo, hq, List.append_assoc, List.singleton_append]
    · dsimp only
      rw [← List.append_assoc]
      exact hl.served.append_right [a]
    · dsimp only
      rw [List.length_append, List.length_singleton]
      omega
  | finish a =>
    obtain ⟨ha, rfl⟩ := finish_iff.1 h
    refine ⟨hl.fifo, ?_, ?_⟩
    · dsimp only
      rw [List.append_assoc, List.singleton_append]
      exact hl.served.trans ((List.perm_cons_erase ha).append_left _)
    · exact le_trans (List.erase_sublist.length_le) hl.capacity

/-- **Every run of a desk obeys the law.** -/
theorem law_run {acts : List (Action α)} (h : Machine.run (step n) ({} : State α) acts = some d) : Law n d := by
  apply Machine.run_inv (Law n) (fun _ _ _ hl h => hl.step h) acts _ _ _ h
  exact ⟨rfl, .nil, Nat.zero_le _⟩

/-- Without servers nothing is started. -/
theorem started_of_zero {acts : List (Action α)} (h : Machine.run (step 0) ({} : State α) acts = some d) :
    d.started = [] := by
  apply Machine.run_inv (fun d => d.started = []) ?_ acts _ _ rfl h
  intro s act s' hs hstep
  cases act with
  | accept a =>
    obtain rfl := Option.some.inj hstep
    exact hs
  | start a =>
    obtain ⟨q, -, hlt, -⟩ := start_iff.1 hstep
    exact absurd hlt (Nat.not_lt_zero _)
  | finish a =>
    obtain ⟨-, rfl⟩ := finish_iff.1 hstep
    exact hs

/-- A single server finishes in the order of acceptance. -/
theorem eq_of_one {acts : List (Action α)} (h : Machine.run (step 1) ({} : State α) acts = some d) :
    d.started = d.finished ++ d.active := by
  have hinv : Law 1 d ∧ d.started = d.finished ++ d.active := by
    apply Machine.run_inv (fun d => Law 1 d ∧ d.started = d.finished ++ d.active) ?_ acts _ _ ?_ h
    · rintro s act s' ⟨hl, heq⟩ hs
      refine ⟨hl.step hs, ?_⟩
      cases act with
      | accept a =>
        obtain rfl := Option.some.inj hs
        exact heq
      | start a =>
        obtain ⟨q, -, -, rfl⟩ := start_iff.1 hs
        dsimp only
        rw [heq, List.append_assoc]
      | finish a =>
        obtain ⟨ha, rfl⟩ := finish_iff.1 hs
        -- the item at work is the only one
        have hone : s.active = [a] := by
          have hlen := hl.capacity
          match hact : s.active with
          | [] => rw [hact] at ha; exact absurd ha List.not_mem_nil
          | [b] => rw [hact] at ha; rw [List.mem_singleton.1 ha]
          | b :: c :: l => rw [hact, List.length_cons, List.length_cons] at hlen; omega
        dsimp only
        rw [heq, hone]
        simp
    · exact ⟨⟨rfl, .nil, Nat.zero_le _⟩, rfl⟩
  exact hinv.2

omit [DecidableEq α] in
/-- **A desk at rest** has finished what it accepted. -/
theorem Law.perm_of_rest (hl : Law n d) (hq : d.queue = []) (ha : d.active = []) : d.finished.Perm d.accepted := by
  have hserved := hl.served
  rw [ha, List.append_nil] at hserved
  rw [hl.fifo, hq, List.append_nil]
  exact hserved.symm

/-! ## What a desk remembers -/

def Action.accepted : Action α → Option α
  | .accept a => some a
  | _ => none

def Action.started : Action α → Option α
  | .start a => some a
  | _ => none

def Action.finished : Action α → Option α
  | .finish a => some a
  | _ => none

/-- The desk remembers its actions. -/
theorem memory_step {act : Action α} (h : step n d act = some d') :
    d'.accepted = d.accepted ++ act.accepted.toList ∧ d'.started = d.started ++ act.started.toList ∧
      d'.finished = d.finished ++ act.finished.toList := by
  cases act with
  | accept a =>
    obtain rfl := Option.some.inj h
    simp [Action.accepted, Action.started, Action.finished]
  | start a =>
    obtain ⟨q, -, -, rfl⟩ := start_iff.1 h
    simp [Action.accepted, Action.started, Action.finished]
  | finish a =>
    obtain ⟨-, rfl⟩ := finish_iff.1 h
    simp [Action.accepted, Action.started, Action.finished]

theorem memory_run : ∀ {acts : List (Action α)} {d d' : State α}, Machine.run (step n) d acts = some d' →
    d'.accepted = d.accepted ++ acts.filterMap Action.accepted ∧
      d'.started = d.started ++ acts.filterMap Action.started ∧
      d'.finished = d.finished ++ acts.filterMap Action.finished := by
  intro acts
  induction acts with
  | nil =>
    intro d d' h
    rw [Machine.run_nil, Option.some.injEq] at h
    subst h
    simp
  | cons act acts ih =>
    intro d d' h
    obtain ⟨e, he, hrun⟩ := Machine.run_cons_iff.1 h
    obtain ⟨h1, h2, h3⟩ := memory_step he
    obtain ⟨i1, i2, i3⟩ := ih hrun
    rw [i1, i2, i3, h1, h2, h3]
    have hcons : ∀ f : Action α → Option α, (act :: acts).filterMap f = (f act).toList ++ acts.filterMap f := by
      intro f
      rw [List.filterMap_cons]
      cases f act <;> rfl
    simp only [hcons, List.append_assoc, and_self]

end Desk
