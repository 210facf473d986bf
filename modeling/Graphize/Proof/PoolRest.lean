import Graphize.Proof.ThreadPool

/-!
# How a thread pool comes to rest

* `Shaped`: the phases from the constructor to the end of the destructor.
* `Move.work`: the pool moves by itself for a bounded number of steps only.
* `pool_drains`: when it stops moving, it has run every task, and sleeps or is gone.
* `pool_destroyed`: the destructor returns after every accepted task has been run, and
  nothing is accepted once it has begun.
-/

namespace Graphize

open Threads

namespace ThreadPool

variable {α β : Type*} {run : α → β} {n : ℕ} {s s' : ThreadPool α β} {c : PoolChoice α}

/-! ## From the constructor to the destructor -/

/-- The destructor has begun. -/
def stopped : PoolPhase → Bool
  | .stopping | .joining _ | .destroyed => true
  | _ => false

/-- It has notified all workers. -/
def woken : PoolPhase → Bool
  | .joining _ | .destroyed => true
  | _ => false

theorem stopped_of_woken {p : PoolPhase} (h : woken p = true) : stopped p = true := by
  cases p with
  | joining j => rfl
  | destroyed => rfl
  | constructing => cases h
  | live => cases h
  | stopping => cases h

/-- How many workers it has joined. -/
def joins (threads : ℕ) : PoolPhase → ℕ
  | .joining j => j
  | .destroyed => threads
  | _ => 0

structure Shaped (s : ThreadPool α β) : Prop where
  bound : s.workers.length ≤ s.threads
  size : s.phase ≠ .constructing → s.workers.length = s.threads
  stop : s.stop = stopped s.phase
  awake : woken s.phase = true → .waiting ∉ s.workers
  left : .returned ∈ s.workers → s.stop = true ∧ s.tasks = []
  joined : ∀ w < joins s.threads s.phase, s.workers[w]? = some .returned
  thrown : ∀ (i : ℕ) (x : EnqueueCall α β), s.calls[i]? = some x → x.phase = .thrown → s.stop = true

/-- Another state for a worker that has not returned. -/
theorem Shaped.setWorker (hs : Shaped s) {w : ℕ} {x y : Worker} (hw : s.workers[w]? = some x) (hx : x ≠ .returned)
    (hwait : y = .waiting → s.stop = false) (hret : y = .returned → s.stop = true ∧ s.tasks = []) :
    Shaped (s.setWorker w y) := by
  refine ⟨?_, ?_, hs.stop, ?_, ?_, ?_, hs.thrown⟩
  · simp only [ThreadPool.setWorker, List.length_set]
    exact hs.bound
  · simp only [ThreadPool.setWorker, List.length_set]
    exact hs.size
  · intro hwoken hmem
    rcases List.mem_or_eq_of_mem_set hmem with hmem | rfl
    · exact hs.awake hwoken hmem
    · -- a worker falls asleep only before the destructor
      have hstop : s.stop = true := hs.stop.trans (stopped_of_woken hwoken)
      rw [hwait rfl] at hstop
      cases hstop
  · intro hmem
    rcases List.mem_or_eq_of_mem_set hmem with hmem | rfl
    · exact hs.left hmem
    · exact hret rfl
  · intro v hv
    have hjoined := hs.joined v hv
    by_cases hvw : w = v
    · subst hvw
      rw [hw, Option.some.injEq] at hjoined
      exact absurd hjoined hx
    · simp only [ThreadPool.setWorker]
      rw [List.getElem?_set_ne hvw]
      exact hjoined

/-- Another state for a call. -/
theorem Shaped.setCall (hs : Shaped s) {i : ℕ} {x x' : EnqueueCall α β} (hx : s.calls[i]? = some x)
    (hthrown : x'.phase = .thrown → x.phase = .thrown ∨ s.stop = true) : Shaped (s.setCall i x') := by
  refine ⟨hs.bound, hs.size, hs.stop, hs.awake, hs.left, hs.joined, fun j y hy hthr => ?_⟩
  rcases getElem?_set_call hx hy with ⟨rfl, rfl⟩ | ⟨-, hy⟩
  · rcases hthrown hthr with h | h
    · exact hs.thrown i x hx h
    · exact h
  · exact hs.thrown j y hy hthr

/-- **Every move** keeps the shape of the pool. -/
theorem Shaped.move (hs : Shaped s) (h : Move run s c s') : Shaped s' := by
  cases h with
  | launch hp hl =>
    refine ⟨?_, fun hne => absurd hp hne, hs.stop, ?_, ?_, ?_, hs.thrown⟩
    · rw [List.length_append, List.length_singleton]
      exact hl
    · intro hwoken
      dsimp only at hwoken
      rw [hp] at hwoken
      cases hwoken
    · intro hmem
      rcases List.mem_append.1 hmem with hmem | hmem
      · exact hs.left hmem
      · cases List.mem_singleton.1 hmem
    · intro w hw
      dsimp only at hw
      rw [hp] at hw
      exact absurd hw (Nat.not_lt_zero w)
  | built hp hl =>
    have hstop := hs.stop
    rw [hp] at hstop
    refine ⟨hs.bound, fun _ => le_antisymm hs.bound hl, hstop, ?_, hs.left, ?_, hs.thrown⟩
    · intro hwoken
      cases hwoken
    · intro w hw
      exact absurd hw (Nat.not_lt_zero w)
  | enqueue task hp =>
    refine ⟨hs.bound, hs.size, hs.stop, hs.awake, hs.left, hs.joined, fun i x hx hthr => ?_⟩
    rcases List.mem_append.1 (List.mem_of_getElem? hx) with hmem | hmem
    · obtain ⟨j, hj⟩ := List.getElem?_of_mem hmem
      exact hs.thrown j x hj hthr
    · rw [List.mem_singleton.1 hmem] at hthr
      cases hthr
  | refuse i w x hx hl hstop => exact hs.setCall hx fun _ => Or.inr hstop
  | accept i w x hx hl hstop =>
    have hset : Shaped (s.setCall i { x with phase := .notifying }) := hs.setCall hx (by rintro ⟨⟩)
    refine ⟨hset.bound, hset.size, hset.stop, hset.awake, ?_, hset.joined, hset.thrown⟩
    intro hmem
    have hleft := (hs.left hmem).1
    rw [hstop] at hleft
    cases hleft
  | notify i w x hx hn hw =>
    have hset : Shaped (s.setWorker w .ready) := hs.setWorker hw (by rintro ⟨⟩) (by rintro ⟨⟩) (by rintro ⟨⟩)
    exact hset.setCall hx (by rintro ⟨⟩)
  | unheard i w x hx hn hw => exact hs.setCall hx (by rintro ⟨⟩)
  | sleep w hw ht hstop => exact hs.setWorker hw (by rintro ⟨⟩) (fun _ => hstop) (by rintro ⟨⟩)
  | leave w hw ht hstop => exact hs.setWorker hw (by rintro ⟨⟩) (by rintro ⟨⟩) fun _ => ⟨hstop, ht⟩
  | start w i tasks hw ht =>
    have hset : Shaped (s.setWorker w (.running i)) :=
      hs.setWorker hw (by rintro ⟨⟩) (by rintro ⟨⟩) (by rintro ⟨⟩)
    refine ⟨hset.bound, hset.size, hset.stop, hset.awake, ?_, hset.joined, hset.thrown⟩
    intro hmem
    have hnil : s.tasks = [] := (hset.left hmem).2
    rw [ht] at hnil
    cases hnil
  | finish w i x hw hx =>
    have hset : Shaped (s.setWorker w .ready) := hs.setWorker hw (by rintro ⟨⟩) (by rintro ⟨⟩) (by rintro ⟨⟩)
    have hcall : Shaped ((s.setWorker w .ready).setCall i { x with future := some (run x.task) }) :=
      hset.setCall hx Or.inl
    exact ⟨hcall.bound, hcall.size, hcall.stop, hcall.awake, hcall.left, hcall.joined, hcall.thrown⟩
  | spurious w hw => exact hs.setWorker hw (by rintro ⟨⟩) (by rintro ⟨⟩) (by rintro ⟨⟩)
  | destroy hp =>
    refine ⟨hs.bound, fun _ => hs.size (by rw [hp]; rintro ⟨⟩), rfl, ?_, ?_, ?_, fun _ _ _ _ => rfl⟩
    · intro hwoken
      cases hwoken
    · intro hmem
      exact ⟨rfl, (hs.left hmem).2⟩
    · intro w hw
      exact absurd hw (Nat.not_lt_zero w)
  | notifyAll hp =>
    have hstop := hs.stop
    rw [hp] at hstop
    refine ⟨?_, fun _ => ?_, hstop, fun _ => waiting_notMem_wake _, ?_, ?_, hs.thrown⟩
    · rw [List.length_map]
      exact hs.bound
    · rw [List.length_map]
      exact hs.size (by rw [hp]; rintro ⟨⟩)
    · intro hmem
      obtain ⟨x, hx, hwake⟩ := List.mem_map.1 hmem
      cases x with
      | returned => exact hs.left hx
      | ready => cases hwake
      | waiting => cases hwake
      | running i => cases hwake
    · intro w hw
      exact absurd hw (Nat.not_lt_zero w)
  | join j hp hw =>
    have hstop := hs.stop
    have hawake := hs.awake
    have hjoined := hs.joined
    rw [hp] at hstop hawake hjoined
    refine ⟨hs.bound, fun _ => hs.size (by rw [hp]; rintro ⟨⟩), hstop, hawake, hs.left, ?_, hs.thrown⟩
    intro v hv
    rcases Nat.lt_succ_iff_lt_or_eq.1 hv with hv | rfl
    · exact hjoined v hv
    · exact hw
  | joined j hp hw =>
    have hstop := hs.stop
    have hawake := hs.awake
    have hjoined := hs.joined
    have hsize := hs.size (by rw [hp]; rintro ⟨⟩)
    rw [hp] at hstop hawake hjoined
    refine ⟨hs.bound, fun _ => hsize, hstop, hawake, hs.left, ?_, hs.thrown⟩
    intro v hv
    apply hjoined
    have hlen : s.workers.length ≤ j := List.getElem?_eq_none_iff.1 hw
    simp only [joins] at hv ⊢
    omega

theorem shaped_start : Shaped ({ threads := n } : ThreadPool α β) := by
  refine ⟨Nat.zero_le _, fun hne => absurd rfl hne, rfl, ?_, ?_, ?_, ?_⟩
  · intro _ hmem
    cases hmem
  · intro hmem
    cases hmem
  · intro w hw
    exact absurd hw (Nat.not_lt_zero w)
  · intro i x hx
    cases hx

theorem shaped {cs : List (PoolChoice α)} (h : Machine.run (step run) { threads := n } cs = some s) : Shaped s :=
  Machine.run_inv Shaped (fun _ _ _ hs hstep => hs.move (step_move hstep)) cs _ _ shaped_start h

/-! ## The pool comes to rest -/

/-- The steps a worker has before it until it sleeps. -/
def workerWork : Worker → ℕ
  | .ready => 1
  | .running _ => 2
  | _ => 0

/-- What a call brings with it. -/
def callWork (x : EnqueueCall α β) : ℕ :=
  match x.phase with
  | .locking => 5
  | .notifying => 2
  | _ => 0

def phaseWork (s : ThreadPool α β) : ℕ :=
  match s.phase with
  | .constructing => 2 * (s.threads - s.workers.length) + (2 * s.threads + 4)
  | .live => 2 * s.threads + 3
  | .stopping => 2 * s.workers.length + 2
  | .joining j => s.workers.length - j + 1
  | .destroyed => 0

/-- The steps that are left when nobody calls and nobody wakes up by himself. -/
def work (s : ThreadPool α β) : ℕ :=
  weight workerWork s.workers + 2 * s.tasks.length + weight callWork s.calls + s.phaseWork

/-- What a choice brings in. -/
def cost : PoolChoice α → ℕ
  | .enqueue _ => 6
  | .spurious _ => 2
  | _ => 0

theorem work_wake (workers : List Worker) :
    weight workerWork (workers.map Worker.wake) ≤ weight workerWork workers + workers.length := by
  induction workers with
  | nil => exact le_rfl
  | cons x workers ih =>
    rw [List.map_cons, weight_cons, weight_cons, List.length_cons]
    have : workerWork x.wake ≤ workerWork x + 1 := by cases x <;> simp [Worker.wake, workerWork]
    omega

/-- **Every move** uses up some of the work. -/
theorem Move.work (hs : Shaped s) (h : Move run s c s') : s'.work + 1 ≤ s.work + cost c := by
  have hbound := hs.bound
  unfold ThreadPool.work phaseWork
  cases h with
  | launch hp hl =>
    simp only [hp, weight_append, weight_cons, weight_nil, workerWork, cost, List.length_append,
      List.length_singleton]
    omega
  | built hp hl =>
    simp only [hp, cost]
    omega
  | enqueue task hp =>
    simp only [weight_append, weight_cons, weight_nil, callWork, cost]
    omega
  | refuse i w x hx hl hstop =>
    have hset := weight_set (w := callWork) hx { x with phase := .thrown }
    simp only [callWork, hl] at hset
    simp only [setCall, cost]
    omega
  | accept i w x hx hl hstop =>
    have hset := weight_set (w := callWork) hx { x with phase := .notifying }
    simp only [callWork, hl] at hset
    simp only [setCall, cost, List.length_append, List.length_singleton]
    omega
  | notify i w x hx hn hw =>
    have hset := weight_set (w := callWork) hx { x with phase := .returned }
    have hworker := weight_set (w := workerWork) hw .ready
    simp only [callWork, hn] at hset
    simp only [workerWork] at hworker
    simp only [setCall, setWorker, cost, List.length_set]
    omega
  | unheard i w x hx hn hw =>
    have hset := weight_set (w := callWork) hx { x with phase := .returned }
    simp only [callWork, hn] at hset
    simp only [setCall, cost]
    omega
  | sleep w hw ht hstop =>
    have hworker := weight_set (w := workerWork) hw .waiting
    simp only [workerWork] at hworker
    simp only [setWorker, cost, List.length_set]
    omega
  | leave w hw ht hstop =>
    have hworker := weight_set (w := workerWork) hw .returned
    simp only [workerWork] at hworker
    simp only [setWorker, cost, List.length_set]
    omega
  | start w i tasks hw ht =>
    have hworker := weight_set (w := workerWork) hw (.running i)
    simp only [workerWork] at hworker
    simp only [setWorker, cost, List.length_set, ht, List.length_cons]
    omega
  | finish w i x hw hx =>
    have hset : weight callWork (s.calls.set i { x with future := some (run x.task) }) = weight callWork s.calls :=
      Nat.add_right_cancel (weight_set (w := callWork) hx _)
    have hworker := weight_set (w := workerWork) hw .ready
    simp only [workerWork] at hworker
    simp only [setCall, setWorker, cost, List.length_set, hset]
    omega
  | spurious w hw =>
    have hworker := weight_set (w := workerWork) hw .ready
    simp only [workerWork] at hworker
    simp only [setWorker, cost, List.length_set]
    omega
  | destroy hp =>
    simp only [hp, cost]
    omega
  | notifyAll hp =>
    have hwake := work_wake s.workers
    simp only [hp, cost, List.length_map]
    omega
  | join j hp hw =>
    have hlt : j < s.workers.length := (List.getElem?_eq_some_iff.1 hw).1
    simp only [hp, cost]
    omega
  | joined j hp hw =>
    simp only [hp, cost]
    omega

/-- **Bounded runs.** -/
theorem length_le {cs : List (PoolChoice α)} (h : Machine.run (step run) { threads := n } cs = some s) :
    cs.length ≤ 4 * n + 4 + (cs.map cost).sum := by
  have hrun := Machine.run_budget Shaped work cost (fun _ _ _ hs hstep => hs.move (step_move hstep))
    (fun _ _ _ hs hstep => (step_move hstep).work hs) cs _ _ shaped_start h
  have hwork : work ({ threads := n } : ThreadPool α β) = 4 * n + 4 := by
    simp only [work, phaseWork, weight_nil, List.length_nil]
    omega
  omega

/-- A pool with nothing in the queue and nothing at work has run what it accepted. -/
theorem Serves.done {d : Desk.State ℕ} (hs : Serves run n s d) (ht : s.tasks = []) (hr : s.running = []) :
    ∀ (i : ℕ) (x : EnqueueCall α β), s.calls[i]? = some x → x.Accepted → x.future = some (run x.task) := by
  intro i x hx hacc
  obtain ⟨hmem, hfut⟩ := hs.calls i x hx
  have hactive := hs.active
  rw [hr] at hactive
  have hperm := (Desk.law_run hs.desk).perm_of_rest (hs.queue.trans ht) (List.perm_nil.1 hactive)
  rw [hfut, if_pos (hperm.mem_iff.2 (hmem.1 hacc))]

section Quiet

variable {d : Desk.State ℕ} (hq : s.Quiet run)

include hq

theorem Quiet.not_ready : .ready ∉ s.workers := by
  intro h
  obtain ⟨w, hw⟩ := List.getElem?_of_mem h
  have hstep := hq (.worker w) rfl
  simp only [step, hw] at hstep
  cases hstep

theorem Quiet.not_running (hs : Serves run n s d) (i : ℕ) : .running i ∉ s.workers := by
  intro h
  obtain ⟨w, hw⟩ := List.getElem?_of_mem h
  have hmem : i ∈ s.running := List.mem_flatMap.2 ⟨_, h, List.mem_singleton_self i⟩
  have hstarted : i ∈ d.accepted := by
    have hl := Desk.law_run hs.desk
    rw [hl.fifo]
    exact List.mem_append_left _ (hl.served.mem_iff.2 (List.mem_append_right _ (hs.active.mem_iff.2 hmem)))
  have hstep := hq (.worker w) rfl
  simp only [step, hw, finish, List.getElem?_eq_getElem (hs.call i hstarted)] at hstep
  cases hstep

theorem Quiet.running (hs : Serves run n s d) : s.running = [] := by
  apply List.eq_nil_iff_forall_not_mem.2
  intro i hi
  obtain ⟨x, hx, hix⟩ := List.mem_flatMap.1 hi
  cases x with
  | running j => exact Quiet.not_running hq hs j hx
  | ready => cases hix
  | waiting => cases hix
  | returned => cases hix

/-- Every worker sleeps or has returned. -/
theorem Quiet.worker (hs : Serves run n s d) {x : Worker} (hx : x ∈ s.workers) : x = .waiting ∨ x = .returned := by
  cases x with
  | waiting => exact Or.inl rfl
  | returned => exact Or.inr rfl
  | ready => exact absurd hx (Quiet.not_ready hq)
  | running i => exact absurd hx (Quiet.not_running hq hs i)

/-- No call is under way in a pool that is still there. -/
theorem Quiet.call (hp : s.phase ≠ .destroyed) {i : ℕ} {x : EnqueueCall α β} (hx : s.calls[i]? = some x) :
    x.phase = .returned ∨ x.phase = .thrown := by
  cases hphase : x.phase with
  | returned => exact Or.inl rfl
  | thrown => exact Or.inr rfl
  | locking =>
    have hstep := hq (.call i 0) rfl
    simp only [step, if_neg hp, hx, hphase] at hstep
    cases hstep
  | notifying =>
    by_cases hw : .waiting ∈ s.workers
    · obtain ⟨w, hwait⟩ := List.getElem?_of_mem hw
      have hstep := hq (.call i w) rfl
      simp only [step, if_neg hp, hx, hphase, notifyOne, if_pos hw, if_pos hwait] at hstep
      cases hstep
    · have hstep := hq (.call i 0) rfl
      simp only [step, if_neg hp, hx, hphase, notifyOne, if_neg hw] at hstep
      cases hstep

/-- The pool is built, and its destructor has not begun or has come to its end. -/
theorem Quiet.phase (hs : Serves run n s d) (hsh : Shaped s) : s.phase = .live ∨ s.phase = .destroyed := by
  cases hp : s.phase with
  | live => exact Or.inl rfl
  | destroyed => exact Or.inr rfl
  | constructing =>
    have hstep := hq .launch rfl
    simp only [step, if_pos hp] at hstep
    cases hstep
  | stopping =>
    have hstep := hq .notifyAll rfl
    simp only [step, if_pos hp] at hstep
    cases hstep
  | joining j =>
    have hstep := hq .join rfl
    cases hj : s.workers[j]? with
    | none =>
      simp only [step, hp, hj] at hstep
      cases hstep
    | some x =>
      -- the worker the destructor waits for has been woken, and has returned
      have hmem := List.mem_of_getElem? hj
      rcases Quiet.worker hq hs hmem with rfl | rfl
      · exact absurd hmem (hsh.awake (by rw [hp]; rfl))
      · simp only [step, hp, hj] at hstep
        cases hstep

end Quiet

theorem awake_eq_zero (hq : s.Quiet run) {d : Desk.State ℕ} (hs : Serves run n s d) :
    weight awake s.workers = 0 := by
  apply weight_eq_zero
  intro x hx
  rcases Quiet.worker hq hs hx with rfl | rfl <;> rfl

theorem quiet_poolRun {t : ThreadPool ℕ ℕ} (h : Machine.run (step (· + 10)) { threads := 2 } poolRun = some t) :
    t.Quiet (· + 10) := by
  obtain rfl := Option.some.inj h
  intro c hc
  cases c with
  | launch => rfl
  | enqueue task => cases hc
  | call i w => rcases i with _ | _ | i <;> rfl
  | worker w => rcases w with _ | _ | w <;> rfl
  | spurious w => cases hc
  | destroy => cases hc
  | notifyAll => rfl
  | join => rfl

/-- After the destructor all workers have returned. -/
theorem workers_of_destroyed {cs : List (PoolChoice α)} (h : Machine.run (step run) { threads := n } cs = some s)
    (hp : s.phase = .destroyed) : s.workers = List.replicate n .returned := by
  obtain ⟨hn, -, -⟩ := exists_serves h
  have hsh := shaped h
  have hlen : s.workers.length = n := by
    rw [← hn]
    apply hsh.size
    rw [hp]
    rintro ⟨⟩
  refine List.eq_replicate_iff.2 ⟨hlen, fun x hx => ?_⟩
  obtain ⟨w, hw⟩ := List.getElem?_of_mem hx
  have hlt : w < joins s.threads s.phase := by
    rw [hp, hn, ← hlen]
    exact (List.getElem?_eq_some_iff.1 hw).1
  have hret := hsh.joined w hlt
  rw [hw] at hret
  exact Option.some.inj hret

/-- If there were any, they have left nothing in the queue. -/
theorem tasks_of_destroyed {cs : List (PoolChoice α)} (h : Machine.run (step run) { threads := n } cs = some s)
    (hp : s.phase = .destroyed) (hpos : 0 < n) : s.tasks = [] := by
  apply ((shaped h).left _).2
  rw [workers_of_destroyed h hp]
  exact List.mem_replicate.2 ⟨hpos.ne', rfl⟩

/-- **A pool with threads comes to rest with everything done.** It takes a bounded number of
steps for each call and each spurious wake-up. When it moves no more, the pool is live and
all its workers sleep, or it is destroyed and all have returned; no wake-up has been lost, so
every accepted task has been run and its future holds what it computes, and as long as the
pool is live every call has returned. It abandons no task. Without threads no task is ever
run, and the destructor leaves all that have been accepted abandoned. -/
theorem pool_drains {cs : List (PoolChoice α)} (h : Machine.run (step run) { threads := n } cs = some s) :
    cs.length ≤ 4 * n + 4 + (cs.map cost).sum ∧
      (s.Quiet run → 0 < n →
        (s.phase = .live ∧ s.workers = List.replicate n .waiting ∨
          s.phase = .destroyed ∧ s.workers = List.replicate n .returned) ∧
        s.tasks = [] ∧
        ∀ (i : ℕ) (x : EnqueueCall α β), s.calls[i]? = some x →
          (x.Accepted → x.future = some (run x.task)) ∧ (s.phase = .live → x.phase = .returned)) ∧
      (0 < n → s.abandoned = []) ∧
      (n = 0 → s.starts = [] ∧ (s.phase = .destroyed → s.abandoned = s.accepts)) := by
  obtain ⟨hn, d, hs⟩ := exists_serves h
  have hsh := shaped h
  refine ⟨length_le h, fun hq hpos => ?_, fun hpos => ?_, ?_⟩
  · have hphase := Quiet.phase hq hs hsh
    have hlen : s.workers.length = n := by
      rw [← hn]
      apply hsh.size
      rcases hphase with hp | hp <;> rw [hp] <;> rintro ⟨⟩
    have hall : s.phase = .live ∧ s.workers = List.replicate n .waiting ∨
        s.phase = .destroyed ∧ s.workers = List.replicate n .returned := by
      rcases hphase with hp | hp
      · refine Or.inl ⟨hp, List.eq_replicate_iff.2 ⟨hlen, fun x hx => ?_⟩⟩
        rcases Quiet.worker hq hs hx with rfl | rfl
        · rfl
        · have hstop := hsh.stop
          rw [(hsh.left hx).1, hp] at hstop
          cases hstop
      · refine Or.inr ⟨hp, List.eq_replicate_iff.2 ⟨hlen, fun x hx => ?_⟩⟩
        rcases Quiet.worker hq hs hx with rfl | rfl
        · exact absurd hx (hsh.awake (by rw [hp]; rfl))
        · rfl
    have hcalls : s.phase = .live → ∀ (i : ℕ) (x : EnqueueCall α β), s.calls[i]? = some x → x.phase = .returned := by
      intro hp i x hx
      rcases Quiet.call hq (by rw [hp]; rintro ⟨⟩) hx with hret | hthr
      · exact hret
      · have hstop := hsh.stop
        rw [hsh.thrown i x hx hthr, hp] at hstop
        cases hstop
    have htasks : s.tasks = [] := by
      rcases hall with ⟨hp, hw⟩ | ⟨-, hw⟩
      · have hsignals : weight signal s.calls = 0 := by
          apply weight_eq_zero
          intro x hx
          obtain ⟨i, hi⟩ := List.getElem?_of_mem hx
          simp only [signal, hcalls hp i x hi]
        have hasleep : 0 < weight asleep s.workers := by
          have hmem : .waiting ∈ s.workers := by
            rw [hw]
            exact List.mem_replicate.2 ⟨hpos.ne', rfl⟩
          exact le_weight (w := asleep) hmem
        exact List.length_eq_zero_iff.1 ((covered h).no_items (awake_eq_zero hq hs) hsignals hasleep)
      · apply (hsh.left _).2
        rw [hw]
        exact List.mem_replicate.2 ⟨hpos.ne', rfl⟩
    refine ⟨hall, htasks, fun i x hx => ⟨?_, fun hp => hcalls hp i x hx⟩⟩
    exact hs.done htasks (Quiet.running hq hs) i x hx
  · unfold abandoned
    split
    · rename_i hp
      exact tasks_of_destroyed h hp hpos
    · rfl
  · rintro rfl
    have hstarts : s.starts = [] := by
      rw [← hs.memory.2.1]
      exact Desk.started_of_zero hs.desk
    refine ⟨hstarts, fun hp => ?_⟩
    have hfifo := (Desk.law_run hs.desk).fifo
    rw [hs.memory.1, hs.memory.2.1, hstarts, hs.queue, List.nil_append] at hfifo
    unfold abandoned
    rw [if_pos hp, hfifo]

/-- Two calls, two workers: the second worker is done first, and both fall asleep again. -/
theorem pool_drains_two : ∃ s, Machine.run (step (· + 10)) { threads := 2 } poolRun = some s ∧ s.tasks = [] ∧
    poolRun.length ≤ 24 ∧ ∀ (i : ℕ) (x : EnqueueCall ℕ ℕ), s.calls[i]? = some x → x.phase = .returned := by
  have h : Machine.run (step (· + 10)) { threads := 2 } poolRun = some _ := rfl
  have hq : Quiet (· + 10) _ := quiet_poolRun h
  obtain ⟨hlen, hrest, -⟩ := pool_drains h
  obtain ⟨-, htasks, hcalls⟩ := hrest hq (by decide)
  exact ⟨_, h, htasks, hlen, fun i x hx => (hcalls i x hx).2 rfl⟩

/-- After the destructor has begun, nothing more is accepted. -/
theorem Move.accepted (h : Move run s c s') (hstop : s.stop = true) : s'.stop = true ∧
    ∀ (i : ℕ) (x' : EnqueueCall α β), s'.calls[i]? = some x' → x'.Accepted →
      ∃ x, s.calls[i]? = some x ∧ x.Accepted := by
  have hkept : ∀ (i : ℕ) (x' : EnqueueCall α β), s.calls[i]? = some x' → x'.Accepted →
      ∃ x, s.calls[i]? = some x ∧ x.Accepted := fun i x' hx' hacc => ⟨x', hx', hacc⟩
  have hset : ∀ (i : ℕ) (x y : EnqueueCall α β), s.calls[i]? = some x → (y.Accepted → x.Accepted) →
      ∀ (j : ℕ) (x' : EnqueueCall α β), (s.calls.set i y)[j]? = some x' → x'.Accepted →
        ∃ x, s.calls[j]? = some x ∧ x.Accepted := by
    intro i x y hx hxy j x' hx' hacc
    rcases getElem?_set_call hx hx' with ⟨rfl, rfl⟩ | ⟨-, hj⟩
    · exact ⟨x, hx, hxy hacc⟩
    · exact ⟨x', hj, hacc⟩
  cases h with
  | launch hp hl => exact ⟨hstop, hkept⟩
  | built hp hl => exact ⟨hstop, hkept⟩
  | enqueue task hp =>
    refine ⟨hstop, fun i x' hx' hacc => ?_⟩
    by_cases hi : i < s.calls.length
    · rw [List.getElem?_append_left hi] at hx'
      exact ⟨x', hx', hacc⟩
    · rw [List.getElem?_append_right (Nat.not_lt.1 hi)] at hx'
      rw [List.mem_singleton.1 (List.mem_of_getElem? hx')] at hacc
      rcases hacc with h | h <;> cases h
  | refuse i w x hx hl hs =>
    refine ⟨hstop, hset i x _ hx ?_⟩
    rintro (h | h) <;> cases h
  | accept i w x hx hl hs =>
    rw [hs] at hstop
    cases hstop
  | notify i w x hx hn hw => exact ⟨hstop, hset i x _ hx fun _ => Or.inl hn⟩
  | unheard i w x hx hn hw => exact ⟨hstop, hset i x _ hx fun _ => Or.inl hn⟩
  | sleep w hw ht hs => exact ⟨hstop, hkept⟩
  | leave w hw ht hs => exact ⟨hstop, hkept⟩
  | start w i tasks hw ht => exact ⟨hstop, hkept⟩
  | finish w i x hw hx => exact ⟨hstop, hset i x _ hx id⟩
  | spurious w hw => exact ⟨hstop, hkept⟩
  | destroy hp => exact ⟨rfl, hkept⟩
  | notifyAll hp => exact ⟨hstop, hkept⟩
  | join j hp hw => exact ⟨hstop, hkept⟩
  | joined j hp hw => exact ⟨hstop, hkept⟩

/-- **The destructor of a pool with threads** returns only when every worker has returned and
every accepted task has been run. What is accepted at any time after it has set `stop` was
accepted before. -/
theorem pool_destroyed {cs : List (PoolChoice α)} (h : Machine.run (step run) { threads := n } cs = some s) :
    (s.phase = .destroyed → 0 < n → s.workers = List.replicate n .returned ∧
      ∀ (i : ℕ) (x : EnqueueCall α β), s.calls[i]? = some x → x.Accepted → x.future = some (run x.task)) ∧
    (s.stop = true → ∀ cs' s', Machine.run (step run) s cs' = some s' →
      ∀ (i : ℕ) (x' : EnqueueCall α β), s'.calls[i]? = some x' → x'.Accepted →
        ∃ x, s.calls[i]? = some x ∧ x.Accepted) := by
  obtain ⟨-, d, hs⟩ := exists_serves h
  constructor
  · intro hp hpos
    have hworkers := workers_of_destroyed h hp
    refine ⟨hworkers, hs.done (tasks_of_destroyed h hp hpos) ?_⟩
    unfold running
    rw [hworkers]
    exact List.flatMap_eq_nil_iff.2 fun x hx => by rw [List.eq_of_mem_replicate hx]; rfl
  · intro hstop cs' s' hrun
    have hinv : s'.stop = true ∧ ∀ (i : ℕ) (x' : EnqueueCall α β), s'.calls[i]? = some x' → x'.Accepted →
        ∃ x, s.calls[i]? = some x ∧ x.Accepted := by
      apply Machine.run_inv (fun t => t.stop = true ∧ ∀ (i : ℕ) (x' : EnqueueCall α β), t.calls[i]? = some x' →
        x'.Accepted → ∃ x, s.calls[i]? = some x ∧ x.Accepted) ?_ cs' _ _ ?_ hrun
      · rintro t a t' ⟨ht, hacc⟩ hstep
        obtain ⟨ht', hback⟩ := (step_move hstep).accepted ht
        refine ⟨ht', fun i x' hx' ha => ?_⟩
        obtain ⟨y, hy, hya⟩ := hback i x' hx' ha
        exact hacc i y hy hya
      · exact ⟨hstop, fun i x hx ha => ⟨x, hx, ha⟩⟩
    exact hinv.2

/-- The destructor of that pool. -/
theorem pool_destroyed_two : ∃ s, Machine.run (step (· + 10)) { threads := 2 }
    (poolRun ++ [.destroy, .notifyAll, .worker 0, .worker 1, .join, .join, .join]) = some s ∧
      s.workers = List.replicate 2 .returned ∧ s.calls[1]?.map EnqueueCall.future = some (some 12) := by
  have h : Machine.run (step (· + 10)) { threads := 2 }
    (poolRun ++ [.destroy, .notifyAll, .worker 0, .worker 1, .join, .join, .join]) = some _ := rfl
  obtain ⟨hworkers, hcalls⟩ := (pool_destroyed h).1 rfl (by decide)
  refine ⟨_, h, hworkers, ?_⟩
  have hfut := hcalls 1 _ rfl (Or.inr rfl)
  exact congrArg some hfut

end ThreadPool

end Graphize
