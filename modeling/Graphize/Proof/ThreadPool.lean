import Graphize.Spec.ThreadPool
import Graphize.Lib.Desk
import Graphize.Lib.Signals
import Graphize.Lib.Threads
import Mathlib.Data.List.Nodup

/-!
# The desk behind a thread pool

* `step_move`: the moves of a pool, one by one.
* `covered`: no wake-up is lost (`Lib/Signals`).
* `Serves`: the desk behind a pool (`Lib/Desk`), with a server for each worker thread;
  `pool_serves`: every run of the pool is a run of that desk, and the futures hold what the
  finished tasks compute. `pool_fifo` is what follows for the pool's own log.
-/

namespace Graphize

open Threads

namespace ThreadPool

variable {α β : Type*} {run : α → β} {n : ℕ} {s s' : ThreadPool α β} {c : PoolChoice α}

/-- **The moves of a pool.** -/
inductive Move (run : α → β) (s : ThreadPool α β) : PoolChoice α → ThreadPool α β → Prop
  | launch (hp : s.phase = .constructing) (hl : s.workers.length < s.threads) :
      Move run s .launch { s with workers := s.workers ++ [.ready] }
  | built (hp : s.phase = .constructing) (hl : s.threads ≤ s.workers.length) :
      Move run s .launch { s with phase := .live }
  | enqueue (task : α) (hp : s.phase ≠ .constructing) :
      Move run s (.enqueue task) { s with calls := s.calls ++ [{ task }] }
  | refuse (i w : ℕ) (x : EnqueueCall α β) (hx : s.calls[i]? = some x) (hl : x.phase = .locking)
      (hs : s.stop = true) : Move run s (.call i w) (s.setCall i { x with phase := .thrown })
  | accept (i w : ℕ) (x : EnqueueCall α β) (hx : s.calls[i]? = some x) (hl : x.phase = .locking)
      (hs : s.stop = false) : Move run s (.call i w)
        { s.setCall i { x with phase := .notifying } with tasks := s.tasks ++ [i], log := s.log ++ [.accept i] }
  | notify (i w : ℕ) (x : EnqueueCall α β) (hx : s.calls[i]? = some x) (hn : x.phase = .notifying)
      (hw : s.workers[w]? = some .waiting) :
      Move run s (.call i w) ((s.setWorker w .ready).setCall i { x with phase := .returned })
  | unheard (i w : ℕ) (x : EnqueueCall α β) (hx : s.calls[i]? = some x) (hn : x.phase = .notifying)
      (hw : .waiting ∉ s.workers) : Move run s (.call i w) (s.setCall i { x with phase := .returned })
  | sleep (w : ℕ) (hw : s.workers[w]? = some .ready) (ht : s.tasks = []) (hs : s.stop = false) :
      Move run s (.worker w) (s.setWorker w .waiting)
  | leave (w : ℕ) (hw : s.workers[w]? = some .ready) (ht : s.tasks = []) (hs : s.stop = true) :
      Move run s (.worker w) (s.setWorker w .returned)
  | start (w i : ℕ) (tasks : List ℕ) (hw : s.workers[w]? = some .ready) (ht : s.tasks = i :: tasks) :
      Move run s (.worker w) { s.setWorker w (.running i) with tasks := tasks, log := s.log ++ [.start i] }
  | finish (w i : ℕ) (x : EnqueueCall α β) (hw : s.workers[w]? = some (.running i)) (hx : s.calls[i]? = some x) :
      Move run s (.worker w)
        { (s.setWorker w .ready).setCall i { x with future := some (run x.task) } with log := s.log ++ [.finish i] }
  | spurious (w : ℕ) (hw : s.workers[w]? = some .waiting) : Move run s (.spurious w) (s.setWorker w .ready)
  | destroy (hp : s.phase = .live) : Move run s .destroy { s with stop := true, phase := .stopping }
  | notifyAll (hp : s.phase = .stopping) :
      Move run s .notifyAll { s with workers := s.workers.map Worker.wake, phase := .joining 0 }
  | join (j : ℕ) (hp : s.phase = .joining j) (hw : s.workers[j]? = some .returned) :
      Move run s .join { s with phase := .joining (j + 1) }
  | joined (j : ℕ) (hp : s.phase = .joining j) (hw : s.workers[j]? = none) :
      Move run s .join { s with phase := .destroyed }

/-- **A step is one of the moves.** -/
theorem step_move (h : s.step run c = some s') : Move run s c s' := by
  cases c with
  | launch =>
    simp only [step] at h
    split at h
    · rename_i hp
      obtain rfl := Option.some.inj h
      split
      · rename_i hl
        exact .launch hp hl
      · rename_i hl
        exact .built hp (Nat.le_of_not_lt hl)
    · cases h
  | enqueue task =>
    simp only [step] at h
    split at h
    · cases h
    · rename_i hp
      obtain rfl := Option.some.inj h
      exact .enqueue task fun hc => hp (Or.inl hc)
  | call i w =>
    simp only [step] at h
    split at h
    · cases h
    · split at h
      · rename_i x hx
        split at h
        · rename_i hl
          obtain rfl := Option.some.inj h
          unfold lockQueue
          cases hs : s.stop with
          | true => exact .refuse i w x hx hl hs
          | false => exact .accept i w x hx hl hs
        · rename_i hn
          obtain ⟨s₁, hs₁, rfl⟩ := Option.map_eq_some_iff.1 h
          unfold notifyOne at hs₁
          split at hs₁
          · split at hs₁
            · rename_i hw
              obtain rfl := Option.some.inj hs₁
              exact .notify i w x hx hn hw
            · cases hs₁
          · rename_i hw
            obtain rfl := Option.some.inj hs₁
            exact .unheard i w x hx hn hw
        · cases h
      · cases h
  | worker w =>
    simp only [step] at h
    split at h
    · rename_i hw
      obtain rfl := Option.some.inj h
      unfold round
      split
      · rename_i ht
        cases hs : s.stop with
        | true => exact .leave w hw ht hs
        | false => exact .sleep w hw ht hs
      · rename_i i tasks ht
        exact .start w i tasks hw ht
    · rename_i i hw
      obtain ⟨x, hx, rfl⟩ := Option.map_eq_some_iff.1 h
      exact .finish w i x hw hx
    · cases h
  | spurious w =>
    simp only [step] at h
    split at h
    · rename_i hw
      obtain rfl := Option.some.inj h
      exact .spurious w hw
    · cases h
  | destroy =>
    simp only [step] at h
    split at h
    · rename_i hp
      obtain rfl := Option.some.inj h
      exact .destroy hp
    · cases h
  | notifyAll =>
    simp only [step] at h
    split at h
    · rename_i hp
      obtain rfl := Option.some.inj h
      exact .notifyAll hp
    · cases h
  | join =>
    simp only [step] at h
    split at h
    · rename_i j hp
      split at h
      · rename_i hw
        obtain rfl := Option.some.inj h
        exact .join j hp hw
      · cases h
      · rename_i hw
        obtain rfl := Option.some.inj h
        exact .joined j hp hw
    · cases h

/-! ## No wake-up is lost -/

/-- A worker that will look into the queue. -/
def awake : Worker → ℕ
  | .ready => 1
  | _ => 0

def asleep : Worker → ℕ
  | .waiting => 1
  | _ => 0

/-- A call that will notify. -/
def signal (x : EnqueueCall α β) : ℕ :=
  match x.phase with
  | .notifying => 1
  | _ => 0

/-- The workers that sleep, the calls that notify, and the tasks in between. -/
def room (s : ThreadPool α β) : Signals.Room where
  items := s.tasks.length
  awake := weight awake s.workers
  signals := weight signal s.calls
  asleep := weight asleep s.workers

theorem asleep_eq_zero {workers : List Worker} (h : .waiting ∉ workers) : weight asleep workers = 0 := by
  apply weight_eq_zero
  intro x hx
  cases x with
  | waiting => exact absurd hx h
  | ready => rfl
  | running i => rfl
  | returned => rfl

theorem waiting_notMem_wake (workers : List Worker) : .waiting ∉ workers.map Worker.wake := by
  intro h
  obtain ⟨x, -, hx⟩ := List.mem_map.1 h
  cases x <;> cases hx

/-- Every move of the pool is a move between sleeping and waking. -/
theorem Move.room (h : Move run s c s') : s.room.Move s'.room := by
  unfold ThreadPool.room
  cases h with
  | launch hp hl =>
    apply Signals.Room.Move.join <;> simp [awake, asleep]
  | built hp hl => exact .stay rfl
  | enqueue task hp =>
    apply Signals.Room.Move.stay
    simp [signal]
  | refuse i w x hx hl hs =>
    have hset := weight_set (w := signal) hx { x with phase := .thrown }
    simp only [signal, hl] at hset
    apply Signals.Room.Move.stay
    simp only [setCall]
    congr 1
  | accept i w x hx hl hs =>
    have hset := weight_set (w := signal) hx { x with phase := .notifying }
    simp only [signal, hl] at hset
    apply Signals.Room.Move.bring
    · simp
    · rfl
    · simpa [setCall] using hset
    · rfl
  | notify i w x hx hn hw =>
    have hset := weight_set (w := signal) hx { x with phase := .returned }
    have hawake := weight_set (w := awake) hw .ready
    have hasleep := weight_set (w := asleep) hw .ready
    simp only [signal, hn] at hset
    simp only [awake] at hawake
    simp only [asleep] at hasleep
    apply Signals.Room.Move.signal
    · rfl
    · exact hawake
    · exact hset
    · exact hasleep
  | unheard i w x hx hn hw =>
    apply Signals.Room.Move.unheard
    exact asleep_eq_zero hw
  | sleep w hw ht hs =>
    apply Signals.Room.Move.idle
    simp [setWorker, ht]
  | leave w hw ht hs =>
    apply Signals.Room.Move.idle
    simp [setWorker, ht]
  | start w i tasks hw ht =>
    have hawake := weight_set (w := awake) hw (.running i)
    have hasleep := weight_set (w := asleep) hw (.running i)
    simp only [awake] at hawake
    simp only [asleep] at hasleep
    apply Signals.Room.Move.take
    · simp [ht]
    · exact hawake
    · rfl
    · exact hasleep
  | finish w i x hw hx =>
    have hset := weight_set (w := signal) hx { x with future := some (run x.task) }
    have hawake := weight_set (w := awake) hw .ready
    have hasleep := weight_set (w := asleep) hw .ready
    simp only [awake] at hawake
    simp only [asleep] at hasleep
    apply Signals.Room.Move.join
    · rfl
    · exact hawake
    · exact Nat.add_right_cancel hset
    · exact le_of_eq hasleep
  | spurious w hw =>
    have hawake := weight_set (w := awake) hw .ready
    have hasleep := weight_set (w := asleep) hw .ready
    simp only [awake] at hawake
    simp only [asleep] at hasleep
    apply Signals.Room.Move.join
    · rfl
    · exact hawake
    · rfl
    · exact Nat.le.intro hasleep
  | destroy hp => exact .stay rfl
  | notifyAll hp =>
    apply Signals.Room.Move.unheard
    exact asleep_eq_zero (waiting_notMem_wake s.workers)
  | join j hp hw => exact .stay rfl
  | joined j hp hw => exact .stay rfl

/-- **No wake-up is lost**: while a worker sleeps, each task in the queue has a worker that
is awake or a call that will notify. -/
theorem covered {cs : List (PoolChoice α)} (h : Machine.run (step run) { threads := n } cs = some s) :
    s.room.Covered := by
  apply Machine.run_inv (fun s => s.room.Covered) ?_ cs _ _ ?_ h
  · intro s c s' hs hstep
    exact (step_move hstep).room.covered hs
  · intro hpos
    exact absurd hpos (Nat.lt_irrefl 0)

/-! ## The desk behind a pool -/

/-- What the users of the desk see of an event. -/
def action : PoolEvent → Desk.Action ℕ
  | .accept i => .accept i
  | .start i => .start i
  | .finish i => .finish i

/-- **The desk behind a pool**, with a server for each thread. -/
structure Serves (run : α → β) (n : ℕ) (s : ThreadPool α β) (d : Desk.State ℕ) : Prop where
  desk : Machine.run (Desk.step n) {} (s.log.map action) = some d
  queue : d.queue = s.tasks
  active : d.active.Perm s.running
  size : s.workers.length ≤ n
  once : d.accepted.Nodup
  call : ∀ i ∈ d.accepted, i < s.calls.length
  /-- Each call: is it accepted, and what is in its future. -/
  calls : ∀ i x, s.calls[i]? = some x →
    (x.Accepted ↔ i ∈ d.accepted) ∧ x.future = if i ∈ d.finished then some (run x.task) else none

/-- One more event. -/
theorem desk_append {log : List PoolEvent} {e : PoolEvent} {d d' : Desk.State ℕ}
    (h : Machine.run (Desk.step n) {} (log.map action) = some d) (hd : Desk.step n d (action e) = some d') :
    Machine.run (Desk.step n) {} ((log ++ [e]).map action) = some d' := by
  rw [List.map_append]
  apply Machine.run_append_iff.2
  exact ⟨d, h, Machine.run_cons_iff.2 ⟨d', hd, rfl⟩⟩

theorem length_flatMap_item_le (workers : List Worker) : (workers.flatMap Worker.item).length ≤ workers.length := by
  induction workers with
  | nil => exact le_rfl
  | cons x workers ih =>
    rw [List.flatMap_cons, List.length_append, List.length_cons]
    have : x.item.length ≤ 1 := by cases x <;> simp [Worker.item]
    omega

/-- A worker that is not at work is free for another task. -/
theorem length_running_lt {w : ℕ} {x : Worker} (hw : s.workers[w]? = some x) (hx : x.item = []) :
    s.running.length < s.workers.length := by
  obtain ⟨rest, hrest, hset⟩ := flatMap_set Worker.item hw
  have hle := length_flatMap_item_le (s.workers.set w (.running 0))
  rw [(hset _).length_eq, List.length_set] at hle
  unfold running
  rw [hrest.length_eq, hx]
  simp only [Worker.item, List.length_append, List.length_singleton, List.length_nil] at hle ⊢
  omega

/-- Nothing changes for the desk. -/
theorem Serves.quiet {d : Desk.State ℕ} (hs : Serves run n s d) (hlog : s'.log = s.log) (htasks : s'.tasks = s.tasks)
    (hrun : s'.running.Perm s.running) (hsize : s'.workers.length ≤ n) (hlen : s.calls.length ≤ s'.calls.length)
    (hcalls : ∀ i x', s'.calls[i]? = some x' → (∃ x, s.calls[i]? = some x ∧ (x'.Accepted ↔ x.Accepted) ∧
      x'.task = x.task ∧ x'.future = x.future) ∨ s.calls.length ≤ i ∧ ¬x'.Accepted ∧ x'.future = none) :
    Serves run n s' d := by
  refine ⟨?_, ?_, ?_, hsize, hs.once, fun i hi => lt_of_lt_of_le (hs.call i hi) hlen, fun i x' hx' => ?_⟩
  · rw [hlog]
    exact hs.desk
  · rw [htasks]
    exact hs.queue
  · exact hs.active.trans hrun.symm
  · rcases hcalls i x' hx' with ⟨x, hx, hacc, htask, hfut⟩ | ⟨hi, hacc, hfut⟩
    · obtain ⟨h1, h2⟩ := hs.calls i x hx
      rw [htask, hfut]
      exact ⟨hacc.trans h1, h2⟩
    · -- a call that has just been made
      have hnot : i ∉ d.accepted := fun h => absurd (hs.call i h) (Nat.not_lt.2 hi)
      refine ⟨⟨fun h => absurd h hacc, fun h => absurd h hnot⟩, ?_⟩
      rw [if_neg, hfut]
      intro hf
      have hl := Desk.law_run hs.desk
      apply hnot
      rw [hl.fifo]
      exact List.mem_append_left _ (hl.served.mem_iff.2 (List.mem_append_left _ hf))

/-- The calls after one of them has been replaced. -/
theorem getElem?_set_call {calls : List (EnqueueCall α β)} {i j : ℕ} {x x' y : EnqueueCall α β} (hx : calls[i]? = some x)
    (h : (calls.set i x')[j]? = some y) : (i = j ∧ y = x') ∨ (i ≠ j ∧ calls[j]? = some y) := by
  by_cases hij : i = j
  · subst hij
    rw [List.getElem?_set_self (List.getElem?_eq_some_iff.1 hx).1] at h
    exact Or.inl ⟨rfl, (Option.some.inj h).symm⟩
  · rw [List.getElem?_set_ne hij] at h
    exact Or.inr ⟨hij, h⟩

/-- A call goes from one phase to another that is as good for the desk. -/
theorem kept_set_call {i : ℕ} {x x' : EnqueueCall α β} (hx : s.calls[i]? = some x) (hacc : x'.Accepted ↔ x.Accepted)
    (htask : x'.task = x.task) (hfut : x'.future = x.future) : ∀ j y', (s.calls.set i x')[j]? = some y' →
      (∃ y, s.calls[j]? = some y ∧ (y'.Accepted ↔ y.Accepted) ∧ y'.task = y.task ∧ y'.future = y.future) ∨
        s.calls.length ≤ j ∧ ¬y'.Accepted ∧ y'.future = none := by
  intro j y' hy'
  rcases getElem?_set_call hx hy' with ⟨rfl, rfl⟩ | ⟨-, hy⟩
  · exact Or.inl ⟨x, hx, hacc, htask, hfut⟩
  · exact Or.inl ⟨y', hy, Iff.rfl, rfl, rfl⟩

/-- The calls have not changed. -/
theorem kept_calls (calls : List (EnqueueCall α β)) : ∀ j y', calls[j]? = some y' →
    (∃ y, calls[j]? = some y ∧ (y'.Accepted ↔ y.Accepted) ∧ y'.task = y.task ∧ y'.future = y.future) ∨
      calls.length ≤ j ∧ ¬y'.Accepted ∧ y'.future = none := by
  intro j y' hy'
  exact Or.inl ⟨y', hy', Iff.rfl, rfl, rfl⟩

/-- A worker goes from one state without a task to another. -/
theorem running_set {w : ℕ} {x y : Worker} (hw : s.workers[w]? = some x) (hx : x.item = []) (hy : y.item = []) :
    (s.setWorker w y).running.Perm s.running := by
  obtain ⟨rest, hrest, hset⟩ := flatMap_set Worker.item hw
  unfold running setWorker
  have hy' := hset y
  rw [hx] at hrest
  rw [hy] at hy'
  exact hy'.trans hrest.symm

theorem item_wake (workers : List Worker) : (workers.map Worker.wake).flatMap Worker.item = workers.flatMap Worker.item := by
  rw [List.flatMap_map]
  congr 1
  funext x
  cases x <;> rfl

/-- Putting a task into the queue is an acceptance at the desk. -/
theorem Serves.accept {d : Desk.State ℕ} (hs : Serves run n s d) {i : ℕ} {x : EnqueueCall α β} (hx : s.calls[i]? = some x)
    (hl : x.phase = .locking) : Serves run n
      { s.setCall i { x with phase := .notifying } with tasks := s.tasks ++ [i], log := s.log ++ [.accept i] }
      { d with queue := d.queue ++ [i], accepted := d.accepted ++ [i] } := by
  have hlt := (List.getElem?_eq_some_iff.1 hx).1
  have hnew : i ∉ d.accepted := by
    intro h
    have hacc := (hs.calls i x hx).1.2 h
    unfold EnqueueCall.Accepted at hacc
    rw [hl] at hacc
    rcases hacc with h | h <;> cases h
  refine ⟨desk_append hs.desk rfl, ?_, hs.active, hs.size, ?_, ?_, ?_⟩
  · dsimp only
    rw [hs.queue]
  · apply List.nodup_append.2
    refine ⟨hs.once, List.nodup_singleton i, fun a ha b hb => ?_⟩
    rw [List.mem_singleton.1 hb]
    rintro rfl
    exact hnew ha
  · intro j hj
    simp only [setCall, List.length_set]
    rcases List.mem_append.1 hj with hj | hj
    · exact hs.call j hj
    · rw [List.mem_singleton.1 hj]
      exact hlt
  · intro j y hy
    rcases getElem?_set_call hx hy with ⟨rfl, rfl⟩ | ⟨hij, hy⟩
    · obtain ⟨-, hfut⟩ := hs.calls i x hx
      refine ⟨⟨fun _ => List.mem_append_right _ (List.mem_singleton_self i), fun _ => Or.inl rfl⟩, hfut⟩
    · obtain ⟨hacc, hfut⟩ := hs.calls j y hy
      refine ⟨?_, hfut⟩
      rw [hacc, List.mem_append, List.mem_singleton]
      constructor
      · exact Or.inl
      · rintro (h | rfl)
        · exact h
        · exact absurd rfl hij

/-- Taking a task from the queue is a start at the desk. -/
theorem Serves.start {d : Desk.State ℕ} (hs : Serves run n s d) {w i : ℕ} {tasks : List ℕ}
    (hw : s.workers[w]? = some .ready) (ht : s.tasks = i :: tasks) : Serves run n
      { s.setWorker w (.running i) with tasks := tasks, log := s.log ++ [.start i] }
      { d with queue := tasks, active := d.active ++ [i], started := d.started ++ [i] } := by
  have hfree := length_running_lt hw rfl
  have hcap : d.active.length < n := by
    rw [hs.active.length_eq]
    exact lt_of_lt_of_le hfree hs.size
  have hstart : Desk.step n d (action (.start i)) = some
      { d with queue := tasks, active := d.active ++ [i], started := d.started ++ [i] } := by
    apply Desk.start_iff.2
    exact ⟨tasks, by rw [hs.queue, ht], hcap, rfl⟩
  refine ⟨desk_append hs.desk hstart, rfl, ?_, ?_, hs.once, hs.call, hs.calls⟩
  · obtain ⟨rest, hrest, hset⟩ := flatMap_set Worker.item hw
    have hactive := hs.active
    unfold running at hactive ⊢
    exact ((hactive.trans hrest).append_right [i]).trans ((List.perm_append_singleton i _).trans (hset (.running i)).symm)
  · simp only [setWorker, List.length_set]
    exact hs.size

/-- Running a task to its end is a finish at the desk. -/
theorem Serves.finish {d : Desk.State ℕ} (hs : Serves run n s d) {w i : ℕ} {x : EnqueueCall α β}
    (hw : s.workers[w]? = some (.running i)) (hx : s.calls[i]? = some x) : Serves run n
      { (s.setWorker w .ready).setCall i { x with future := some (run x.task) } with log := s.log ++ [.finish i] }
      { d with active := d.active.erase i, finished := d.finished ++ [i] } := by
  obtain ⟨rest, hrest, hset⟩ := flatMap_set Worker.item hw
  have hactive := hs.active
  unfold running at hactive
  have hperm : d.active.Perm (i :: rest) := hactive.trans hrest
  have hmem : i ∈ d.active := hperm.mem_iff.2 List.mem_cons_self
  refine ⟨desk_append hs.desk (Desk.finish_iff.2 ⟨hmem, rfl⟩), hs.queue, ?_, ?_, hs.once, ?_, ?_⟩
  · unfold running
    have herase := hperm.erase i
    rw [List.erase_cons_head] at herase
    exact herase.trans (hset .ready).symm
  · simp only [setWorker, setCall, List.length_set]
    exact hs.size
  · intro j hj
    simp only [setWorker, setCall, List.length_set]
    exact hs.call j hj
  · intro j y hy
    rcases getElem?_set_call hx hy with ⟨rfl, rfl⟩ | ⟨hij, hy⟩
    · obtain ⟨hacc, -⟩ := hs.calls i x hx
      refine ⟨hacc, ?_⟩
      rw [if_pos (List.mem_append_right _ (List.mem_singleton_self i))]
    · obtain ⟨hacc, hfut⟩ := hs.calls j y hy
      refine ⟨hacc, ?_⟩
      rw [hfut]
      have hiff : j ∈ d.finished ++ [i] ↔ j ∈ d.finished := by
        rw [List.mem_append, List.mem_singleton]
        exact ⟨fun h => h.resolve_right (Ne.symm hij), Or.inl⟩
      simp only [hiff]

theorem Move.threads (h : Move run s c s') : s'.threads = s.threads := by
  cases h <;> rfl

/-- **A move of the pool** is an action of the desk, or none. -/
theorem Serves.move {d : Desk.State ℕ} (hs : Serves run n s d) (hn : s.threads = n) (h : Move run s c s') :
    ∃ d', Serves run n s' d' := by
  cases h with
  | launch hp hl =>
    refine ⟨d, hs.quiet rfl rfl ?_ ?_ le_rfl (kept_calls _)⟩
    · simp [running, Worker.item]
    · rw [List.length_append, List.length_singleton]
      omega
  | built hp hl => exact ⟨d, hs.quiet rfl rfl (.refl _) hs.size le_rfl (kept_calls _)⟩
  | enqueue task hp =>
    refine ⟨d, hs.quiet rfl rfl (.refl _) hs.size (by simp) fun j y' hy' => ?_⟩
    by_cases hj : j < s.calls.length
    · rw [List.getElem?_append_left hj] at hy'
      exact kept_calls _ j y' hy'
    · rw [List.getElem?_append_right (Nat.not_lt.1 hj)] at hy'
      have hy := List.mem_singleton.1 (List.mem_of_getElem? hy')
      subst hy
      refine Or.inr ⟨Nat.not_lt.1 hj, ?_, rfl⟩
      rintro (h | h) <;> cases h
  | refuse i w x hx hl hstop =>
    refine ⟨d, hs.quiet rfl rfl (.refl _) hs.size (by simp [setCall]) (kept_set_call hx ?_ rfl rfl)⟩
    simp [EnqueueCall.Accepted, hl]
  | accept i w x hx hl hstop => exact ⟨_, hs.accept hx hl⟩
  | notify i w x hx hnote hw =>
    refine ⟨d, hs.quiet rfl rfl (running_set hw rfl rfl) ?_ (by simp [setCall, setWorker])
      (kept_set_call hx ?_ rfl rfl)⟩
    · simp only [setCall, setWorker, List.length_set]
      exact hs.size
    · simp [EnqueueCall.Accepted, hnote]
  | unheard i w x hx hnote hw =>
    refine ⟨d, hs.quiet rfl rfl (.refl _) hs.size (by simp [setCall]) (kept_set_call hx ?_ rfl rfl)⟩
    simp [EnqueueCall.Accepted, hnote]
  | sleep w hw ht hstop =>
    refine ⟨d, hs.quiet rfl rfl (running_set hw rfl rfl) ?_ le_rfl (kept_calls _)⟩
    simp only [setWorker, List.length_set]
    exact hs.size
  | leave w hw ht hstop =>
    refine ⟨d, hs.quiet rfl rfl (running_set hw rfl rfl) ?_ le_rfl (kept_calls _)⟩
    simp only [setWorker, List.length_set]
    exact hs.size
  | start w i tasks hw ht => exact ⟨_, hs.start hw ht⟩
  | finish w i x hw hx => exact ⟨_, hs.finish hw hx⟩
  | spurious w hw =>
    refine ⟨d, hs.quiet rfl rfl (running_set hw rfl rfl) ?_ le_rfl (kept_calls _)⟩
    simp only [setWorker, List.length_set]
    exact hs.size
  | destroy hp => exact ⟨d, hs.quiet rfl rfl (.refl _) hs.size le_rfl (kept_calls _)⟩
  | notifyAll hp =>
    refine ⟨d, hs.quiet rfl rfl ?_ ?_ le_rfl (kept_calls _)⟩
    · unfold running
      rw [item_wake]
    · dsimp only
      rw [List.length_map]
      exact hs.size
  | join j hp hw => exact ⟨d, hs.quiet rfl rfl (.refl _) hs.size le_rfl (kept_calls _)⟩
  | joined j hp hw => exact ⟨d, hs.quiet rfl rfl (.refl _) hs.size le_rfl (kept_calls _)⟩

/-- The desk behind every state of a pool. -/
theorem exists_serves {cs : List (PoolChoice α)} (h : Machine.run (step run) { threads := n } cs = some s) :
    s.threads = n ∧ ∃ d, Serves run n s d := by
  apply Machine.run_inv (fun s => s.threads = n ∧ ∃ d, Serves run n s d) ?_ cs _ _ ?_ h
  · rintro s c s' ⟨hn, d, hs⟩ hstep
    have hm := step_move hstep
    exact ⟨hm.threads.trans hn, hs.move hn hm⟩
  · refine ⟨rfl, {}, rfl, rfl, .nil, Nat.zero_le _, List.nodup_nil, ?_, ?_⟩
    · intro i hi
      cases hi
    · intro i x hx
      cases hx

/-- **The pool is a queue with a server for each thread.** Whatever order its workers, its
users and its destructor move in, and whoever wakes up without a reason, the tasks that are
accepted, started and finished are a run of the desk. A future holds what its task computes
once the desk has finished it, and nothing before. -/
theorem pool_serves {cs : List (PoolChoice α)} (h : Machine.run (step run) { threads := n } cs = some s) :
    ∃ d, Machine.run (Desk.step n) {} (s.log.map action) = some d ∧ d.queue = s.tasks ∧
      d.active.Perm s.running ∧ ∀ (i : ℕ) (x : EnqueueCall α β), s.calls[i]? = some x →
        (x.Accepted ↔ i ∈ d.accepted) ∧ x.future = if i ∈ d.finished then some (run x.task) else none := by
  obtain ⟨-, d, hs⟩ := exists_serves h
  exact ⟨d, hs.desk, hs.queue, hs.active, hs.calls⟩

/-- Two workers and two calls, the second of which wakes a worker for nothing. -/
def poolRun : List (PoolChoice ℕ) :=
  [.launch, .launch, .launch, .enqueue 1, .enqueue 2, .call 0 0, .worker 0, .call 0 0, .call 1 0, .worker 1, .worker 1,
    .worker 1, .worker 0, .worker 0, .call 1 0, .worker 0]

/-- The desk behind this run. -/
theorem pool_serves_two : ∃ s d, Machine.run (step (· + 10)) { threads := 2 } poolRun = some s ∧
    Machine.run (Desk.step 2) {} (s.log.map action) = some d ∧ d.queue = [] ∧ d.active = [] := by
  have h : Machine.run (step (· + 10)) { threads := 2 } poolRun = some _ := rfl
  obtain ⟨d, hd, hqueue, hactive, -⟩ := pool_serves h
  exact ⟨_, d, h, hd, hqueue, List.perm_nil.1 hactive⟩

/-! ## The log -/

/-- The tasks in the order in which they were put into the queue. -/
def accepts (s : ThreadPool α β) : List ℕ := (s.log.map action).filterMap Desk.Action.accepted

def starts (s : ThreadPool α β) : List ℕ := (s.log.map action).filterMap Desk.Action.started

def finishes (s : ThreadPool α β) : List ℕ := (s.log.map action).filterMap Desk.Action.finished

/-- The log and the desk's memory. -/
theorem Serves.memory {d : Desk.State ℕ} (hs : Serves run n s d) :
    d.accepted = s.accepts ∧ d.started = s.starts ∧ d.finished = s.finishes := by
  obtain ⟨h1, h2, h3⟩ := Desk.memory_run hs.desk
  exact ⟨h1, h2, h3⟩

/-- **First come, first served.** Tasks are started in the order of the queue, each at most
once and no more than `n` at a time; a single thread also finishes them in that order. -/
theorem pool_fifo {cs : List (PoolChoice α)} (h : Machine.run (step run) { threads := n } cs = some s) :
    s.accepts = s.starts ++ s.tasks ∧ s.accepts.Nodup ∧ s.starts.Perm (s.finishes ++ s.running) ∧
      s.running.length ≤ n ∧ (n = 1 → s.starts = s.finishes ++ s.running) := by
  obtain ⟨-, d, hs⟩ := exists_serves h
  obtain ⟨hacc, hstart, hfin⟩ := hs.memory
  have hl := Desk.law_run hs.desk
  rw [← hacc, ← hstart, ← hfin, ← hs.queue, ← hs.active.length_eq]
  refine ⟨hl.fifo, hs.once, hl.served.trans (hs.active.append_left _), hl.capacity, ?_⟩
  rintro rfl
  rw [Desk.eq_of_one hs.desk]
  congr 1
  -- two lists with the same items, and no more than one
  have hactive := hs.active
  have hlen := hl.capacity
  match hd : d.active with
  | [] =>
    rw [hd] at hactive
    exact (List.nil_perm.1 hactive).symm
  | [a] =>
    rw [hd] at hactive
    exact (List.singleton_perm.1 hactive)
  | a :: b :: l =>
    rw [hd, List.length_cons, List.length_cons] at hlen
    omega

theorem pool_fifo_two : ∃ s, Machine.run (step (· + 10)) { threads := 2 } poolRun = some s ∧
    s.accepts = s.starts ++ s.tasks ∧ s.accepts = [0, 1] ∧ s.finishes = [1, 0] := by
  have h : Machine.run (step (· + 10)) { threads := 2 } poolRun = some _ := rfl
  exact ⟨_, h, (pool_fifo h).1, rfl, rfl⟩

end ThreadPool

end Graphize
