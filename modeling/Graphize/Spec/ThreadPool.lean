import Mathlib.Data.List.Basic
import Mathlib.Data.Nat.Init

/-!
# The thread pool

`global::ThreadPool` of `frame/ThreadPool.h`. What a thread does under `queue_mutex` is one
step, and so is what it does between two locks: `condition.wait` looks at its predicate under
the lock and either goes on or sleeps, `enqueue` puts the task into the queue and notifies
afterwards, the destructor sets `stop` and notifies afterwards.

A call of `enqueue` is known by its place in `calls`, which stands for the `packaged_task`
the call makes: the queue holds the places, and running a task fulfils the future of its
place. `run` is what the tasks compute, an exception included.

Names of threads are left out.
-/

namespace Graphize

/-- Where a worker thread is in its loop. -/
inductive Worker where
  /-- About to take the lock, at the start of a round or after it has been woken. -/
  | ready
  /-- Asleep in `condition.wait`. -/
  | waiting
  | running (task : ℕ)
  | returned
  deriving DecidableEq, Repr

/-- What `condition.notify_all` does to a worker. -/
def Worker.wake : Worker → Worker
  | .waiting => .ready
  | worker => worker

/-- The task it is running. -/
def Worker.item : Worker → List ℕ
  | .running i => [i]
  | _ => []

/-- Where a thread is in `enqueue`. -/
inductive CallPhase where
  /-- The task is made, the lock is still to be taken. -/
  | locking
  /-- The task is in the queue, `condition.notify_one` is still to be called. -/
  | notifying
  | returned
  | thrown
  deriving DecidableEq, Repr

structure EnqueueCall (α β : Type*) where
  task : α
  phase : CallPhase := .locking
  /-- What the task has put into its future. -/
  future : Option β := none

/-- The task is in the queue, or has been. -/
def EnqueueCall.Accepted {α β : Type*} (c : EnqueueCall α β) : Prop := c.phase = .notifying ∨ c.phase = .returned

/-- From the constructor to the end of the destructor. -/
inductive PoolPhase where
  | constructing
  | live
  /-- `stop` is set, `condition.notify_all` is still to be called. -/
  | stopping
  | joining (worker : ℕ)
  | destroyed
  deriving DecidableEq, Repr

inductive PoolEvent where
  | accept (task : ℕ)
  | start (task : ℕ)
  | finish (task : ℕ)
  deriving DecidableEq, Repr

structure ThreadPool (α β : Type*) where
  threads : ℕ
  workers : List Worker := []
  tasks : List ℕ := []
  stop : Bool := false
  phase : PoolPhase := .constructing
  calls : List (EnqueueCall α β) := []
  log : List PoolEvent := []

inductive PoolChoice (α : Type*) where
  /-- The constructor starts the next thread, or returns. -/
  | launch
  /-- A thread calls `enqueue`. -/
  | enqueue (task : α)
  /-- A call goes on; if it notifies, `worker` is the one that is woken. -/
  | call (i worker : ℕ)
  | worker (w : ℕ)
  /-- A sleeping worker wakes up without having been notified. -/
  | spurious (w : ℕ)
  /-- The destructor takes the lock and sets `stop`. -/
  | destroy
  | notifyAll
  /-- The destructor's `join` returns. -/
  | join

/-- Steps of the pool's own threads and of calls under way; the others are its users' or
nobody's. -/
def PoolChoice.internal {α : Type*} : PoolChoice α → Bool
  | .enqueue _ | .spurious _ | .destroy => false
  | _ => true

variable {α β : Type*}

namespace ThreadPool

def setWorker (s : ThreadPool α β) (w : ℕ) (worker : Worker) : ThreadPool α β :=
  { s with workers := s.workers.set w worker }

/-- The call at `i` is `c`. -/
def setCall (s : ThreadPool α β) (i : ℕ) (c : EnqueueCall α β) : ThreadPool α β :=
  { s with calls := s.calls.set i c }

/-- The locked part of `enqueue`. -/
def lockQueue (s : ThreadPool α β) (i : ℕ) (c : EnqueueCall α β) : ThreadPool α β :=
  if s.stop then
    s.setCall i { c with phase := .thrown }
  else
    { s.setCall i { c with phase := .notifying } with tasks := s.tasks ++ [i], log := s.log ++ [.accept i] }

/-- `condition.notify_one` wakes one of the workers that sleep, if there is one. -/
def notifyOne (s : ThreadPool α β) (w : ℕ) : Option (ThreadPool α β) :=
  if .waiting ∈ s.workers then
    if s.workers[w]? = some .waiting then some (s.setWorker w .ready) else none
  else some s

/-- The locked part of a worker's round: `condition.wait`, and then the front of the queue. -/
def round (s : ThreadPool α β) (w : ℕ) : ThreadPool α β :=
  match s.tasks with
  | [] => s.setWorker w (if s.stop then .returned else .waiting)
  | i :: tasks => { s.setWorker w (.running i) with tasks := tasks, log := s.log ++ [.start i] }

/-- The worker runs the task and goes back to the start of its loop. -/
def finish (run : α → β) (s : ThreadPool α β) (w i : ℕ) : Option (ThreadPool α β) :=
  (s.calls[i]?).map fun c =>
    { (s.setWorker w .ready).setCall i { c with future := some (run c.task) } with log := s.log ++ [.finish i] }

/-- What a call that outlives the pool does is undefined, so it takes no step. -/
def step (run : α → β) (s : ThreadPool α β) : PoolChoice α → Option (ThreadPool α β)
  | .launch =>
    if s.phase = .constructing then
      some (if s.workers.length < s.threads then { s with workers := s.workers ++ [.ready] }
        else { s with phase := .live })
    else none
  | .enqueue task =>
    if s.phase = .constructing ∨ s.phase = .destroyed then none
    else some { s with calls := s.calls ++ [{ task }] }
  | .call i w =>
    if s.phase = .destroyed then none
    else match s.calls[i]? with
      | some c => match c.phase with
        | .locking => some (s.lockQueue i c)
        | .notifying => (s.notifyOne w).map fun s' => s'.setCall i { c with phase := .returned }
        | _ => none
      | none => none
  | .worker w =>
    match s.workers[w]? with
    | some .ready => some (s.round w)
    | some (.running i) => s.finish run w i
    | _ => none
  | .spurious w =>
    match s.workers[w]? with
    | some .waiting => some (s.setWorker w .ready)
    | _ => none
  | .destroy => if s.phase = .live then some { s with stop := true, phase := .stopping } else none
  | .notifyAll =>
    if s.phase = .stopping then some { s with workers := s.workers.map Worker.wake, phase := .joining 0 }
    else none
  | .join =>
    match s.phase with
    | .joining i => match s.workers[i]? with
      | some .returned => some { s with phase := .joining (i + 1) }
      | some _ => none
      | none => some { s with phase := .destroyed }
    | _ => none

/-- The tasks that are being run. -/
def running (s : ThreadPool α β) : List ℕ := s.workers.flatMap Worker.item

/-- The tasks that the queue still holds when the members of the pool are destroyed. Nobody
runs them, and their futures get ready with a broken promise. -/
def abandoned (s : ThreadPool α β) : List ℕ := if s.phase = .destroyed then s.tasks else []

/-- Nothing moves unless a user or a spurious wake-up moves it. -/
def Quiet (run : α → β) (s : ThreadPool α β) : Prop := ∀ c : PoolChoice α, c.internal → s.step run c = none

end ThreadPool

end Graphize
