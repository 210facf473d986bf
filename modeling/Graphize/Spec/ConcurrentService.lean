import Graphize.Spec.Node

/-!
# Concurrent services

`ConcurrentService::do_service` of `service/base/concurrent_service.cpp`, called by
`Node::run`: one background task for each slice, and `merge` by the task that takes the
counter from 1 to 0. A thread is the list of its operations still to do, and the
scheduler chooses which thread goes on; a call and its return are two operations, so that
anything may happen between them.
-/

namespace Graphize

/-- `ConcurrentService::type()`. -/
def ConcurrentService.type : NodeType := .io

/-- What can be observed of a service. -/
inductive SliceEvent
  | process (index : ℕ)
  | processed (index : ℕ)
  | merge (sliceNum : ℕ)
  | merged
  | runOutputNodes
  deriving DecidableEq, Repr

/-- An operation that a thread still has to do. -/
inductive SliceOp
  /-- the loop of `do_service`, at `i` -/
  | launch (i : ℕ)
  /-- the rest of `Node::run`, once `do_service` has returned -/
  | afterService
  | process (i : ℕ)
  | processed (i : ℕ)
  | fetchSub
  | merge
  | merged
  | runOutputNodes
  deriving DecidableEq, Repr

/-- A service at work: the captured variables of its tasks, its threads, and what has
happened. -/
structure Slicing where
  sliceNum : ℕ
  countCnd : Int32
  threads : List (List SliceOp)
  log : List SliceEvent := []
  deriving DecidableEq, Repr

/-- What an operation changes: the state, what the thread does next, and the threads it
starts. -/
def SliceOp.exec (s : Slicing) : SliceOp → Slicing × List SliceOp × List (List SliceOp)
  | .launch i =>
    if i < s.sliceNum then (s, [.launch (i + 1)], [[.process i, .processed i, .fetchSub]])
    else (s, [], [])
  | .afterService =>
    -- only `cpu` nodes have their outputs run by `Node::run`
    (s, if ConcurrentService.type = .cpu then [.runOutputNodes] else [], [])
  | .process i => ({ s with log := s.log ++ [.process i] }, [], [])
  | .processed i => ({ s with log := s.log ++ [.processed i] }, [], [])
  | .fetchSub =>
    ({ s with countCnd := s.countCnd - 1 },
      if s.countCnd = 1 then [.merge, .merged, .runOutputNodes] else [], [])
  | .merge => ({ s with log := s.log ++ [.merge s.sliceNum] }, [], [])
  | .merged => ({ s with log := s.log ++ [.merged] }, [], [])
  | .runOutputNodes => ({ s with log := s.log ++ [.runOutputNodes] }, [], [])

/-- The scheduler lets thread `t` do its next operation. -/
def Slicing.step (s : Slicing) (t : ℕ) : Option Slicing :=
  match s.threads[t]? with
  | none => none
  | some [] => none
  | some (op :: ops) =>
    let (s', next, started) := op.exec s
    some { s' with threads := s.threads.set t (next ++ ops) ++ started }

/-- `Node::run` of a service whose `prepare_sub_requests` has returned `sliceNum`. -/
def ConcurrentService.doService (sliceNum : ℕ) : Slicing :=
  -- `std::atomic<int>` made of a `size_t`
  { sliceNum, countCnd := Int32.ofNat sliceNum, threads := [[.launch 0, .afterService]] }

end Graphize
