import Graphize.Spec.Graph
import Graphize.Lib.Machine

/-!
# Running a graph

`Graph::run`, `Node::run`, `Node::notify` and `Node::run_output_nodes_if_ready`, as a
machine whose scheduler picks the next task. A task is a thread of control between two
points where others may run: entering `Node::run`, each write of a `do_service`, the
moment an io node calls `run_output_nodes_if_ready` itself, each edge of the
notification loop. Background bthreads and the inline call at the end of the loop
become tasks; the call is in tail position, so nothing waits for it.

`log` records what has happened. Nothing reads it.
-/

namespace Graphize

/-- The members of `GraphContext` that a run uses. A null `shared_ptr` is `none`. -/
structure GraphContext (C : Type*) where
  nodeInputNumMap : List (Option ℤ)
  nodeServiceContextVec : List (Option C)

/-- What the node classes supply. `skip` and each step of `do_service` see all service
contexts and may write the node's own one. -/
structure Behaviour (ρ C : Type*) where
  createContext : NodePtr → C
  skip : NodePtr → ρ → List (Option C) → Bool × Option C
  doService : NodePtr → ρ → List (List (Option C) → Option C)

inductive Task
  | run (n : NodePtr)
  | service (n : NodePtr) (k : ℕ)
  | callback (n : NodePtr)
  | output (n : NodePtr) (i : ℕ) (lastReadyNode : Option NodePtr)
  deriving DecidableEq, Repr

inductive RunEvent
  | start (n : NodePtr)
  | skipped (n : NodePtr)
  | served (n : NodePtr)
  | notify (n : NodePtr) (i : ℕ)
  deriving DecidableEq, Repr

structure RunState (C : Type*) where
  ctx : GraphContext C
  tasks : List Task
  log : List RunEvent
  fault : Option Fault

variable {ρ C : Type*}

/-- A write through `GET_OWN_CONTEXT()`, if there is one. -/
def RunState.write (s : RunState C) (id : ℕ) : Option C → RunState C
  | none => s
  | some c =>
    match s.ctx.nodeServiceContextVec[id]? with
    | none => { s with fault := some .outOfRange }
    | some none => { s with fault := some .nullDeref }
    | some (some _) =>
      { s with ctx := { s.ctx with nodeServiceContextVec := s.ctx.nodeServiceContextVec.set id (some c) } }

@[simp] theorem tasks_write (s : RunState C) (id : ℕ) (c : Option C) : (s.write id c).tasks = s.tasks := by
  unfold RunState.write
  cases c with
  | none => rfl
  | some c =>
    simp only
    split <;> rfl

/-- `Node::notify`: the outcome of `fetch_sub` on the counter of a node. The value is
`none` when the id is out of range, where the source logs and returns false. -/
def GraphContext.notify (c : GraphContext C) (id : ℕ) : Except Fault (Option (Bool × GraphContext C)) :=
  match c.nodeInputNumMap[id]? with
  | none => .ok none
  | some none => .error .nullDeref
  | some (some oldValue) =>
    .ok (some (decide (oldValue = 1),
      { c with nodeInputNumMap := c.nodeInputNumMap.set id (some (oldValue - 1)) }))

/-- Running the background bthread of `last_ready_node`, if there is one. -/
def spawn : Option NodePtr → List Task
  | none => []
  | some m => [.run m]

/-- One step of a task, already taken out of `s.tasks`. -/
def Task.exec (h : Heap) (B : Behaviour ρ C) (req : ρ) (s : RunState C) : Task → RunState C
  | .run n =>
    let (skipped, c) := B.skip n req s.ctx.nodeServiceContextVec
    let s := { s.write (h n).id c with log := s.log ++ [RunEvent.start n] }
    if skipped then
      { s with tasks := s.tasks ++ [Task.output n 0 none], log := s.log ++ [RunEvent.skipped n] }
    else { s with tasks := s.tasks ++ [Task.service n 0] }
  | .service n k =>
    match (B.doService n req)[k]? with
    | some f =>
      let s := s.write (h n).id (f s.ctx.nodeServiceContextVec)
      { s with tasks := s.tasks ++ [Task.service n (k + 1)] }
    | none =>
      match (h n).type with
      | .cpu => { s with tasks := s.tasks ++ [Task.output n 0 none], log := s.log ++ [RunEvent.served n] }
      -- io nodes call run_output_nodes_if_ready themselves
      | .io => { s with tasks := s.tasks ++ [Task.callback n] }
  | .callback n => { s with tasks := s.tasks ++ [Task.output n 0 none], log := s.log ++ [RunEvent.served n] }
  | .output n i last =>
    match (h n).outNodes[i]? with
    | none => { s with tasks := s.tasks ++ spawn last }
    | some outputNode =>
      match s.ctx.notify (h outputNode).id with
      | .error f => { s with fault := some f }
      | .ok none => { s with tasks := s.tasks ++ [Task.output n (i + 1) last] }
      | .ok (some (ready, ctx)) =>
        let s := { s with ctx := ctx, log := s.log ++ [RunEvent.notify n i] }
        if ready then { s with tasks := s.tasks ++ spawn last ++ [Task.output n (i + 1) (some outputNode)] }
        else { s with tasks := s.tasks ++ [Task.output n (i + 1) last] }

/-- The scheduler runs the `k`-th task. A fault ends the process. -/
def RunState.step (h : Heap) (B : Behaviour ρ C) (req : ρ) (s : RunState C) (k : ℕ) :
    Option (RunState C) :=
  if s.fault.isSome then none
  else match s.tasks[k]? with
    | none => none
    | some t => some (t.exec h B req { s with tasks := s.tasks.eraseIdx k })

/-- The body of `for (auto node : all_nodes)` in `Graph::run`. -/
def RunState.enter (h : Heap) (B : Behaviour ρ C) (s : RunState C) (node : NodePtr) : RunState C :=
  let id := (h node).id
  if id < s.ctx.nodeInputNumMap.length ∧ id < s.ctx.nodeServiceContextVec.length then
    { s with ctx := {
        nodeInputNumMap := s.ctx.nodeInputNumMap.set id (some (h node).inputNum)
        nodeServiceContextVec := s.ctx.nodeServiceContextVec.set id (some (B.createContext node)) } }
  else { s with fault := some .outOfRange }

/-- `Graph::run` up to the call `root_node->run(context)`; `none` when it returns `-1`. -/
def Graph.run (g : Graph) (h : Heap) (B : Behaviour ρ C) : Option (RunState C) :=
  match g.rootNode with
  | none => none
  | some root =>
    let ctx : GraphContext C :=
      ⟨List.replicate g.allNodes.length none, List.replicate (g.maxNodeId + 1) none⟩
    let s := g.allNodes.foldl (RunState.enter h B) ⟨ctx, [], [], none⟩
    some { s with tasks := [.run root] }

/-! ## Several requests -/

/-- The requests a process is serving, each with its own context. -/
abbrev World (ρ C : Type*) := List (ρ × RunState C)

inductive Choice (ρ : Type*)
  | begin (req : ρ)
  | exec (j k : ℕ)

def World.step (g : Graph) (h : Heap) (B : Behaviour ρ C) (W : World ρ C) :
    Choice ρ → Option (World ρ C)
  | .begin req => (g.run h B).map fun s => W ++ [(req, s)]
  | .exec j k =>
    match W[j]? with
    | none => none
    | some (req, s) => (s.step h B req k).map fun s' => W.set j (req, s')

/-! ## Sequential evaluation -/

/-- `vec` after a write of the node with this id to its own context. -/
def writeVec (vec : List (Option C)) (id : ℕ) : Option C → List (Option C)
  | none => vec
  | some c => vec.set id (some c)

/-- One node, from `Node::run` to the end of its `do_service`. -/
def evalNode (h : Heap) (B : Behaviour ρ C) (req : ρ) (vec : List (Option C)) (n : NodePtr) :
    List (Option C) :=
  let (skipped, c) := B.skip n req vec
  let vec := writeVec vec (h n).id c
  if skipped then vec
  else (B.doService n req).foldl (fun vec f => writeVec vec (h n).id (f vec)) vec

/-- The nodes of `order` one after the other, on the contexts `Graph::run` creates. -/
def Graph.evalSeq (g : Graph) (h : Heap) (B : Behaviour ρ C) (req : ρ) (order : List NodePtr) :
    List (Option C) :=
  order.foldl (evalNode h B req)
    (g.allNodes.foldl (fun vec n => vec.set (h n).id (some (B.createContext n)))
      (List.replicate (g.maxNodeId + 1) none))

end Graphize
