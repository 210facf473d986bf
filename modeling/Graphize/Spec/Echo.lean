import Graphize.Spec.Config
import Graphize.Spec.Run

/-!
# `EchoServiceImpl::Echo`

The rpc that starts a run of `graph1`, and its closure `done`, which sends the response.
Two parties can run the closure: the guard of the call, and the code of a node as far as
its context leads to it. `Echo` goes on when `root_node->run` has returned; here it may go
on at any moment after the run has begun. The controller is only read for the log.
-/

namespace Graphize

variable {ρ σ C D : Type*}

/-- `brpc::ClosureGuard`. -/
structure ClosureGuard (D : Type*) where
  done : Option D

/-- `ClosureGuard::release`. -/
def ClosureGuard.release (g : ClosureGuard D) : Option D × ClosureGuard D := (g.done, ⟨none⟩)

/-- What `~ClosureGuard` runs. -/
def ClosureGuard.destroy (g : ClosureGuard D) : List D := g.done.toList

/-- The members of `Context` that its constructor sets. -/
structure Context (ρ σ : Type*) where
  graphName : Str
  request : ρ
  response : σ

/-- `Context::Context`. The constructor of `GraphContext` takes the closure and initialises
no member with it. -/
def Context.construct (req : ρ) (resp : σ) (_closure : D) : Context ρ σ := ⟨[], req, resp⟩

/-- `GraphContext::set_graph_name`. -/
def Context.setGraphName (c : Context ρ σ) (graphName : Str) : Context ρ σ := { c with graphName := graphName }

/-- What a member of a context may be, as far as the arguments of its constructor go. -/
inductive ContextMember (ρ σ D : Type*)
  | graphName (graphName : Str)
  | request (request : ρ)
  | response (response : σ)
  | closure (done : D)

/-- The closure that a member leads to. -/
def ContextMember.closure? : ContextMember ρ σ D → Option D
  | .closure done => some done
  | _ => none

def Context.members (c : Context ρ σ) : List (ContextMember ρ σ D) :=
  [.graphName c.graphName, .request c.request, .response c.response]

/-- The closures that the members of a context lead to. -/
def Context.closures (c : Context ρ σ) : List D := c.members.filterMap ContextMember.closure?

/-- `GraphManager::get_graph`. A null pointer is `none`. -/
def GraphMap.getGraph (m : GraphMap) (topoName : Str) : Option (Graph × Heap) := m.lookup topoName

/-- A call of `Echo` that has started its graph. `ran` lists the closures run, each with
what the nodes had done by then; nothing reads it. -/
structure EchoCall (ρ σ C D : Type*) where
  doneGuard : ClosureGuard D
  context : Context ρ σ
  run : RunState C
  returned : Bool := false
  ran : List (D × List RunEvent) := []

inductive EchoChoice
  | exec (k : ℕ)
  | back
  deriving DecidableEq, Repr

/-- One step of a call: a task of the graph, whose code runs the closures of its context
that `closes` picks, or the end of `Echo` with `done_guard.release()` and the destructor. -/
def EchoCall.step (h : Heap) (B : Behaviour ρ C) (closes : Task → List ℕ) (s : EchoCall ρ σ C D) :
    EchoChoice → Option (EchoCall ρ σ C D)
  | .exec k =>
    match s.run.tasks[k]?, s.run.step h B s.context.request k with
    | some t, some run =>
      let closed := (closes t).filterMap fun i => s.context.closures[i]?
      some { s with run := run, ran := s.ran ++ closed.map fun d => (d, run.log) }
    | _, _ => none
  | .back =>
    if s.returned || s.run.fault.isSome then none
    else
      let (_, doneGuard) := s.doneGuard.release
      some { s with
        doneGuard := doneGuard
        returned := true
        ran := s.ran ++ doneGuard.destroy.map fun d => (d, s.run.log) }

/-- `EchoServiceImpl::Echo` up to the call `root_node->run(context)`. `Graph::run` without
a root returns at once. -/
def EchoServiceImpl.echo (graphMap : GraphMap) (B : Behaviour ρ C) (request : ρ) (response : σ) (done : D) :
    Except Fault (EchoCall ρ σ C D) :=
  let doneGuard : ClosureGuard D := ⟨some done⟩
  match graphMap.getGraph "graph1".toList with
  | none => .error .nullDeref
  | some (g, h) =>
    let context := (Context.construct request response done).setGraphName g.name
    match g.run h B with
    | none => .ok { doneGuard := doneGuard, context := context, run := ⟨⟨[], []⟩, [], [], none⟩ }
    | some run => .ok { doneGuard := doneGuard, context := context, run := run }

end Graphize
