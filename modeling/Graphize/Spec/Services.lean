import Graphize.Spec.Run
import Graphize.Spec.ConcurrentService
import Graphize.Spec.RedisRun
import Graphize.Lib.Handover

/-!
# A graph of services

`BrpcService` and `HttpService` of `service/base`, and a run of a graph whose `io` nodes
are of the classes there. In `Spec/Run` the node of a `Task.callback` hands over in one
step; here that task is the call of the node's `do_service`, and from it on the node is a
machine of its own, whose threads run between the tasks of the graph and which calls
`run_output_nodes_if_ready` when its class does. The cache is one for all nodes.

What a service writes to its context is left out.
-/

namespace Graphize

/-! ## Rpc services -/

/-- `BrpcService::type()`. -/
def BrpcService.type : NodeType := .io

inductive RpcEvent
  | callMethod
  | processResponse
  | runOutputNodes
  deriving DecidableEq, Repr

/-- An operation that a thread of an rpc service still has to do. -/
inductive RpcOp
  /-- `get_transport` and the test of its result -/
  | getTransport
  /-- `call_rpc_method`, or `CallMethod` of the channel -/
  | callMethod
  /-- the rest of `Node::run`, once `do_service` has returned -/
  | afterService
  /-- `service_cb` -/
  | processResponse
  | runOutputNodes
  deriving DecidableEq, Repr

/-- A service at work: whether `get_transport` finds a channel, and how many closures that
run `service_cb` are given to it. A channel runs each closure once, at any time. -/
structure RpcCall where
  channel : Bool
  closures : ℕ
  threads : List (List RpcOp)
  log : List RpcEvent := []
  deriving DecidableEq, Repr

/-- What an operation changes: the state, what the thread does next, and the threads it
starts. -/
def RpcOp.exec (s : RpcCall) : RpcOp → RpcCall × List RpcOp × List (List RpcOp)
  | .getTransport => (s, if s.channel then [.callMethod] else [.runOutputNodes], [])
  | .callMethod =>
    ({ s with log := s.log ++ [.callMethod] }, [], List.replicate s.closures [.processResponse, .runOutputNodes])
  | .afterService => (s, if BrpcService.type = .cpu then [.runOutputNodes] else [], [])
  | .processResponse => ({ s with log := s.log ++ [.processResponse] }, [], [])
  | .runOutputNodes => ({ s with log := s.log ++ [.runOutputNodes] }, [], [])

/-- The scheduler lets thread `t` do its next operation. -/
def RpcCall.step (s : RpcCall) (t : ℕ) : Option RpcCall :=
  match s.threads[t]? with
  | none => none
  | some [] => none
  | some (op :: ops) =>
    let (s', next, started) := op.exec s
    some { s' with threads := s.threads.set t (next ++ ops) ++ started }

/-- How many closures `call_method` of `frame/call_mothod_util.h` gives to the channel. -/
def callMethod (channel : Bool) : ℕ := if channel then 1 else 0

/-- How many closures `BrpcService::call_rpc_method` itself makes of `service_cb`. -/
def BrpcService.callRpcMethod : ℕ := 0

/-- `BrpcService::do_service`, whose `call_rpc_method` makes `closures` closures. -/
def BrpcService.doService (channel : Bool) (closures : ℕ) : RpcCall :=
  { channel, closures, threads := [[.getTransport, .afterService]] }

/-- `HttpService::do_service`, which makes its closure itself. -/
def HttpService.doService (channel : Bool) : RpcCall :=
  { channel, closures := 1, threads := [[.getTransport, .afterService]] }

/-! ## The classes -/

universe u

/-- The class of an `io` node, with what its virtual functions and its clients do for a
request. -/
inductive ServiceClass (ρ : Type u)
  | concurrent (prepareSubRequests : ρ → ℕ)
  | brpc (transportName : Str) (callRpcMethod : ρ → ℕ)
  | http (transportName : Str)
  | redis (env : RedisEnv ρ) (fetchInfoVec : List FetchInfo) (backend : ρ → Backend)

/-- A service at work. -/
inductive ServiceState (ρ : Type u)
  | concurrent (s : Slicing)
  | rpc (s : RpcCall)
  | redis (env : RedisEnv ρ) (s : Serving)

/-- An entry of the file given to `GtransportManager::init`. -/
structure TransportConf where
  ns : Option Str := none
  loadBalancer : Option Str := none
  timeoutMs : Option ℤ := none
  backupTimeoutMs : Option ℤ := none
  connectionType : Option Str := none
  maxRetry : Option ℤ := none
  protocal : Option Str := none
  deriving DecidableEq, Repr

/-- `GtransportManager::downstream_map`: the channels, each as the entry that it has been
initialised with. -/
abbrev DownstreamMap := List (Str × TransportConf)

/-- `GtransportManager::get_transport`. A null pointer is `none`. -/
def DownstreamMap.getTransport (downstreamMap : DownstreamMap) (transportName : Str) : Option TransportConf :=
  downstreamMap.lookup transportName

variable {ρ : Type u}

/-- `do_service` of a node of this class. -/
def ServiceClass.doService (downstreamMap : DownstreamMap) (req : ρ) (cache : Cache) :
    ServiceClass ρ → ServiceState ρ
  | .concurrent prepareSubRequests => .concurrent (ConcurrentService.doService (prepareSubRequests req))
  | .brpc name callRpcMethod =>
    .rpc (BrpcService.doService (downstreamMap.getTransport name).isSome (callRpcMethod req))
  | .http name => .rpc (HttpService.doService (downstreamMap.getTransport name).isSome)
  | .redis env vec backend => .redis env (RedisNode.doService env ⟨vec, cache⟩ req (backend req))

/-- Thread `t` of a service goes on. -/
def ServiceState.step (cache : Cache) (s : ServiceState ρ) (t : ℕ) : Option (Cache × ServiceState ρ) :=
  match s with
  | .concurrent s => (s.step t).map fun s => (cache, .concurrent s)
  | .rpc s => (s.step t).map fun s => (cache, .rpc s)
  | .redis env s => (Serving.step env (s.setCache cache) t).map fun s => (s.node.cache, .redis env s)

/-- How often a service has called `run_output_nodes_if_ready`. -/
def ServiceState.outputs : ServiceState ρ → ℕ
  | .concurrent s => s.log.count .runOutputNodes
  | .rpc s => s.log.count .runOutputNodes
  | .redis _ s => s.request.log.count .output

/-- An exception that nobody catches, or undefined behaviour. -/
def ServiceState.crashed : ServiceState ρ → Bool
  | .redis _ s => s.request.crash.isSome
  | _ => false

/-! ## The graph -/

/-- The services of a graph: what they do, and the call of `do_service` of a node. -/
structure Services (ρ γ σ : Type*) extends Handover.Service γ σ ℕ where
  doService : ρ → NodePtr → γ → σ

/-- The services of the classes in `service/base`. -/
def serviceClasses (downstreamMap : DownstreamMap) (classOf : NodePtr → ServiceClass ρ) :
    Services ρ Cache (ServiceState ρ) where
  step := ServiceState.step
  calls := ServiceState.outputs
  failed := ServiceState.crashed
  doService req n cache := (classOf n).doService downstreamMap req cache

/-- A run of a graph, with what its services share and those that have been called. -/
structure System (C γ σ : Type*) where
  run : RunState C
  shared : γ
  services : List (NodePtr × σ) := []

inductive SystemChoice
  | task (k : ℕ)
  | service (j t : ℕ)
  deriving DecidableEq, Repr

section System

variable {ρ C γ σ : Type*}

/-- `k` calls of `run_output_nodes_if_ready` by a service of node `n`. -/
def RunState.runOutputNodes (s : RunState C) (n : NodePtr) (k : ℕ) : RunState C :=
  { s with
    tasks := s.tasks ++ List.replicate k (.output n 0 none)
    log := s.log ++ List.replicate k (.served n) }

/-- A task of the graph, or a thread of a service, goes on. A service that has crashed ends
the process. -/
def System.step (h : Heap) (B : Behaviour ρ C) (S : Services ρ γ σ) (req : ρ) (s : System C γ σ)
    (choice : SystemChoice) : Option (System C γ σ) :=
  if s.run.fault.isSome ∨ s.services.any (fun p => S.failed p.2) then none
  else
    match choice with
    | .task k =>
      match s.run.tasks[k]? with
      | some (.callback n) => some { s with
          run := { s.run with tasks := s.run.tasks.eraseIdx k }
          services := s.services ++ [(n, S.doService req n s.shared)] }
      | _ => (s.run.step h B req k).map fun run => { s with run := run }
    | .service j t =>
      match s.services[j]? with
      | none => none
      | some (n, x) =>
        (S.step s.shared x t).map fun (shared, x') =>
          { run := s.run.runOutputNodes n (S.calls x' - S.calls x), shared := shared
            services := s.services.set j (n, x') }

/-- `Graph::run`, up to the call `root_node->run(context)`. -/
def Graph.runServices (g : Graph) (h : Heap) (B : Behaviour ρ C) (shared : γ) : Option (System C γ σ) :=
  (g.run h B).map fun run => { run := run, shared := shared }

end System

end Graphize
