import Graphize.Spec.Config
import Graphize.Spec.RedisClient
import Graphize.Spec.Services
import Graphize.Lib.FirstWins

/-!
# `init_graph_frame`

What the program does before it serves: `init_graph_frame` of `frame/graph_manager.cpp` with
the managers it initialises (`frame/node_manager.cpp`, `client/redis/redis_client_manager.cpp`,
`frame/cache_manager.cpp`), `GtransportManager::init`, which nobody calls, and `main`.

A configuration file is what the parser makes of it: the entries of an object in the order
of `key_set()`, and `none` for an absent key. Reading an absent key throws, and nobody
catches it. `LOG(FATAL)` logs and goes on to the `return false` after it, as the code is
written. The managers are singletons, so one that is initialised again keeps what it has.
What the servers that a call talks to do is a parameter of the call.
-/

namespace Graphize

open FirstWins

universe u

/-- What ends the program. -/
inductive StartupError
  /-- `get_string` or `get_int` of a key that is absent -/
  | missing (key : Str)
  /-- an exception that leaves the `noexcept` constructor of a redis client -/
  | terminate
  | fault (f : Fault)
  deriving DecidableEq, Repr

/-- `get_string`, `get_int`. -/
def getConf {α : Type*} (key : Str) : Option α → Except StartupError α
  | some a => .ok a
  | none => .error (.missing key)

/-- An entry of `redis_client_conf_file`. -/
structure RedisClientConf where
  address : Option Str := none
  poolSize : Option ℤ := none
  maxPoolSize : Option ℤ := none
  timeoutMs : Option ℤ := none

/-- What the constructor of `RedisClient` is given. -/
structure RedisClientArgs where
  address : Str
  timeoutMs : ℤ
  poolSize : ℤ
  maxPoolSize : ℤ
  deriving DecidableEq, Repr

/-- What `RedisClientManager::init` reads of an entry. -/
def RedisClientConf.read (conf : RedisClientConf) : Except StartupError RedisClientArgs := do
  let address ← getConf "address".toList conf.address
  let poolSize ← getConf "pool_size".toList conf.poolSize
  let maxPoolSize ← getConf "max_pool_size".toList conf.maxPoolSize
  let timeoutMs ← getConf "timeout_ms".toList conf.timeoutMs
  return ⟨address, timeoutMs, poolSize, maxPoolSize⟩

/-- A client with the arguments it has been constructed with. -/
structure ManagedClient (Conn : Type u) where
  args : RedisClientArgs
  client : RedisClient Conn

/-- `RedisClientManager::client_map`. -/
abbrev ClientMap (Conn : Type u) := List (Str × ManagedClient Conn)

/-- What the clients of a file meet while they are constructed: what `brpc::Channel::Init`
makes of an address, and what becomes of the request for `CLUSTER NODES`. -/
structure RedisSite (Conn : Type u) where
  channel : Str → RedisClientArgs → Str → ℕ → Option Conn
  clusterNodes : Str → RedisClientArgs → NodesReply

/-- What the client of a name is built with. -/
def RedisSite.env {Conn : Type u} (site : RedisSite Conn) (name : Str) (args : RedisClientArgs) : RedisClientEnv Conn :=
  ⟨Int32.ofInt args.poolSize, site.channel name args⟩

/-- An entry of `node_service_conf_file`, as far as start-up reads it. -/
structure ServiceConf where
  clazz : Option Str := none
  downstream : Option Str := none
  deriving DecidableEq, Repr

/-- An entry of the `fetch_infos` of a node of a class derived from `RedisService`. -/
structure FetchInfoConf where
  keyPrefix : Option Str := none
  keyPostfix : Option Str := none
  redisClientId : Option Str := none
  keyGenFunc : Option Str := none
  responseFunc : Option Str := none
  compress : Option Str := none
  useCache : Option Bool := none
  expireTimeS : Option ℤ := none

/-- The body of the loop of `RedisService::init`. `expire_time` goes through a `uint64_t` and
is an `int` again where it is used. -/
def FetchInfo.ofConf (conf : FetchInfoConf) : Except StartupError FetchInfo := do
  let keyPrefix ← getConf "prefix".toList conf.keyPrefix
  let keyPostfix ← getConf "postfix".toList conf.keyPostfix
  let redisClientId ← getConf "redis_client_id".toList conf.redisClientId
  let keyGenFunc ← getConf "key_gen_func".toList conf.keyGenFunc
  let responseFunc ← getConf "response_func".toList conf.responseFunc
  let compress ← getConf "compress".toList conf.compress
  return { keyPrefix, keyPostfix, compress, keyGenFunc, redisClientId, responseFunc
           useCache := conf.useCache.getD false, expireTime := conf.expireTimeS.getD 0 }

/-- `RedisService::init` of a new node, up to the call of `init_redis_conf`. -/
def redisServiceInit (fetchInfos : Option (List FetchInfoConf)) : Except StartupError (List FetchInfo) := do
  (← getConf "fetch_infos".toList fetchInfos).mapM FetchInfo.ofConf

/-- The object `graph_frame` of the server's file. -/
structure FrameConf where
  shmcacheConfFile : Option Str := none
  redisClientConfFile : Option Str := none
  nodeServiceConfFile : Option Str := none
  graphConfFile : Option Str := none

/-- The configuration files by their paths, and what `shmcache_init_from_file` returns. -/
structure ConfFiles where
  frame : Str → Option FrameConf
  shmcache : Str → ℤ
  redisClients : Str → List (Str × RedisClientConf)
  nodeServices : Str → List (Str × ServiceConf)
  graphs : Str → List (Str × GraphConf)
  transports : Str → List (Str × TransportConf)

section Managers

variable {Conn : Type u}

/-- The managers: `ObjectCache::init_status_`, `GtransportManager::downstream_map`,
`RedisClientManager::client_map`, `NodeManager::nodes_map`, `GraphManager::graph_map`. -/
structure Frame (Conn : Type u) where
  initStatus : Option ℤ := none
  downstreamMap : DownstreamMap := []
  clientMap : ClientMap Conn := []
  nodesMap : List (Str × ServiceConf) := []
  graphMap : GraphMap := []

/-- `RedisClientManager::init`, which returns `true` if it returns. A client is constructed
before the map is asked whether its name is taken. -/
def redisClientManagerInit (fuel : ℕ) (site : RedisSite Conn) (clientMap : ClientMap Conn) :
    List (Str × RedisClientConf) → Option (Except StartupError (ClientMap Conn))
  | [] => some (.ok clientMap)
  | (name, conf) :: rest =>
    match conf.read with
    | .error e => some (.error e)
    | .ok args =>
      match RedisClient.construct fuel (site.env name args) (site.clusterNodes name args) with
      | none => none
      | some (.error _) => some (.error .terminate)
      | some (.ok client) => redisClientManagerInit fuel site (insertNew clientMap name ⟨args, client⟩) rest

/-- `GtransportManager::get_transport` or `RedisClientManager::get_client` finds the name. -/
def Downstream (downstreamMap : DownstreamMap) (clientMap : ClientMap Conn) (name : Str) : Prop :=
  (downstreamMap.getTransport name).isSome ∨ (clientMap.lookup name).isSome

instance (downstreamMap : DownstreamMap) (clientMap : ClientMap Conn) (name : Str) :
    Decidable (Downstream downstreamMap clientMap name) := inferInstanceAs (Decidable (_ ∨ _))

/-- `NodeManager::init`. An entry is in the map before its `downstream` is looked up. -/
def nodeManagerInit (downstreamMap : DownstreamMap) (clientMap : ClientMap Conn)
    (nodesMap : List (Str × ServiceConf)) :
    List (Str × ServiceConf) → Except StartupError (Bool × List (Str × ServiceConf))
  | [] => .ok (true, nodesMap)
  | (nodeName, conf) :: rest => do
    let _ ← getConf "class".toList conf.clazz
    let downstream := conf.downstream.getD []
    let nodesMap := insertNew nodesMap nodeName conf
    if downstream ≠ [] ∧ ¬Downstream downstreamMap clientMap downstream then .ok (false, nodesMap)
    else nodeManagerInit downstreamMap clientMap nodesMap rest

/-- `GtransportManager::init`. `channelInit` is whether `Channel::Init` succeeds. A name that
is taken keeps its channel. -/
def gtransportManagerInit (channelInit : TransportConf → Bool) (downstreamMap : DownstreamMap) :
    List (Str × TransportConf) → Except StartupError (Bool × DownstreamMap)
  | [] => .ok (true, downstreamMap)
  | (downstreamName, conf) :: rest => do
    let _ ← getConf "ns".toList conf.ns
    let _ ← getConf "load_balancer".toList conf.loadBalancer
    let _ ← getConf "timeout_ms".toList conf.timeoutMs
    let _ ← getConf "backup_timeout_ms".toList conf.backupTimeoutMs
    let _ ← getConf "connection_type".toList conf.connectionType
    let _ ← getConf "max_retry".toList conf.maxRetry
    let _ ← getConf "protocal".toList conf.protocal
    if channelInit conf then
      gtransportManagerInit channelInit (insertNew downstreamMap downstreamName conf) rest
    else .ok (false, downstreamMap)

/-- What `GraphManager::init` sees of the node manager. -/
def Frame.nodeManager (f : Frame Conn) : NodeManager where
  nodesMap := f.nodesMap.map fun e => (e.1, e.2.clazz.getD [])

/-- `init_graph_frame` up to the node manager. That the cache could not be initialised is
only logged. -/
def initServices (fuel : ℕ) (site : RedisSite Conn) (files : ConfFiles) (conf : FrameConf) (f : Frame Conn) :
    Option (Except StartupError (Bool × Frame Conn)) :=
  match getConf "shmcache_conf_file".toList conf.shmcacheConfFile with
  | .error e => some (.error e)
  | .ok shmcacheConfFile =>
    let f := { f with initStatus := some (files.shmcache shmcacheConfFile) }
    match getConf "redis_client_conf_file".toList conf.redisClientConfFile with
    | .error e => some (.error e)
    | .ok redisClientConfFile =>
      match redisClientManagerInit fuel site f.clientMap (files.redisClients redisClientConfFile) with
      | none => none
      | some (.error e) => some (.error e)
      | some (.ok clientMap) =>
        match getConf "node_service_conf_file".toList conf.nodeServiceConfFile with
        | .error e => some (.error e)
        | .ok nodeServiceConfFile =>
          match nodeManagerInit f.downstreamMap clientMap f.nodesMap (files.nodeServices nodeServiceConfFile) with
          | .error e => some (.error e)
          | .ok (suc, nodesMap) => some (.ok (suc, { f with clientMap := clientMap, nodesMap := nodesMap }))

/-- `init_graph_frame`. -/
def initGraphFrame (fuel : ℕ) (factory : Str → Option NodeType) (site : RedisSite Conn) (files : ConfFiles)
    (graphFrameFile : Str) (f : Frame Conn) : Option (Except StartupError (Bool × Frame Conn)) :=
  match files.frame graphFrameFile with
  | none => some (.ok (false, f))
  | some conf =>
    match initServices fuel site files conf f with
    | none => none
    | some (.error e) => some (.error e)
    | some (.ok (false, f)) => some (.ok (false, f))
    | some (.ok (true, f)) =>
      match getConf "graph_conf_file".toList conf.graphConfFile with
      | .error e => some (.error e)
      | .ok graphConfFile =>
        match graphManagerInit fuel (f.nodeManager.info factory) f.graphMap (files.graphs graphConfFile) with
        | none => none
        | some (.error fault) => some (.error (.fault fault))
        | some (.ok (suc, graphMap)) => some (.ok (suc, { f with graphMap := graphMap }))

/-! ## Programs that initialise more than once -/

/-- A call, with what the clients meet that it constructs. -/
inductive InitCall (Conn : Type u)
  | frame (path : Str) (site : RedisSite Conn)
  | transports (path : Str)

/-- A program with the managers and the results of its calls so far. -/
structure Program (Conn : Type u) where
  frame : Frame Conn := {}
  results : List Bool := []

/-- The next call returns. -/
def Program.step (fuel : ℕ) (factory : Str → Option NodeType) (channelInit : TransportConf → Bool) (files : ConfFiles)
    (p : Program Conn) : InitCall Conn → Option (Program Conn)
  | .frame path site =>
    match initGraphFrame fuel factory site files path p.frame with
    | some (.ok (suc, frame)) => some { frame := frame, results := p.results ++ [suc] }
    | _ => none
  | .transports path =>
    match gtransportManagerInit channelInit p.frame.downstreamMap (files.transports path) with
    | .ok (suc, downstreamMap) =>
      some { frame := { p.frame with downstreamMap := downstreamMap }, results := p.results ++ [suc] }
    | .error _ => none

/-! ## `main` -/

/-- The server's own keys. -/
structure ServerConf where
  logPath : Option Str := none
  port : Option ℤ := none
  coresMulti : Option ℤ := none

/-- How `main` goes on: it serves requests, or it is at its end. -/
inductive MainResult (Conn : Type u)
  | serving (frame : Frame Conn)
  | returned (code : ℤ)
  | threw (e : StartupError)

/-- `main`, where `addService` and `start` are whether `Server::AddService` and
`Server::Start` succeed. -/
def mainProgram (fuel : ℕ) (factory : Str → Option NodeType) (site : RedisSite Conn) (files : ConfFiles)
    (graphFrameFile : Str) (server : ServerConf) (addService start : Bool) : Option (MainResult Conn) :=
  match getConf "log_path".toList server.logPath with
  | .error e => some (.threw e)
  | .ok _ =>
    match initGraphFrame fuel factory site files graphFrameFile {} with
    | none => none
    | some (.error e) => some (.threw e)
    | some (.ok (false, _)) => some (.returned (-1))
    | some (.ok (true, frame)) =>
      match getConf "port".toList server.port with
      | .error e => some (.threw e)
      | .ok _ =>
        if !addService then some (.returned (-1))
        else
          match getConf "cores_multi".toList server.coresMulti with
          | .error e => some (.threw e)
          | .ok _ => some (if start then .serving frame else .returned (-1))

end Managers

end Graphize
