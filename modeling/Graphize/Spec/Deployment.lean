import Graphize.Spec.RedisRun
import Graphize.Spec.RedisFetch
import Graphize.Spec.MultiGet

/-!
# A service, its clients and their servers

`Spec/RedisRun` leaves open what becomes of a batch. Here a request sends its batches with
the clients of `RedisClientManager`: a round of the loop of `do_service` calls `fetch` or
`multi_fetch` on the client as it is then, the command is read from where it has been laid
out, and the server at the address of the pool answers it. Between the steps of the request
others use the same clients, and `update_channel_pool` refreshes them; the line that starts
its thread is commented out, so a run of the program as it is has no such turn.
-/

namespace Graphize

universe u

/-- What surrounds a process with one service. -/
structure DeploymentEnv (ρ : Type*) (Conn : Type u) where
  service : RedisEnv ρ
  client : RedisClientEnv Conn
  /-- of the loops over slots -/
  fuel : ℕ
  /-- whether `k` shares the buffer of `data[i]` in `multi_fetch` -/
  shares : ℕ → Bool
  /-- what the server at an address answers to a command -/
  serve : Str → List Bytes → RpcReply

/-- A request at a service, and the clients by their names. -/
structure Deployment (Conn : Type u) where
  clients : Str → Option (RedisClient Conn)
  serving : Serving

/-- What happens next: thread `t` of the request goes on, somebody else sends a key with a
client, or a client has got a reply to `CLUSTER NODES`. -/
inductive DeploymentTurn
  | thread (t : ℕ)
  | use (id : Str) (key : Bytes)
  | refresh (id : Str) (reply : NodesReply)

/-- What is recorded of a batch. -/
def Backend.record (b : Backend) (j i : ℕ) (accepted : Bool) (reply : RpcReply) : Backend where
  accepts j' i' := if j' = j ∧ i' = i then accepted else b.accepts j' i'
  reply j' i' := if j' = j ∧ i' = i then reply else b.reply j' i'

/-- The same request with another backend. -/
@[simps]
def Serving.setBackend (s : Serving) (b : Backend) : Serving :=
  { s with request := { s.request with backend := b } }

/-- The batch that thread `t` is about to send: its place, `step` and its fetch info. -/
def Serving.nextIssue (s : Serving) (t : ℕ) : Option (ℕ × ℕ × ℕ × FetchInfo) :=
  match s.request.threads[t]? with
  | some (.issue j i step :: _) =>
    match s.node.fetchInfoVec[j]? with
    | some fetchInfo => if i < fetchInfo.keys.length then some (j, i, step, fetchInfo) else none
    | none => none
  | _ => none

section

variable {ρ : Type*} {Conn : Type u} (env : DeploymentEnv ρ Conn)

/-- What `AddCommandByComponents` reads for the batch at `i`. -/
def commandOf (keys : List Bytes) (i step : ℕ) : Option (List Bytes) :=
  if env.service.enableMultiGet then
    (multiFetchParts env.shares (keys.length + 1) keys i (i + step : ℕ)).bind Filling.components
  else keys[i]?.map fun key => [ascii "GET".toList, key]

/-- The call for the batch at `i`. -/
def callOf (c : RedisClient Conn) (keys : List Bytes) (i step : ℕ) : Option (Except Str Int32 × RedisClient Conn) :=
  if env.service.enableMultiGet then c.multiFetch keys i (i + step)
  else keys[i]?.bind fun key => c.fetch key

/-- Where it goes. -/
def hostOf (c : RedisClient Conn) (keys : List Bytes) (i : ℕ) : Option (HostPool Conn) :=
  if env.service.enableMultiGet then c.multiFetchHost keys i
  else keys[i]?.bind fun key => c.fetchHost key

/-- `fetch` or `multi_fetch` for the batch at `i`: whether it is accepted, what its callback
will be given, and the client afterwards; or how it ends the process. Every use of memory
that is not there is `fault nullDeref`. -/
def sendBatch (c : RedisClient Conn) (keys : List Bytes) (i step : ℕ) :
    Except Crash (Bool × RpcReply × RedisClient Conn) :=
  match commandOf env keys i step, callOf env c keys i step with
  | some command, some (.ok ret, c') =>
    .ok (ret ≠ -1, ((hostOf env c keys i).map fun host => env.serve host.ipPort command).getD {}, c')
  | some _, some (.error _, _) => .error .uncaught
  | _, _ => .error (.fault .nullDeref)

namespace Deployment

variable (d : Deployment Conn)

def setClient (id : Str) (c : RedisClient Conn) : Deployment Conn :=
  { d with clients := Function.update d.clients id (some c) }

def crashed (crash : Crash) : Deployment Conn :=
  { d with serving := { d.serving with request := { d.serving.request with crash := some crash } } }

/-- A round of the loop over the batches. The client has been found before the loop. -/
def issue (t j i step : ℕ) (fetchInfo : FetchInfo) : Option (Deployment Conn) :=
  match d.clients fetchInfo.redisClientId with
  | none => some (d.crashed (.fault .nullDeref))
  | some c =>
    match sendBatch env c fetchInfo.keys i step with
    | .error crash => some (d.crashed crash)
    | .ok (accepted, reply, c') =>
      ((d.serving.setBackend (d.serving.request.backend.record j i accepted reply)).step env.service t).map fun s =>
        { d.setClient fetchInfo.redisClientId c' with serving := s }

def step : DeploymentTurn → Option (Deployment Conn)
  | .thread t =>
    if d.serving.request.crash.isSome then none
    else
      match d.serving.nextIssue t with
      | some (j, i, step, fetchInfo) => d.issue env t j i step fetchInfo
      | none => (d.serving.step env.service t).map fun s => { d with serving := s }
  | .use id key =>
    if d.serving.request.crash.isSome then none
    else
      match d.clients id with
      | none => none
      | some c =>
        match c.request key with
        | some (_, c') => some (d.setClient id c')
        | none => some (d.crashed (.fault .nullDeref))
  | .refresh id reply =>
    if d.serving.request.crash.isSome then none
    else
      match d.clients id with
      | none => none
      | some c =>
        match c.updateChannelPool env.fuel env.client reply with
        | some (.ok c') => some (d.setClient id c')
        | some (.error _) => some (d.crashed .uncaught)
        -- a loop over slots that does not end
        | none => none

end Deployment

end

end Graphize
