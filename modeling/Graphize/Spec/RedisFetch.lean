import Graphize.Spec.RedisClient

/-!
# Requests

`ChannelPool::GetConnection` and `FreeConnection`, and how `RedisClient::fetch` and
`multi_fetch` use them. An entry of `m_channel_list` that is a null pointer is used without
a test: the result `none` is that dereference, or another use of memory that is not there.
The request itself, and what its reply is used for, are left out.
-/

namespace Graphize

universe u

variable {Conn : Type u}

namespace ChannelPool

/-- `ChannelPool::GetConnection`: a connection that may be null, or the builder's exception. -/
def getConnection (pool : ChannelPool Conn) (idx : ℕ) : Option (Except Str (Option Conn) × ChannelPool Conn) :=
  match pool.mChannelList[idx]? with
  -- `idx >= m_channel_list.size()`
  | none => some (.ok none, pool)
  | some none => none
  | some (some host) =>
    let (result, p) := host.pool.borrow
    let pool := { pool with mChannelList := pool.mChannelList.set idx (some { host with pool := p }) }
    match result with
    | .ok (channel, _) => some (.ok channel, pool)
    | .error e => some (.error e, pool)

/-- `ChannelPool::FreeConnection`. -/
def freeConnection (pool : ChannelPool Conn) (channel : Option Conn) (index : ℕ) : Option (ChannelPool Conn) :=
  match pool.mChannelList[index]? with
  | some (some host) =>
    some { pool with mChannelList := pool.mChannelList.set index (some { host with pool := (host.pool.release channel).2 }) }
  | _ => none

end ChannelPool

namespace RedisClient

/-- The client with the pool in use replaced. -/
def setCurChannelPool (c : RedisClient Conn) (pool : ChannelPool Conn) : RedisClient Conn :=
  { c with channelPoolVec := Function.update c.channelPoolVec c.poolIndex pool }

/-- What `fetch` and `multi_fetch` do for the key that decides the node: -1 without a
connection, and otherwise the call is started and the connection given back. -/
def request (c : RedisClient Conn) (key : Bytes) : Option (Except Str Int32 × RedisClient Conn) :=
  let channelPool := c.getCurChannelPool
  let index := channelPool.getKeyNodeIndex key
  match channelPool.getConnection index with
  | none => none
  | some (.error e, pool) => some (.error e, c.setCurChannelPool pool)
  | some (.ok none, pool) => some (.ok (-1), c.setCurChannelPool pool)
  | some (.ok (some channel), pool) =>
    match pool.freeConnection (some channel) index with
    | none => none
    | some pool => some (.ok 0, c.setCurChannelPool pool)

/-- `RedisClient::fetch`. -/
def fetch (c : RedisClient Conn) (key : Bytes) : Option (Except Str Int32 × RedisClient Conn) := c.request key

/-- `RedisClient::multi_fetch`, of the keys from `startIndex` to before `endIndex`. -/
def multiFetch (c : RedisClient Conn) (data : List Bytes) (startIndex endIndex : ℕ) :
    Option (Except Str Int32 × RedisClient Conn) :=
  -- `parts` has no place for `MGET`
  if min endIndex data.length < startIndex then none
  else
    match data[startIndex]? with
    | some key => c.request key
    | none => none

end RedisClient

end Graphize
