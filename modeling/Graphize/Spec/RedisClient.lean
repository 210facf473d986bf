import Graphize.Spec.ClusterNodes
import Graphize.Spec.ConnectPool
import Graphize.Spec.Redis
import Graphize.Lib.While
import Graphize.Lib.Table

/-!
# `RedisClient`: the topology and its refresh

`ChannelPool` maps keys to slots and slots to connection pools. A client has two of them:
`init_channel_pool` builds the one not in use from a `CLUSTER NODES` reply, and
`update_channel_pool` switches to it. Indices of nodes are unbounded integers; slots are
`uint32_t`, and the loop over a range takes fuel, since it does not end when the last slot
is `2^32 - 1`.
-/

namespace Graphize

open Table

universe u

/-- `ChannelPool::crc16tab`. -/
def crc16tab : List UInt16 := [
  0x0000,0x1021,0x2042,0x3063,0x4084,0x50a5,0x60c6,0x70e7,
  0x8108,0x9129,0xa14a,0xb16b,0xc18c,0xd1ad,0xe1ce,0xf1ef,
  0x1231,0x0210,0x3273,0x2252,0x52b5,0x4294,0x72f7,0x62d6,
  0x9339,0x8318,0xb37b,0xa35a,0xd3bd,0xc39c,0xf3ff,0xe3de,
  0x2462,0x3443,0x0420,0x1401,0x64e6,0x74c7,0x44a4,0x5485,
  0xa56a,0xb54b,0x8528,0x9509,0xe5ee,0xf5cf,0xc5ac,0xd58d,
  0x3653,0x2672,0x1611,0x0630,0x76d7,0x66f6,0x5695,0x46b4,
  0xb75b,0xa77a,0x9719,0x8738,0xf7df,0xe7fe,0xd79d,0xc7bc,
  0x48c4,0x58e5,0x6886,0x78a7,0x0840,0x1861,0x2802,0x3823,
  0xc9cc,0xd9ed,0xe98e,0xf9af,0x8948,0x9969,0xa90a,0xb92b,
  0x5af5,0x4ad4,0x7ab7,0x6a96,0x1a71,0x0a50,0x3a33,0x2a12,
  0xdbfd,0xcbdc,0xfbbf,0xeb9e,0x9b79,0x8b58,0xbb3b,0xab1a,
  0x6ca6,0x7c87,0x4ce4,0x5cc5,0x2c22,0x3c03,0x0c60,0x1c41,
  0xedae,0xfd8f,0xcdec,0xddcd,0xad2a,0xbd0b,0x8d68,0x9d49,
  0x7e97,0x6eb6,0x5ed5,0x4ef4,0x3e13,0x2e32,0x1e51,0x0e70,
  0xff9f,0xefbe,0xdfdd,0xcffc,0xbf1b,0xaf3a,0x9f59,0x8f78,
  0x9188,0x81a9,0xb1ca,0xa1eb,0xd10c,0xc12d,0xf14e,0xe16f,
  0x1080,0x00a1,0x30c2,0x20e3,0x5004,0x4025,0x7046,0x6067,
  0x83b9,0x9398,0xa3fb,0xb3da,0xc33d,0xd31c,0xe37f,0xf35e,
  0x02b1,0x1290,0x22f3,0x32d2,0x4235,0x5214,0x6277,0x7256,
  0xb5ea,0xa5cb,0x95a8,0x8589,0xf56e,0xe54f,0xd52c,0xc50d,
  0x34e2,0x24c3,0x14a0,0x0481,0x7466,0x6447,0x5424,0x4405,
  0xa7db,0xb7fa,0x8799,0x97b8,0xe75f,0xf77e,0xc71d,0xd73c,
  0x26d3,0x36f2,0x0691,0x16b0,0x6657,0x7676,0x4615,0x5634,
  0xd94c,0xc96d,0xf90e,0xe92f,0x99c8,0x89e9,0xb98a,0xa9ab,
  0x5844,0x4865,0x7806,0x6827,0x18c0,0x08e1,0x3882,0x28a3,
  0xcb7d,0xdb5c,0xeb3f,0xfb1e,0x8bf9,0x9bd8,0xabbb,0xbb9a,
  0x4a75,0x5a54,0x6a37,0x7a16,0x0af1,0x1ad0,0x2ab3,0x3a92,
  0xfd2e,0xed0f,0xdd6c,0xcd4d,0xbdaa,0xad8b,0x9de8,0x8dc9,
  0x7c26,0x6c07,0x5c64,0x4c45,0x3ca2,0x2c83,0x1ce0,0x0cc1,
  0xef1f,0xff3e,0xcf5d,0xdf7c,0xaf9b,0xbfba,0x8fd9,0x9ff8,
  0x6e17,0x7e36,0x4e55,0x5e74,0x2e93,0x3eb2,0x0ed1,0x1ef0]

/-- One round of `ChannelPool::crc16`: a `char` is signed, and the operands are promoted to
`int`. -/
def crc16Round (crc : UInt16) (c : UInt8) : UInt16 :=
  let index : UInt32 := ((crc >>> 8).toUInt32 ^^^ c.toInt8.toInt32.toUInt32) &&& 0x00FF
  ((crc.toUInt32 <<< 8) ^^^ (crc16tab.getD index.toNat 0).toUInt32).toUInt16

/-- `ChannelPool::crc16` of the `len` characters from `buf`. -/
def crc16 (buf : Bytes) (len : Int32) : UInt16 := (buf.take len.toNatClampNeg).foldl crc16Round 0

/-- `ChannelPool::GetKeySlot`, on a key that is not null. -/
def getKeySlot (key : Bytes) : UInt32 :=
  let len := key.length
  let s := key.findIdx fun c => c = '{'.toUInt8
  if s = len then (crc16 key (Int32.ofNat len) &&& 0x3FFF).toUInt32
  else
    let e := s + 1 + (key.drop (s + 1)).findIdx fun c => c = '}'.toUInt8
    if e = len ∨ e = s + 1 then (crc16 key (Int32.ofNat len) &&& 0x3FFF).toUInt32
    else (crc16 (key.drop (s + 1)) (Int32.ofNat (e - s - 1)) &&& 0x3FFF).toUInt32

/-- A `ConnectPool<brpc::Channel>` with the address bound into its builder. -/
structure HostPool (Conn : Type u) where
  ipPort : Str
  pool : ConnectPool Conn

/-- `class ChannelPool`. An element of `m_channel_list` may be a null pointer. -/
structure ChannelPool (Conn : Type u) where
  mChannelList : List (Option (HostPool Conn)) := []
  slotIpportIndexVec : List ℤ := []
  validLines : List Str := []

/-- `ChannelPool::GetKeyNodeIndex`. -/
def ChannelPool.getKeyNodeIndex {Conn : Type u} (pool : ChannelPool Conn) (key : Bytes) : ℕ :=
  match pool.slotIpportIndexVec[(getKeySlot key).toNat]? with
  | some targetIndex => if targetIndex = -1 then 0 else targetIndex.toNat
  | none => 0

/-- The pool that `ChannelPool::GetConnection` borrows from; none if there is no such place
or it holds a null pointer. -/
def ChannelPool.connectionHost {Conn : Type u} (pool : ChannelPool Conn) (idx : ℕ) : Option (HostPool Conn) :=
  pool.mChannelList[idx]?.join

/-- The locals of the loop over one range in `InitSlotNodeMap`. -/
structure SlotFill where
  start : UInt32
  vec : List ℤ

/-- The vector that one round writes to. The new size wraps in 32 bits. -/
def SlotFill.room (w : SlotFill) : List ℤ :=
  if w.start.toNat < w.vec.length then w.vec else resize (w.start + 1).toNat (-1) w.vec

/-- One round of `for (start = start_slot; start <= end_slot; ++start)`. A write beyond the
vector is lost here. -/
def SlotFill.body (i : ℕ) (endSlot : UInt32) (w : SlotFill) : Option SlotFill :=
  if w.start ≤ endSlot then some { start := w.start + 1, vec := w.room.set w.start.toNat i } else none

/-- The loop over the ranges of node `i`. -/
def fillNode (fuel : ℕ) (vec : List ℤ) (i : ℕ) (ranges : List (UInt32 × UInt32)) : Option (List ℤ) :=
  ranges.foldlM (fun vec r => (While.run (SlotFill.body i r.2) fuel ⟨r.1, vec⟩).map SlotFill.vec) vec

/-- `RedisClient::InitSlotNodeMap`. -/
def initSlotNodeMap (fuel : ℕ) (vec : List ℤ) (nodes : List NodeInfo) : Option (List ℤ) :=
  nodes.zipIdx.foldlM (fun vec (node, i) => fillNode fuel vec i node.mSlots) (resize 16384 (-1) vec)

/-- `class RedisClient`. -/
structure RedisClient (Conn : Type u) where
  channelPoolVec : Fin 2 → ChannelPool Conn := fun _ => {}
  poolIndex : Fin 2 := 0

/-- What a client is built with: `_pool_size`, and what `brpc::Channel::Init` makes of an
address at each call. -/
structure RedisClientEnv (Conn : Type u) where
  poolSize : Int32
  channel : Str → ℕ → Option Conn

/-- How `init_channel_pool` can end without returning. -/
inductive Escape
  /-- `throw "..."`, a `const char*`, which no handler for `std::exception` catches -/
  | thrown
  /-- an exception that leaves a `noexcept` constructor -/
  | terminate
  deriving DecidableEq, Repr

/-- What becomes of the request for `CLUSTER NODES`: `redis_channel.Init` fails, the rpc
fails, the reply is an error, or it is another reply, with its `data()` (empty for a reply
that is no string) and what an unset `port` of its nodes holds. -/
inductive NodesReply
  | initFailed
  | rpcFailed
  | error
  | text (data : Str) (unset : ℕ → UInt16)

namespace RedisClient

variable {Conn : Type u}

/-- `RedisClient::get_cur_channel_pool`. -/
def getCurChannelPool (c : RedisClient Conn) : ChannelPool Conn := c.channelPoolVec c.poolIndex

/-- Where `RedisClient::fetch` sends the key. -/
def fetchHost (c : RedisClient Conn) (key : Bytes) : Option (HostPool Conn) :=
  let channelPool := c.getCurChannelPool
  channelPool.connectionHost (channelPool.getKeyNodeIndex key)

/-- The keys that `RedisClient::multi_fetch` asks for. -/
def multiFetchKeys (data : List Bytes) (startIndex endIndex : ℕ) : List Bytes := (data.take endIndex).drop startIndex

/-- Where `RedisClient::multi_fetch` sends them: the first key decides. -/
def multiFetchHost (c : RedisClient Conn) (data : List Bytes) (startIndex : ℕ) : Option (HostPool Conn) :=
  let channelPool := c.getCurChannelPool
  match data[startIndex]? with
  | some key => channelPool.connectionHost (channelPool.getKeyNodeIndex key)
  | none => none

/-- `RedisClient::is_channel_pool_changed`. -/
def isChannelPoolChanged (c : RedisClient Conn) : Bool :=
  linesChanged (c.channelPoolVec 0).validLines (c.channelPoolVec 1).validLines

/-- `RedisClient::InitChannel`. The constructor of `ConnectPool` is `noexcept`. -/
def initChannel (env : RedisClientEnv Conn) (idx : ℕ) (host : Str) (port : UInt16)
    (mChannelList : List (Option (HostPool Conn))) : Except Escape (List (Option (HostPool Conn))) :=
  if host = [] then .ok mChannelList
  else
    let ipPort := host ++ ':' :: toDecimal port.toNat
    match ConnectPool.construct env.poolSize 100 (fun n => .ok (env.channel ipPort n)) with
    | none => .error .terminate
    | some pool => .ok (mChannelList.set idx (some ⟨ipPort, pool⟩))

/-- The address that `init_channel_pool` passes for node `i`. -/
def address (unset : ℕ → UInt16) (node : NodeInfo) (i : ℕ) : Str × UInt16 :=
  let port := node.port.getD (unset i)
  (if node.ip = [] ∧ port > 0 then "127.0.0.1".toList else node.ip, port)

/-- The last part of `init_channel_pool`: the slots and the channels of `vNodes`. -/
def build (fuel : ℕ) (env : RedisClientEnv Conn) (unset : ℕ → UInt16) (vNodes : List NodeInfo)
    (pool : ChannelPool Conn) : Option (Except Escape (ChannelPool Conn)) :=
  match initSlotNodeMap fuel pool.slotIpportIndexVec vNodes with
  | none => none
  | some vec =>
    some do
      let channels ← vNodes.zipIdx.foldlM (fun channels (node, i) =>
        initChannel env i (address unset node i).1 (address unset node i).2 channels)
        (resize vNodes.length none pool.mChannelList)
      pure { pool with slotIpportIndexVec := vec, mChannelList := channels }

/-- `RedisClient::init_channel_pool` on the pool at `k`. -/
def initChannelPool (fuel : ℕ) (env : RedisClientEnv Conn) (c : RedisClient Conn) (k : Fin 2) :
    NodesReply → Option (Except Escape (RedisClient Conn))
  | .initFailed => some (.error .thrown)
  | .rpcFailed => some (.ok c)
  | .error => some (.ok c)
  | .text data unset =>
    let pool := { c.channelPoolVec k with validLines := keptLines data }
    let c := { c with channelPoolVec := Function.update c.channelPoolVec k pool }
    if c.isChannelPoolChanged then
      match build fuel env unset (replyNodes data) pool with
      | none => none
      | some (.error e) => some (.error e)
      | some (.ok pool) => some (.ok { c with channelPoolVec := Function.update c.channelPoolVec k pool })
    else some (.ok c)

/-- The constructor of `RedisClient`, which is `noexcept`. -/
def construct (fuel : ℕ) (env : RedisClientEnv Conn) (reply : NodesReply) :
    Option (Except Escape (RedisClient Conn)) :=
  match initChannelPool fuel env {} 0 reply with
  | some (.error _) => some (.error .terminate)
  | r => r

/-- The pool at `bak_pool_index`, which is not in use. -/
def bak (c : RedisClient Conn) : ChannelPool Conn := c.channelPoolVec (1 - c.poolIndex)

/-- One round of the loop of `RedisClient::update_channel_pool`. A `const char*` passes both
handlers, which are for `std::exception`, and ends the program with its thread. -/
def updateChannelPool (fuel : ℕ) (env : RedisClientEnv Conn) (c : RedisClient Conn) (reply : NodesReply) :
    Option (Except Escape (RedisClient Conn)) :=
  let bakPoolIndex := 1 - c.poolIndex
  match initChannelPool fuel env c bakPoolIndex reply with
  | some (.ok c) => some (.ok (if c.isChannelPoolChanged then { c with poolIndex := bakPoolIndex } else c))
  | r => r

end RedisClient

end Graphize
