import Graphize.Spec.Node
import Graphize.Lib.Numbering

/-!
# `RedisService`: keys, cache and replies

The functions of `redis_service.cpp` that do not wait for anything:
`make_up_fetch_info_vec` and `get_from_cache` before the rpcs, and
`check_suc_rpc_response` on each reply. Iterating an `unordered_map` follows an
arbitrary order that the environment chooses. Times and logged texts are left out.
-/

namespace Graphize

/-- `std::string` holding data. -/
abbrev Bytes := List UInt8

/-- The bytes of an ASCII text. -/
def ascii (s : Str) : Bytes := s.map fun c => UInt8.ofNat c.toNat

/-- `struct FetchInfo`. -/
structure FetchInfo where
  keyPrefix : Str := []
  keyPostfix : Str := []
  compress : Str := []
  keyGenFunc : Str := []
  redisClientId : Str := []
  key : Str := []
  responseFunc : Str := []
  useCache : Bool := false
  expireTime : ℤ := 0
  keys : List Bytes := []
  id : Str := []
  deriving DecidableEq, Repr

/-- `class CacheDataItem`. The fetch info is given by its place in `fetch_info_vec`. A hit is
a pointer into the cache with a length, and is given here by the bytes it points to, which
are those it has found as long as the value is not recycled. -/
structure CacheDataItem where
  dataMap : List (Bytes × Bytes)
  fetchInfoPtr : ℕ
  deriving DecidableEq, Repr

/-- The codes of `RedisResultItem`. -/
inductive ItemCode
  | success
  | rpcFailed
  | otherError
  deriving DecidableEq, Repr

/-- `class RedisResultItem`. A null `const char*` is `none`. -/
structure RedisResultItem where
  fetchInfoPtr : Option ℕ := none
  resultStrVec : List (Option Bytes) := []
  resultStrLenVec : List ℕ := []
  totalResultStrSize : ℕ := 0
  startIndex : ℕ := 0
  mGetSize : ℤ := 0
  code : ItemCode := .otherError
  errorMsg : Bytes := []
  resultGuard : Bool := false
  deriving DecidableEq, Repr

/-- `brpc::RedisReply`. The elements of an array are strings or nil. -/
inductive RedisReply
  | nil
  | str (data : Bytes)
  | error (message : Bytes)
  | integer (value : ℤ)
  | array (elements : List (Option Bytes))
  deriving DecidableEq, Repr

/-- What the callback of a batch is given. `response` is `none` for a null message. -/
structure RpcReply where
  failed : Bool := false
  errorText : Bytes := []
  response : Option (List RedisReply) := none
  deriving DecidableEq, Repr

/-- The arguments of a call of a parse function. -/
structure ParseCall where
  key : Bytes
  value : Option Bytes
  sliceIndex : ℕ
  sliceSize : ℕ
  fetchInfo : ℕ
  isCached : Bool
  deriving DecidableEq, Repr

/-- What happens in a request. `parse` and `cacheSet` also say which element of which
batch the value comes from: the fetch info and the first index of the batch, and the
place in its reply. -/
inductive RedisEvent
  | issue (j i : ℕ) (keys : List Bytes) (accepted : Bool)
  | called (j i : ℕ)
  | parse (call : ParseCall) (element : Option (ℕ × ℕ))
  | cacheSet (key value : Bytes) (j i k : ℕ)
  | merged
  | mergeFailed
  | process
  | output
  deriving DecidableEq, Repr

/-- What surrounds a `RedisService` node: its settings, the functions registered with
it, the redis clients, and the library's choices. The `throws` functions say at which
calls the user's functions throw, given what has happened before. -/
structure RedisEnv (ρ : Type*) where
  keyFuncMap : Str → Option (ρ → List Bytes → Str → Str → List Bytes)
  hasClient : Str → Bool
  slot : Bytes → ℕ
  slotOrder : List ℕ → List ℕ
  slotOrder_perm : ∀ l, (slotOrder l).Perm l
  dataOrder : List (Bytes × Bytes) → List (Bytes × Bytes)
  dataOrder_perm : ∀ l, (dataOrder l).Perm l
  resultOrder : List ℕ → List ℕ
  resultOrder_perm : ∀ l, (resultOrder l).Perm l
  uncompress : Bytes → Bytes
  enableParalParse : Bool
  enableMultiGet : Bool
  batchSize : ℕ
  parseThrows : List RedisEvent → ParseCall → Bool
  processThrows : List RedisEvent → Bool

/-- The process-wide cache, as `CacheManager` shows it. -/
abbrev Cache := Bytes → Option Bytes

/-- `CacheManager::Get`. -/
def Cache.get (c : Cache) (key : Bytes) : Option Bytes := if key = [] then none else c key

/-- `CacheManager::Set`. -/
def Cache.set (c : Cache) (key value : Bytes) (expiredTime : ℤ) : Cache :=
  if key = [] ∨ value = [] ∨ expiredTime ≤ 0 then c else Function.update c key (some value)

/-- `" "`, which stands for nil in the cache. -/
def blank : Bytes := [32]

/-- `data_map[key] = value`. -/
def dataMapSet (m : List (Bytes × Bytes)) (key value : Bytes) : List (Bytes × Bytes) :=
  if (m.lookup key).isSome then m.map fun e => if e.1 = key then (key, value) else e
  else m ++ [(key, value)]

/-- The body of the loop of `get_from_cache`, on the missed keys and `data_map`. -/
def getFromCacheStep (c : Cache) (s : List Bytes × List (Bytes × Bytes)) (key : Bytes) :
    List Bytes × List (Bytes × Bytes) :=
  match c.get key with
  | some value => (s.1, dataMapSet s.2 key (if value = blank then [] else value))
  | none => (s.1 ++ [key], s.2)

/-- `RedisService::get_from_cache`: the missed keys and what it adds to `cache_data_vec`. -/
def getFromCache (c : Cache) (keys : List Bytes) (fetchInfoPtr : ℕ) : List Bytes × List CacheDataItem :=
  let (missKeys, dataMap) := keys.foldl (getFromCacheStep c) ([], [])
  (missKeys, if dataMap = [] then [] else [⟨dataMap, fetchInfoPtr⟩])

section MakeUp

variable {ρ : Type*} (env : RedisEnv ρ) (c : Cache) (req : ρ)

/-- The slots of `keys`, in the order in which `slot_keys_map` is iterated. -/
def slotsOf (keys : List Bytes) : List ℕ := env.slotOrder (Numbering.firsts (keys.map env.slot))

/-- The keys of one slot, in their order. -/
def slotKeys (keys : List Bytes) (s : ℕ) : List Bytes := keys.filter fun k => env.slot k = s

/-- The end of the body of the first loop of `make_up_fetch_info_vec`: the keys of one
slot stay in the fetch info, the others go to new ones. -/
def groupBySlot (fetchInfo : FetchInfo) (keys : List Bytes) : FetchInfo × List FetchInfo :=
  if env.hasClient fetchInfo.redisClientId then
    match slotsOf env keys with
    | [] => ({ fetchInfo with keys := keys }, [])
    | s :: rest =>
      ({ fetchInfo with keys := slotKeys env keys s },
        rest.map fun s => { fetchInfo with keys := slotKeys env keys s, id := [] })
  else ({ fetchInfo with keys := keys }, [])

/-- The body of the first loop of `make_up_fetch_info_vec`, on the fetch info at place
`i`: what it becomes, the fetch infos it adds, and the cache hits. -/
def makeUpFetchInfo (i : ℕ) (fetchInfo : FetchInfo) :
    FetchInfo × List FetchInfo × List CacheDataItem :=
  match env.keyFuncMap fetchInfo.keyGenFunc with
  | none => (fetchInfo, [], [])
  | some keyFunc =>
    let keys := keyFunc req fetchInfo.keys fetchInfo.keyPrefix fetchInfo.keyPostfix
    if keys = [] then ({ fetchInfo with keys := [] }, [], [])
    else
      let (keys, cacheData) := if fetchInfo.useCache then getFromCache c keys i else (keys, [])
      if keys = [] then ({ fetchInfo with keys := [] }, [], cacheData)
      else
        let (fetchInfo, add) := groupBySlot env fetchInfo keys
        (fetchInfo, add, cacheData)

/-- `std::to_string`. -/
def toStr (n : ℕ) : Str := (Nat.repr n).toList

/-- `RedisService::make_up_fetch_info_vec`: the node's fetch infos afterwards and the
`cache_data_vec` of the request. -/
def makeUpFetchInfoVec (fetchInfoVec : List FetchInfo) : List FetchInfo × List CacheDataItem :=
  let made := fetchInfoVec.zipIdx.map fun e => makeUpFetchInfo env c req e.2 e.1
  let vec := made.map (fun e => e.1) ++ made.flatMap fun e => e.2.1
  (vec.zipIdx.map fun e => { e.1 with id := toStr e.2 }, made.flatMap fun e => e.2.2)

end MakeUp

/-! ## Replies -/

/-- The tail of every error text of `check_suc_rpc_response`. -/
def errorTail (clientId : Str) (errorText : Bytes) : Bytes :=
  ascii " redis_id: ".toList ++ ascii clientId ++ ascii " error_msg: ".toList ++ errorText

/-- The body of the loop over an MGET array. -/
def RedisResultItem.push (item : RedisResultItem) : Option Bytes → RedisResultItem
  | some data => { item with
      resultStrVec := item.resultStrVec ++ [some data]
      resultStrLenVec := item.resultStrLenVec ++ [data.length]
      totalResultStrSize := item.totalResultStrSize + data.length }
  | none => { item with
      resultStrVec := item.resultStrVec ++ [none]
      resultStrLenVec := item.resultStrLenVec ++ [0] }

/-- `RedisService::check_suc_rpc_response`. An empty response is dereferenced after it
has been reset. -/
def checkSucRpcResponse (rpc : RpcReply) (redisClientId : Str) (key : Bytes) (item : RedisResultItem) :
    Except Fault RedisResultItem :=
  match rpc.response with
  | none => .ok { item with
      errorMsg := ascii "response is nullptr or dynamic_pointer_cast failed, key:".toList ++ key ++
        errorTail redisClientId rpc.errorText
      code := .otherError }
  | some [] => .error .nullDeref
  | some (.nil :: _) => .ok { item with
      errorMsg := ascii " reply is nil; key:".toList ++ key ++ errorTail redisClientId rpc.errorText
      code := .success
      resultStrVec := item.resultStrVec ++ [none]
      resultStrLenVec := item.resultStrLenVec ++ [0] }
  | some (.str data :: _) => .ok { item.push (some data) with code := .success, resultGuard := true }
  | some (.array elements :: _) =>
    .ok { elements.foldl RedisResultItem.push item with code := .success, resultGuard := true }
  | some (.error message :: _) => .ok { item with
      errorMsg := ascii " reply is not a string or array; key:".toList ++ key ++
        errorTail redisClientId rpc.errorText ++ ascii " error_message: ".toList ++ message
      code := .otherError }
  | some (.integer _ :: _) => .ok { item with
      errorMsg := ascii " reply is not a string or array; key:".toList ++ key ++
        errorTail redisClientId rpc.errorText ++ ascii " error_message: ".toList
      code := .otherError }

end Graphize
