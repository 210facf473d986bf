import Graphize.Spec.Redis
import Graphize.Lib.Machine
import Mathlib.Tactic.Simps.Basic

/-!
# `RedisService::do_service` and its callbacks

One request at a `RedisService` node, as threads that a scheduler interleaves: thread
`0` is `do_service` after `make_up_fetch_info_vec`, every accepted batch adds the thread
of its callback. A thread is the list of what it still has to do; a step executes the
first operation of one thread. The points between operations are those where another
thread can be seen: the atomic counters, the promise, each batch, `process_response`.

`result_map` is a list: its keys are the ids, and `make_up_fetch_info_vec` has made the
id of a fetch info its place. A batch is identified with the range of keys it is asked
for; how `multi_fetch` lays them out in memory is in `Spec/MultiGet`.
-/

namespace Graphize

inductive Op
  /-- The body of the loop over `fetch_info_vec`. -/
  | fetchInfo (j : ℕ)
  /-- One round of the loop over the batches of a fetch info. -/
  | issue (j i step : ℕ)
  /-- The callback of a batch, up to `deep_cond_finish_func`. -/
  | callback (j i step : ℕ) (key : Bytes)
  /-- The end of the callback's `try` block. -/
  | endTry (j : ℕ)
  /-- `item_size_cond->fetch_sub(1)`. -/
  | itemDone (j : ℕ) (sendRpc : Bool)
  /-- `cond->fetch_sub(1)`. -/
  | condDone (sendRpc : Bool)
  | mergeCacheData
  | parseCachedData
  /-- `cache_data_promise_ptr->get_future().get()`. -/
  | wait
  | processResponse
  | runOutputNodes
  /-- The test before the last statement of `do_service`. -/
  | cachedTail
  deriving DecidableEq, Repr

/-- What the client and the servers do with the batches of one request: whether the batch
of fetch info `j` that starts at `i` is accepted, and what its callback is given. -/
structure Backend where
  accepts : ℕ → ℕ → Bool
  reply : ℕ → ℕ → RpcReply

/-- How the process ends early. -/
inductive Crash
  | fault (f : Fault)
  | uncaught
  deriving DecidableEq, Repr

/-- The members of a `RedisService` node that requests change, and the cache. -/
structure RedisNode where
  fetchInfoVec : List FetchInfo
  cache : Cache

/-- One request. `promise` is `none` for the null pointer, else whether it has been set. -/
structure Request where
  backend : Backend
  cacheDataVec : List CacheDataItem
  promise : Option Bool
  resultMap : List (List RedisResultItem)
  cond : ℤ
  itemSizeCond : ℕ → ℤ
  threads : List (List Op)
  log : List RedisEvent
  crash : Option Crash

/-- A request and the node it is served by. -/
structure Serving where
  node : RedisNode
  request : Request

/-- How an operation ends: with operations put before the rest of its thread, with a
`std::exception`, or with undefined behaviour. -/
inductive Outcome
  | next (s : Serving) (push : List Op)
  | throw (s : Serving)
  | fault (s : Serving) (f : Fault)

namespace Serving

@[simps]
def addLog (s : Serving) (evs : List RedisEvent) : Serving :=
  { s with request := { s.request with log := s.request.log ++ evs } }

@[simps]
def setLog (s : Serving) (log : List RedisEvent) : Serving := { s with request := { s.request with log := log } }

@[simps]
def setThread (s : Serving) (t : ℕ) (ops : List Op) : Serving :=
  { s with request := { s.request with threads := s.request.threads.set t ops } }

@[simps]
def setCache (s : Serving) (c : Cache) : Serving := { s with node := { s.node with cache := c } }

/-- `cache_data_vec.clear()` and `set_value(true)`. -/
@[simps]
def cachedDone (s : Serving) : Serving :=
  { s with request := { s.request with cacheDataVec := [], promise := some true } }

@[simps]
def setCond (s : Serving) (c : ℤ) : Serving := { s with request := { s.request with cond := c } }

@[simps]
def addThread (s : Serving) (ops : List Op) : Serving :=
  { s with request := { s.request with threads := s.request.threads ++ [ops] } }

@[simps]
def setItems (s : Serving) (j : ℕ) (items : List RedisResultItem) : Serving :=
  { s with request := { s.request with resultMap := s.request.resultMap.set j items } }

@[simps]
def setItemSizeCond (s : Serving) (j : ℕ) (n : ℤ) : Serving :=
  { s with request := { s.request with itemSizeCond := Function.update s.request.itemSizeCond j n } }

end Serving

/-! ## Batches -/

/-- `batch_count`. -/
def batchCount (n batchSize : ℕ) : ℕ := if n % batchSize ≠ 0 then n / batchSize + 1 else n / batchSize

/-- `step`. -/
def stepOf (n batchCount : ℕ) : ℕ := if n % batchCount ≠ 0 then n / batchCount + 1 else n / batchCount

section Exec

variable {ρ : Type*} (env : RedisEnv ρ)

/-- The operations after the `fetch_sub` that finds `old == 1`. -/
def finishOps (promise : Option Bool) (sendRpc : Bool) : List Op :=
  [.mergeCacheData] ++
    (if promise.isSome then (if sendRpc then [] else [.parseCachedData]) ++ [.wait] else []) ++
    [.processResponse, .runOutputNodes]

/-- The body of the loop over `fetch_info_vec`, up to the loop over the batches. -/
def execFetchInfo (s : Serving) (j : ℕ) : Outcome :=
  match s.node.fetchInfoVec[j]? with
  | none => .fault s .outOfRange
  | some fetchInfo =>
    let n := fetchInfo.keys.length
    if env.hasClient fetchInfo.redisClientId = false then .next s [.condDone false]
    else if n = 0 then .next s [.condDone false]
    else if env.enableMultiGet then
      if env.batchSize = 0 then .fault s .divByZero
      else
        let c := batchCount n env.batchSize
        .next ((s.setItemSizeCond j c).setItems j (List.replicate c {})) [.issue j 0 (stepOf n c)]
    else .next ((s.setItemSizeCond j n).setItems j (List.replicate n {})) [.issue j 0 1]

/-- One round of the loop over the batches: `fetch` or `multi_fetch`. -/
def execIssue (s : Serving) (j i step : ℕ) : Outcome :=
  match s.node.fetchInfoVec[j]? with
  | none => .fault s .outOfRange
  | some fetchInfo =>
    match fetchInfo.keys[i]? with
    | none => .next s []
    | some key =>
      let accepted := s.request.backend.accepts j i
      let s := s.addLog [.issue j i ((fetchInfo.keys.drop i).take step) accepted]
      if accepted then
        .next (s.addThread [.callback j i step key, .itemDone j true, .endTry j]) [.issue j (i + step) step]
      else .next s [.itemDone j false, .issue j (i + step) step]

/-- The value that a parse function is given. -/
def parseValue (fetchInfo : FetchInfo) (value : Option Bytes) : Option Bytes :=
  if fetchInfo.compress = "snappy".toList then some (env.uncompress (value.getD [])) else value

/-- The loop of `parse_redis_response` from element `k` on: the log afterwards, and
whether it ended with an exception. -/
def parseLoop (fetchInfo : FetchInfo) (j start sliceIndex sliceSize : ℕ) :
    List (Option Bytes) → ℕ → List RedisEvent → List RedisEvent × Bool
  | [], _, log => (log, false)
  | value :: rest, k, log =>
    -- `keys.at`
    match fetchInfo.keys[start + k]? with
    | none => (log, true)
    | some key =>
      let call : ParseCall := ⟨key, parseValue env fetchInfo value, sliceIndex, sliceSize, j, false⟩
      if env.parseThrows log call then (log ++ [.parse call (some (start, k))], true)
      else parseLoop fetchInfo j start sliceIndex sliceSize rest (k + 1)
        (log ++ [.parse call (some (start, k))])

/-- `RedisService::parse_redis_response`. -/
def parseRedisResponse (fetchInfo : FetchInfo) (j sliceIndex sliceSize : ℕ) (item : RedisResultItem)
    (log : List RedisEvent) : List RedisEvent × Bool :=
  parseLoop env fetchInfo j item.startIndex sliceIndex sliceSize item.resultStrVec 0 log

/-- What the callback of a batch makes of its result item. -/
def fillItem (fetchInfo : FetchInfo) (j i step : ℕ) (key : Bytes) (rpc : RpcReply) (item : RedisResultItem) :
    Except Fault RedisResultItem :=
  let item := { item with
    fetchInfoPtr := some j
    mGetSize := (min (i + step) fetchInfo.keys.length : ℤ) - i
    startIndex := i }
  if rpc.failed then Except.ok { item with
    errorMsg := ascii " key:".toList ++ key ++ ascii "redis_id: ".toList ++
      ascii fetchInfo.redisClientId ++ ascii " error_msg: ".toList ++ rpc.errorText
    code := ItemCode.rpcFailed }
  else checkSucRpcResponse rpc fetchInfo.redisClientId key item

/-- The callback of a batch, up to `deep_cond_finish_func(true)`. -/
def execCallback (s : Serving) (j i step : ℕ) (key : Bytes) : Outcome :=
  let s := s.addLog [.called j i]
  match s.node.fetchInfoVec[j]?, s.request.resultMap[j]? with
  | some fetchInfo, some items =>
    match items[i / step]? with
    | none => .throw s
    | some item =>
      match fillItem fetchInfo j i step key (s.request.backend.reply j i) item with
      | .error f => .fault s f
      | .ok item =>
        let s := s.setItems j (items.set (i / step) item)
        if env.enableParalParse then
          let (log, threw) := parseRedisResponse env fetchInfo j (i / step) items.length item s.request.log
          let s := s.setLog log
          if threw then .throw s else .next s []
        else .next s []
  | _, _ => .fault s .outOfRange

/-! ## The finishing step -/

/-- How a loop of `merge_cache_data` ends. -/
inductive MergeEnd
  | ok
  | throw
  | nullDeref
  deriving DecidableEq, Repr

/-- The value that is cached, nil as `" "`. -/
def cacheValue : Option Bytes → ℕ → Bytes
  | none, _ => blank
  | some data, len => data.take len

/-- The loop of `merge_cache_data` over the values of one item, from `k` on. -/
def mergeValues (infos : List FetchInfo) (expireTime : ℤ) (item : RedisResultItem) :
    List (Option Bytes) → ℕ → Cache × List RedisEvent → (Cache × List RedisEvent) × MergeEnd
  | [], _, s => (s, .ok)
  | value :: rest, k, s =>
    match item.resultStrLenVec[k]? with
    | none => mergeValues infos expireTime item rest (k + 1) s
    | some len =>
      match item.fetchInfoPtr with
      | none => (s, .nullDeref)
      | some j =>
        match (infos[j]?.bind fun fetchInfo => fetchInfo.keys[item.startIndex + k]?) with
        | none => (s, .throw)
        | some key =>
          let value := cacheValue value len
          mergeValues infos expireTime item rest (k + 1)
            (s.1.set key value expireTime, s.2 ++ [.cacheSet key value j item.startIndex k])

/-- The loop of `merge_cache_data` over the items of one fetch info. -/
def mergeItems (infos : List FetchInfo) (expireTime : ℤ) :
    List RedisResultItem → Cache × List RedisEvent → (Cache × List RedisEvent) × MergeEnd
  | [], s => (s, .ok)
  | item :: rest, s =>
    match mergeValues infos expireTime item item.resultStrVec 0 s with
    | (s, .ok) => mergeItems infos expireTime rest s
    | r => r

/-- The loop of `merge_cache_data` over `result_map`. The settings are read through the
first item of each fetch info. -/
def mergeMap (infos : List FetchInfo) (resultMap : List (List RedisResultItem)) :
    List ℕ → Cache × List RedisEvent → (Cache × List RedisEvent) × MergeEnd
  | [], s => (s, .ok)
  | p :: rest, s =>
    match resultMap[p]? with
    | none => mergeMap infos resultMap rest s
    | some [] => mergeMap infos resultMap rest s
    | some (first :: items) =>
      match first.fetchInfoPtr.bind fun j => infos[j]? with
      | none => (s, .nullDeref)
      | some fetchInfo =>
        if fetchInfo.useCache then
          match mergeItems infos fetchInfo.expireTime (first :: items) s with
          | (s, .ok) => mergeMap infos resultMap rest s
          | r => r
        else mergeMap infos resultMap rest s

/-- `RedisResult::merge_cache_data`. -/
def execMerge (s : Serving) : Outcome :=
  let ((cache, log), e) := mergeMap s.node.fetchInfoVec s.request.resultMap
    (env.resultOrder (List.range s.request.resultMap.length)) (s.node.cache, s.request.log)
  let s := (s.setCache cache).setLog log
  match e with
  | .ok => .next (s.addLog [.merged]) []
  | .throw => .throw (s.addLog [.mergeFailed])
  | .nullDeref => .fault (s.addLog [.mergeFailed]) .nullDeref

/-- The calls that `parse_cached_data` makes. -/
def cachedCalls (infos : List FetchInfo) (cacheDataVec : List CacheDataItem) : List ParseCall :=
  cacheDataVec.flatMap fun item =>
    match infos[item.fetchInfoPtr]? with
    | none => []
    | some fetchInfo =>
      if fetchInfo.useCache then
        (env.dataOrder item.dataMap).map fun e =>
          ⟨e.1, parseValue env fetchInfo (some e.2), 0, 1, item.fetchInfoPtr, true⟩
      else []

/-- Calls made one after the other until one throws. -/
def callAll : List ParseCall → List RedisEvent → List RedisEvent × Bool
  | [], log => (log, false)
  | call :: rest, log =>
    if env.parseThrows log call then (log ++ [.parse call none], true)
    else callAll rest (log ++ [.parse call none])

/-- `RedisService::parse_cached_data`. -/
def execParseCached (s : Serving) : Outcome :=
  let (log, threw) := callAll env (cachedCalls env s.node.fetchInfoVec s.request.cacheDataVec) s.request.log
  let s := s.setLog log
  if threw then .throw s
  else
    match s.request.promise with
    | none => .fault s .nullDeref
    | some _ => .next s.cachedDone []

/-- One operation. -/
def Op.exec (s : Serving) : Op → Outcome
  | .fetchInfo j => execFetchInfo env s j
  | .issue j i step => execIssue s j i step
  | .callback j i step key => execCallback env s j i step key
  | .endTry _ => .next s []
  | .itemDone j sendRpc =>
    .next (s.setItemSizeCond j (s.request.itemSizeCond j - 1))
      (if s.request.itemSizeCond j = 1 then [.condDone sendRpc] else [])
  | .condDone sendRpc =>
    .next (s.setCond (s.request.cond - 1))
      (if s.request.cond = 1 then finishOps s.request.promise sendRpc else [])
  | .mergeCacheData => execMerge env s
  | .parseCachedData => execParseCached env s
  | .wait => .next s []
  | .processResponse =>
    if env.processThrows s.request.log then .throw (s.addLog [.process]) else .next (s.addLog [.process]) []
  | .runOutputNodes => .next (s.addLog [.output]) []
  | .cachedTail => .next s (if s.request.cacheDataVec = [] then [] else [.parseCachedData])

/-- What an exception leaves of its thread: the handler of the callback calls
`deep_cond_finish_func` again. -/
def unwind : List Op → Option (List Op)
  | [] => none
  | .endTry j :: ops => some (.itemDone j true :: ops)
  | _ :: ops => unwind ops

/-- The end of an operation of thread `t` whose further operations are `ops`. -/
def Outcome.finish (t : ℕ) (ops : List Op) : Outcome → Serving
  | .next s push => s.setThread t (push ++ ops)
  | .throw s =>
    match unwind ops with
    | some ops => s.setThread t ops
    | none => { s with request := { s.request with crash := some .uncaught } }
  | .fault s f => { s with request := { s.request with crash := some (.fault f) } }

/-- The scheduler runs the next operation of thread `t`. -/
def Serving.step (s : Serving) (t : ℕ) : Option Serving :=
  if s.request.crash.isSome then none
  else
    match s.request.threads[t]? with
    | none => none
    | some [] => none
    | some (op :: ops) =>
      if op = .wait ∧ s.request.promise = some false then none
      else some ((op.exec env s).finish t ops)

/-- `RedisService::do_service` up to its loop over `fetch_info_vec`. -/
def RedisNode.doService (node : RedisNode) (req : ρ) (backend : Backend) : Serving :=
  if node.fetchInfoVec = [] then
    ⟨node, { backend := backend, cacheDataVec := [], promise := none, resultMap := [], cond := 0,
             itemSizeCond := fun _ => 0, threads := [[.mergeCacheData, .processResponse, .runOutputNodes]],
             log := [], crash := none }⟩
  else
    let (vec, cacheDataVec) := makeUpFetchInfoVec env node.cache req node.fetchInfoVec
    ⟨{ node with fetchInfoVec := vec },
     { backend := backend, cacheDataVec := cacheDataVec
       promise := if cacheDataVec = [] then none else some false
       resultMap := List.replicate vec.length [], cond := vec.length, itemSizeCond := fun _ => 0
       threads := [(List.range vec.length).map Op.fetchInfo ++ [.cachedTail]], log := [], crash := none }⟩

end Exec

end Graphize
