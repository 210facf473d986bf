import Graphize.Proof.Answering
import Graphize.Proof.Slicing
import Graphize.Proof.RedisRefusals
import Graphize.Proof.RedisKeys

/-!
# What each class of services promises

For the three kinds of machines behind the classes of `service/base`, when they hand over at
most once and when they do hand over:

* `RpcCall`: a `BrpcService` or `HttpService` with at most one closure for its channel; it
  hands over without a channel, or with exactly one closure.
* `Slicing`: a `ConcurrentService` whose slice count fits an `int`; it hands over if there is
  a slice.
* `Answerable`: a `RedisService` whose first batches are accepted; it hands over, also when
  other nodes write to the cache at any time.
* `known_doService`, `Known.step`, `Known.sound`, `Known.rest`: the three as one.
* `promises_class`: so every class hands over at most once, within a bound.
-/

namespace Graphize

open Handover Threads

/-! ## Rpc services -/

namespace RpcCall

variable {s s' : RpcCall} {t : ℕ}

/-- How often what follows from an operation runs the output nodes. -/
def outputW (channel : Bool) (closures : ℕ) : RpcOp → ℕ
  | .getTransport => if channel then closures else 1
  | .callMethod => closures
  | .runOutputNodes => 1
  | _ => 0

/-- The steps that follow from an operation. -/
def cost (closures : ℕ) : RpcOp → ℕ
  | .getTransport => 2 * closures + 2
  | .callMethod => 2 * closures + 1
  | _ => 1

/-- How often the service is to run the output nodes. -/
def due (s : RpcCall) : ℕ := if s.channel then s.closures else 1

theorem total_replicate {α : Type*} (w : α → ℕ) (n : ℕ) (ops : List α) :
    total w (List.replicate n ops) = n * weight w ops := by
  induction n with
  | zero => simp
  | succ n ih => rw [List.replicate_succ, total_cons, ih, Nat.succ_mul, Nat.add_comm]

/-- **One operation** turns what is due into calls, and uses up some of the cost. -/
theorem exec_spec (s : RpcCall) (op : RpcOp) : (op.exec s).1.channel = s.channel ∧
    (op.exec s).1.closures = s.closures ∧
    (op.exec s).1.log.count .runOutputNodes + weight (outputW s.channel s.closures) (op.exec s).2.1 +
      total (outputW s.channel s.closures) (op.exec s).2.2 =
        s.log.count .runOutputNodes + outputW s.channel s.closures op ∧
    s.log.count .runOutputNodes ≤ (op.exec s).1.log.count .runOutputNodes ∧
    weight (cost s.closures) (op.exec s).2.1 + total (cost s.closures) (op.exec s).2.2 < cost s.closures op := by
  cases op with
  | getTransport => cases hc : s.channel <;> simp [RpcOp.exec, hc, outputW, cost]
  | callMethod =>
    simp [RpcOp.exec, outputW, cost, total_replicate]
    omega
  | afterService => simp [RpcOp.exec, outputW, cost, BrpcService.type]
  | processResponse => simp [RpcOp.exec, outputW, cost]
  | runOutputNodes => simp [RpcOp.exec, outputW, cost]

/-- The calls made and those that are due. -/
structure Inv (s : RpcCall) : Prop where
  output : s.log.count .runOutputNodes + total (outputW s.channel s.closures) s.threads = s.due

theorem Inv.step (hs : Inv s) (h : s.step t = some s') : Inv s' ∧ s'.due = s.due ∧
    s.log.count .runOutputNodes ≤ s'.log.count .runOutputNodes ∧
    total (cost s'.closures) s'.threads < total (cost s.closures) s.threads := by
  unfold RpcCall.step at h
  split at h
  · cases h
  · cases h
  rename_i op ops ht
  obtain ⟨hch, hcl, hout, hmono, hcost⟩ := exec_spec s op
  have hs' : s' = { (op.exec s).1 with threads := s.threads.set t ((op.exec s).2.1 ++ ops) ++ (op.exec s).2.2 } :=
    (Option.some.inj h).symm
  have h1 := total_set (w := outputW s.channel s.closures) ht ((op.exec s).2.1 ++ ops)
  have h2 := total_set (w := cost s.closures) ht ((op.exec s).2.1 ++ ops)
  rw [weight_cons, weight_append] at h1 h2
  have hchannel : s'.channel = s.channel := by rw [hs']; exact hch
  have hclosures : s'.closures = s.closures := by rw [hs']; exact hcl
  have hlog : s'.log = (op.exec s).1.log := by rw [hs']
  have hthreads : s'.threads = s.threads.set t ((op.exec s).2.1 ++ ops) ++ (op.exec s).2.2 := by rw [hs']
  have hdue : s'.due = s.due := by unfold due; rw [hchannel, hclosures]
  have hs'' := hs.output
  refine ⟨⟨?_⟩, hdue, by rw [hlog]; exact hmono, ?_⟩
  · rw [hdue, hchannel, hclosures, hlog, hthreads, total_append]
    omega
  · rw [hclosures, hthreads, total_append]
    omega

theorem inv_start (channel : Bool) (closures : ℕ) : Inv (BrpcService.doService channel closures) := by
  constructor
  cases channel <;> simp [BrpcService.doService, outputW, due]

/-- Nothing is left to do where no thread can go on. -/
theorem Inv.rest (hs : Inv s) (hst : Machine.Stuck RpcCall.step s) : s.log.count .runOutputNodes = s.due := by
  have hnil : ∀ ops ∈ s.threads, ops = [] := by
    intro ops hops
    obtain ⟨t, ht⟩ := List.mem_iff_getElem?.1 hops
    cases ops with
    | nil => rfl
    | cons op ops =>
      have := hst t
      simp [RpcCall.step, ht] at this
  have := hs.output
  rw [total_eq_zero hnil] at this
  omega

end RpcCall

/-! ## Concurrent services -/

/-- The steps that follow from an operation of a service with `n` slices. -/
def Slicing.cost (n : ℕ) : SliceOp → ℕ
  | .launch i => 7 * (n - i) + 1
  | .fetchSub => 4
  | _ => 1

theorem Slicing.Move.cost_lt {n : ℕ} {c c' : Int32} {old new : List SliceOp} {started : List (List SliceOp)}
    {evs : List SliceEvent} (h : Slicing.Move n c old new started c' evs) :
    weight (Slicing.cost n) new + total (Slicing.cost n) started < weight (Slicing.cost n) old := by
  cases h with
  | launch i hi =>
    simp [Slicing.cost]
    omega
  | launched i hi => simp [Slicing.cost]
  | _ => simp [Slicing.cost]

/-- Every step of a concurrent service uses up some of the cost, and logs at the end. -/
theorem Slicing.Inv.step_cost {n t : ℕ} {s s' : Slicing} (hs : Slicing.Inv n s) (h : s.step t = some s') :
    s.log.count .runOutputNodes ≤ s'.log.count .runOutputNodes ∧
      total (Slicing.cost n) s'.threads < total (Slicing.cost n) s.threads := by
  obtain ⟨old, new, started, c', evs, ht, hm, rfl⟩ := Slicing.move_of_step hs.counting.shape h
  have htotal := Slicing.total_step (w := Slicing.cost n) ht new started
  rw [hs.counting.sliceNum] at hm
  have hlt := hm.cost_lt
  refine ⟨by rw [List.count_append]; omega, ?_⟩
  dsimp only
  omega

/-! ## Redis services -/

section Redis

variable {ρ : Type*} {env : RedisEnv ρ} {s₀ s s' : Serving}

/-- What is known of a request does not depend on the cache. -/
theorem Inv.setCache (hI : Inv env s₀ s) (c : Cache) : Inv env s₀ (s.setCache c) where
  vec := hI.vec
  backend := hI.backend
  shape := ⟨hI.shape.crash, hI.shape.maps, hI.shape.fits, hI.shape.first, hI.shape.promise⟩
  threaded := ⟨hI.threaded.main, hI.threaded.parsed, hI.threaded.callbacks⟩
  counts := ⟨hI.counts.items, hI.counts.infos, hI.counts.cond, hI.counts.tokens⟩
  batches := ⟨hI.batches.once, hI.batches.called, hI.batches.issued⟩
  none := hI.none
  unparsed := hI.unparsed
  parsed := hI.parsed
  after := hI.after
  past := hI.past
  order := hI.order

theorem Items.setCache (hT : Items env s) (c : Cache) : Items env (s.setCache c) :=
  ⟨hT.active, hT.opened, hT.items, hT.merged, hT.calls⟩

/-! How long a request can take, whatever the cache knows. -/

variable {c : Cache} {req : ρ}

/-- A fetch info with its keys. -/
def FetchInfo.load (info : FetchInfo) : ℕ := 1 + info.keys.length

theorem length_slotsOf_le (keys : List Bytes) : (slotsOf env keys).length ≤ keys.length := by
  unfold slotsOf
  rw [(env.slotOrder_perm _).length_eq]
  have hsub : Numbering.firsts (keys.map env.slot) ⊆ keys.map env.slot := fun x hx => Numbering.mem_firsts.1 hx
  have := ((Numbering.firsts_nodup (keys.map env.slot)).subperm hsub).length_le
  rwa [List.length_map] at this

theorem sum_load (xs : List FetchInfo) : (xs.map FetchInfo.load).sum = xs.length + (xs.flatMap FetchInfo.keys).length := by
  induction xs with
  | nil => rfl
  | cons x xs ih =>
    rw [List.map_cons, List.sum_cons, ih, List.flatMap_cons, List.length_append, List.length_cons]
    unfold FetchInfo.load
    omega

/-- What becomes of one fetch info. -/
theorem makeUpFetchInfo_load (i : ℕ) (info : FetchInfo) :
    (makeUpFetchInfo env c req i info).1.load + ((makeUpFetchInfo env c req i info).2.1.map FetchInfo.load).sum ≤
      1 + 2 * (generated env req info).length := by
  cases hf : env.keyFuncMap info.keyGenFunc with
  | none =>
    have hg : generated env req info = info.keys := by unfold generated; rw [hf]
    rw [makeUpFetchInfo_none hf, hg]
    simp only [FetchInfo.load, List.map_nil, List.sum_nil]
    omega
  | some keyFunc =>
    have hperm : ((makeUpFetchInfo env c req i info).1.keys ++
        (makeUpFetchInfo env c req i info).2.1.flatMap FetchInfo.keys).Perm (missed env c req info) :=
      makeUpFetchInfo_keys (Or.inl (by rw [hf]; rfl)) i
    have hkeys := hperm.length_eq
    have hmissed := (missed_perm env c req info).length_eq
    rw [List.length_append] at hkeys hmissed
    have hadd : (makeUpFetchInfo env c req i info).2.1.length ≤ (missed env c req info).length := by
      rw [makeUpFetchInfo_eq hf, lookedUp_fst]
      unfold groupBySlot
      have hslots : (slotsOf env (missed env c req info)).length ≤ (missed env c req info).length :=
        length_slotsOf_le _
      split
      · split
        · exact Nat.zero_le _
        · rename_i h0
          rw [h0, List.length_cons] at hslots
          rw [List.length_map]
          omega
      · exact Nat.zero_le _
    rw [sum_load]
    unfold FetchInfo.load
    omega

/-- What becomes of all of them. -/
theorem madeVec_load (infos : List FetchInfo) :
    ((madeVec env c req infos).map FetchInfo.load).sum ≤
      (infos.map fun info => 1 + 2 * (generated env req info).length).sum := by
  have hsum : ∀ l : List (FetchInfo × List FetchInfo × List CacheDataItem),
      ((l.map (fun e => e.1) ++ l.flatMap fun e => e.2.1).map FetchInfo.load).sum =
        (l.map fun e => e.1.load + (e.2.1.map FetchInfo.load).sum).sum := by
    intro l
    induction l with
    | nil => rfl
    | cons e l ih =>
      simp only [List.map_append, List.sum_append, List.map_cons, List.sum_cons, List.flatMap_cons] at ih ⊢
      omega
  unfold madeVec
  rw [hsum]
  unfold made
  rw [List.map_map]
  conv_rhs => rw [← List.zipIdx_map_fst 0 infos, List.map_map]
  exact List.sum_le_sum fun e _ => makeUpFetchInfo_load e.2 e.1

/-- The rounds of `do_service` and all that follows from them. -/
theorem weight_loopOps (hb : env.BatchSizeOK) (vec : List FetchInfo) :
    weight (cost env vec) (loopOps vec.length) ≤ 10 * (vec.map FetchInfo.load).sum + 2 := by
  have hbatches : ∀ info : FetchInfo, info.batches env ≤ info.keys.length := by
    intro info
    unfold FetchInfo.batches
    split
    · exact batchCount_le_self (hb ‹_›)
    · exact le_rfl
  have hmap : (List.range vec.length).map (cost env vec ∘ Op.fetchInfo) = vec.map fun info => 8 + 10 * info.batches env := by
    refine List.ext_getElem (by simp) fun j h1 h2 => ?_
    have hj : j < vec.length := by simpa using h1
    simp [cost, batchesAt, List.getElem?_eq_getElem hj]
  have hle : ∀ vec : List FetchInfo,
      (vec.map fun info => 8 + 10 * info.batches env).sum ≤ 10 * (vec.map FetchInfo.load).sum := by
    intro vec
    induction vec with
    | nil => simp
    | cons info vec ih =>
      have := hbatches info
      simp only [List.map_cons, List.sum_cons]
      unfold FetchInfo.load at ih ⊢
      omega
  have := hle vec
  unfold loopOps
  rw [weight_append]
  unfold weight
  rw [List.map_map, hmap]
  simp only [List.map_singleton, List.sum_singleton, cost]
  omega

/-- A bound for every run of a request, whatever the cache knows at its start. -/
def requestBound (env : RedisEnv ρ) (req : ρ) (infos : List FetchInfo) : ℕ :=
  10 * (infos.map fun info => 1 + 2 * (generated env req info).length).sum + 3

theorem bound_le (hb : env.BatchSizeOK) (infos : List FetchInfo) (backend : Backend) :
    RedisNode.bound env ⟨infos, c⟩ req backend ≤ requestBound env req infos := by
  unfold RedisNode.bound requestBound
  rcases doService_cases env ⟨infos, c⟩ req backend with ⟨-, h⟩ | ⟨vec, cacheDataVec, hm, -, h⟩ <;> rw [h]
  · simp [cost]
  · have hload : ((madeVec env c req infos).map FetchInfo.load).sum ≤
        (infos.map fun info => 1 + 2 * (generated env req info).length).sum := madeVec_load infos
    rw [makeUpFetchInfoVec_eq] at hm
    obtain ⟨hvec, -⟩ := Prod.mk.inj hm
    have hsame : (vec.map FetchInfo.load).sum = ((madeVec env c req infos).map FetchInfo.load).sum := by
      rw [← hvec, List.map_map]
      conv_rhs => rw [← List.zipIdx_map_fst 0 (madeVec env c req infos), List.map_map]
      rfl
    have hloop := weight_loopOps hb vec
    simp only [total_cons, total_nil]
    omega

/-- **What a request needs** to come to its end, whatever the cache knows at its start: the
functions return, every reply has one value for a key at most, and the first batch of each
fetch info is accepted. -/
structure Answerable (env : RedisEnv ρ) (infos : List FetchInfo) (req : ρ) (backend : Backend) : Prop where
  returns : env.CachedNoThrow
  batchSize : env.BatchSizeOK
  replies : backend.Replies
  fits : ∀ c, backend.Fits env (RedisNode.doService env ⟨infos, c⟩ req backend).node.fetchInfoVec
  served : ∀ c, Served env (RedisNode.doService env ⟨infos, c⟩ req backend).node.fetchInfoVec backend

/-- A step of a request, whatever the cache has become. -/
theorem Answerable.step {infos : List FetchInfo} {backend : Backend} (hA : Answerable env infos req backend)
    (hI : Inv env (RedisNode.doService env ⟨infos, c⟩ req backend) s) (hT : Items env s) {c' : Cache} {t : ℕ}
    (h : (s.setCache c').step env t = some s') :
    Inv env (RedisNode.doService env ⟨infos, c⟩ req backend) s' ∧ Items env s' ∧
      s.request.log.count .output ≤ s'.request.log.count .output ∧
      total (cost env s'.node.fetchInfoVec) s'.request.threads < total (cost env s.node.fetchInfoVec) s.request.threads := by
  have hI' := hI.setCache c'
  have hT' := hT.setCache c'
  have hbackend : s.request.backend = backend := hI.backend.trans doService_backend
  have hret : (s.setCache c').Returns env t := by
    refine returns_of_served hA.returns hA.batchSize hI' hT' ?_ ?_ t
    · show s.request.backend.Fits env s.node.fetchInfoVec
      rw [hbackend, hI.vec]
      exact hA.fits c
    · show ∀ (j : ℕ) info, s.node.fetchInfoVec[j]? = some info → info.Active env → s.request.backend.accepts j 0 = true
      rw [hbackend, hI.vec]
      exact hA.served c
  obtain ⟨op, rest, ht, hact, hI'', hT''⟩ := items_act hA.batchSize hA.replies hI' hT' hret h
  refine ⟨hI'', hT'', ?_, ?_⟩
  · obtain ⟨-, -, evs, -, hlog, -⟩ := step_log h
    rw [hlog, List.count_append]
    exact Nat.le_add_right _ _
  · have hcost := hact.cost hI'.shape hA.batchSize ht
    rwa [hact.frame.1]

end Redis

/-! ## The classes -/

section Classes

universe u

variable {ρ : Type u} {downstreamMap : DownstreamMap} {classOf : NodePtr → ServiceClass ρ} {req : ρ}

/-- **The class hands over at most once** for this request. -/
def ServiceClass.Sound (downstreamMap : DownstreamMap) (req : ρ) : ServiceClass ρ → Prop
  | .concurrent prepareSubRequests => prepareSubRequests req < 2 ^ 31
  | .brpc name callRpcMethod => (downstreamMap.getTransport name).isSome → callRpcMethod req ≤ 1
  | .http _ => True
  | .redis env infos backend => Answerable env infos req (backend req)

/-- **The class hands over** for this request. -/
def ServiceClass.Replies (downstreamMap : DownstreamMap) (req : ρ) : ServiceClass ρ → Prop
  | .concurrent prepareSubRequests => prepareSubRequests req ≠ 0
  | .brpc name callRpcMethod => (downstreamMap.getTransport name).isSome → callRpcMethod req = 1
  | .http _ => True
  | .redis _ _ _ => True

/-- No run of a service of the class is longer. -/
def ServiceClass.bound (req : ρ) : ServiceClass ρ → ℕ
  | .concurrent prepareSubRequests => 7 * prepareSubRequests req + 2
  | .brpc _ callRpcMethod => 2 * callRpcMethod req + 3
  | .http _ => 5
  | .redis env infos _ => requestBound env req infos

/-- What is known of a service at work. -/
def ServiceState.Known (downstreamMap : DownstreamMap) (req : ρ) : ServiceClass ρ → ServiceState ρ → Prop
  | .concurrent prepareSubRequests, .concurrent s => Slicing.Inv (prepareSubRequests req) s
  | .brpc name callRpcMethod, .rpc s =>
    s.Inv ∧ ((downstreamMap.getTransport name).isSome → s.due = callRpcMethod req) ∧ (¬(downstreamMap.getTransport name).isSome → s.due = 1)
  | .http _, .rpc s => s.Inv ∧ s.due = 1
  | .redis env infos backend, .redis env' s => env' = env ∧
    ∃ c, Inv env (RedisNode.doService env ⟨infos, c⟩ req (backend req)) s ∧ Items env s
  | _, _ => False

/-- The steps a service at work still has before it. -/
def ServiceState.left : ServiceState ρ → ℕ
  | .concurrent s => total (Slicing.cost s.sliceNum) s.threads
  | .rpc s => total (RpcCall.cost s.closures) s.threads
  | .redis env s => total (cost env s.node.fetchInfoVec) s.request.threads

/-- A service that has just been called. -/
theorem known_doService (cl : ServiceClass ρ) (hc : cl.Sound downstreamMap req) (cache : Cache) :
    (cl.doService downstreamMap req cache).Known downstreamMap req cl ∧
      (cl.doService downstreamMap req cache).outputs = 0 ∧
      (cl.doService downstreamMap req cache).left ≤ cl.bound req := by
  cases cl with
  | concurrent f =>
    refine ⟨Slicing.inv_doService hc, rfl, ?_⟩
    simp [ServiceClass.doService, ServiceState.left, ConcurrentService.doService, Slicing.cost, ServiceClass.bound]
  | brpc name f =>
    refine ⟨⟨RpcCall.inv_start _ _, fun hn => ?_, fun hn => ?_⟩, rfl, ?_⟩
    · simp [RpcCall.due, BrpcService.doService, hn]
    · simp [RpcCall.due, BrpcService.doService, hn]
    · simp [ServiceClass.doService, ServiceState.left, BrpcService.doService, RpcCall.cost, ServiceClass.bound]
  | http name =>
    refine ⟨⟨RpcCall.inv_start _ _, ?_⟩, rfl, ?_⟩
    · unfold RpcCall.due
      split <;> rfl
    · simp [ServiceClass.doService, ServiceState.left, HttpService.doService, RpcCall.cost, ServiceClass.bound]
  | redis env infos backend =>
    refine ⟨⟨rfl, cache, inv_doService _ _ _, items_doService⟩, ?_, bound_le hc.batchSize infos (backend req)⟩
    show (RedisNode.doService env ⟨infos, cache⟩ req (backend req)).request.log.count .output = 0
    rw [doService_log]
    rfl

/-- **Every step of a service** keeps what is known of it. -/
theorem ServiceState.Known.step (cl : ServiceClass ρ) (hc : cl.Sound downstreamMap req) {x x' : ServiceState ρ}
    (hx : x.Known downstreamMap req cl) {cache cache' : Cache} {t : ℕ} (h : x.step cache t = some (cache', x')) :
    x'.Known downstreamMap req cl ∧ x.outputs ≤ x'.outputs ∧ x'.left < x.left := by
  cases x with
  | concurrent s =>
    obtain ⟨s', hs, he⟩ := Option.map_eq_some_iff.1 h
    obtain ⟨-, rfl⟩ := Prod.mk.inj he
    cases cl with
    | concurrent f =>
      have hinv : Slicing.Inv (f req) s := hx
      obtain ⟨h1, h2⟩ := hinv.step_cost hs
      have hinv' := hinv.step hs
      refine ⟨hinv', h1, ?_⟩
      show total (Slicing.cost s'.sliceNum) s'.threads < total (Slicing.cost s.sliceNum) s.threads
      rwa [hinv'.counting.sliceNum, hinv.counting.sliceNum]
    | brpc name f => exact absurd hx id
    | http name => exact absurd hx id
    | redis env infos backend => exact absurd hx id
  | rpc s =>
    obtain ⟨s', hs, he⟩ := Option.map_eq_some_iff.1 h
    obtain ⟨-, rfl⟩ := Prod.mk.inj he
    cases cl with
    | concurrent f => exact absurd hx id
    | brpc name f =>
      obtain ⟨h1, h2, h3, h4⟩ := hx.1.step hs
      exact ⟨⟨h1, fun hn => h2.trans (hx.2.1 hn), fun hn => h2.trans (hx.2.2 hn)⟩, h3, h4⟩
    | http name =>
      obtain ⟨h1, h2, h3, h4⟩ := hx.1.step hs
      exact ⟨⟨h1, h2.trans hx.2⟩, h3, h4⟩
    | redis env infos backend => exact absurd hx id
  | redis env s =>
    obtain ⟨s', hs, he⟩ := Option.map_eq_some_iff.1 h
    obtain ⟨-, rfl⟩ := Prod.mk.inj he
    cases cl with
    | concurrent f => exact absurd hx id
    | brpc name f => exact absurd hx id
    | http name => exact absurd hx id
    | redis env' infos backend =>
      obtain ⟨rfl, c, hI, hT⟩ := hx
      obtain ⟨h1, h2, h3, h4⟩ := Answerable.step hc hI hT hs
      exact ⟨⟨rfl, c, h1, h2⟩, h3, h4⟩

/-- What is known of a service keeps it from handing over twice and from crashing. -/
theorem ServiceState.Known.sound (cl : ServiceClass ρ) (hc : cl.Sound downstreamMap req) {x : ServiceState ρ}
    (hx : x.Known downstreamMap req cl) : x.outputs ≤ 1 ∧ x.crashed = false := by
  cases x with
  | concurrent s =>
    cases cl with
    | concurrent f =>
      have htok := Slicing.Inv.token hx .runOutputNodes
      refine ⟨?_, rfl⟩
      show s.log.count .runOutputNodes ≤ 1
      simp only [Slicing.Token, Slicing.eventW, Slicing.owed] at htok
      split at htok <;> split at htok <;> omega
    | brpc name f => exact absurd hx id
    | http name => exact absurd hx id
    | redis env infos backend => exact absurd hx id
  | rpc s =>
    cases cl with
    | concurrent f => exact absurd hx id
    | brpc name f =>
      obtain ⟨hinv, hthere, hmissing⟩ := hx
      have hout := hinv.output
      refine ⟨?_, rfl⟩
      show s.log.count .runOutputNodes ≤ 1
      by_cases hn : (downstreamMap.getTransport name).isSome
      · have hle : f req ≤ 1 := hc hn
        have := hthere hn
        omega
      · have := hmissing hn
        omega
    | http name =>
      obtain ⟨hinv, hdue⟩ := hx
      have hout := hinv.output
      refine ⟨?_, rfl⟩
      show s.log.count .runOutputNodes ≤ 1
      omega
    | redis env infos backend => exact absurd hx id
  | redis env s =>
    cases cl with
    | concurrent f => exact absurd hx id
    | brpc name f => exact absurd hx id
    | http name => exact absurd hx id
    | redis env' infos backend =>
      obtain ⟨rfl, c, hI, -⟩ := hx
      refine ⟨hI.counts.token_le .output, ?_⟩
      show s.request.crash.isSome = false
      rw [hI.shape.crash]
      rfl

/-- **A service that has come to rest** has handed over exactly if its class does. -/
theorem ServiceState.Known.rest (cl : ServiceClass ρ) (hc : cl.Sound downstreamMap req) {x : ServiceState ρ}
    (hx : x.Known downstreamMap req cl) {cache : Cache} (hst : ∀ t, x.step cache t = none) :
    x.outputs = 1 ↔ cl.Replies downstreamMap req := by
  cases x with
  | concurrent s =>
    cases cl with
    | concurrent f =>
      have hrest : Machine.Stuck Slicing.step s := fun t => by simpa [ServiceState.step] using hst t
      have htok := Slicing.Inv.token hx .runOutputNodes
      rw [Slicing.Token, Slicing.total_of_stuck hrest, Slicing.total_of_stuck hrest] at htok
      show s.log.count .runOutputNodes = 1 ↔ f req ≠ 0
      simp only [Slicing.eventW, Slicing.owed, lt_irrefl, if_false] at htok
      split at htok <;> omega
    | brpc name f => exact absurd hx id
    | http name => exact absurd hx id
    | redis env infos backend => exact absurd hx id
  | rpc s =>
    have hrest : Machine.Stuck RpcCall.step s := fun t => by simpa [ServiceState.step] using hst t
    cases cl with
    | concurrent f => exact absurd hx id
    | brpc name f =>
      have hout := hx.1.rest hrest
      show s.log.count .runOutputNodes = 1 ↔ ((downstreamMap.getTransport name).isSome → f req = 1)
      by_cases hn : (downstreamMap.getTransport name).isSome
      · rw [hx.2.1 hn] at hout
        simp [hout, hn]
      · rw [hx.2.2 hn] at hout
        simp [hout, hn]
    | http name =>
      have hout := hx.1.rest hrest
      rw [hx.2] at hout
      exact ⟨fun _ => trivial, fun _ => hout⟩
    | redis env infos backend => exact absurd hx id
  | redis env s =>
    cases cl with
    | concurrent f => exact absurd hx id
    | brpc name f => exact absurd hx id
    | http name => exact absurd hx id
    | redis env' infos backend =>
      obtain ⟨rfl, c, hI, -⟩ := hx
      refine ⟨fun _ => trivial, fun _ => ?_⟩
      have hrest : Machine.Stuck (Serving.step env) (s.setCache cache) := fun t => by
        simpa [ServiceState.step] using hst t
      exact ((hI.setCache cache).finished hrest).2 _ _ .output

/-- **A class keeps its promise**, whatever the other nodes do to the cache. -/
theorem promises_class (n : NodePtr) (hc : (classOf n).Sound downstreamMap req) (cache : Cache) :
    Promises (serviceClasses downstreamMap classOf).toService ((classOf n).bound req)
      ((serviceClasses downstreamMap classOf).doService req n cache) := by
  obtain ⟨hknown, hcalls, hleft⟩ := known_doService (classOf n) hc cache
  have hpromise := promises_of_inv (P := (serviceClasses downstreamMap classOf).toService)
    (fun x => x.Known downstreamMap req (classOf n)) ServiceState.left hknown hcalls
    (fun x c x' hx h => by
      obtain ⟨⟨cache', x''⟩, hs, he⟩ := Option.map_eq_some_iff.1 h
      obtain rfl : x'' = x' := he
      exact hx.step (classOf n) hc hs)
    (fun x hx => hx.sound (classOf n) hc)
  exact ⟨hpromise.calls, fun cs x h => ⟨le_trans (hpromise.run cs x h).1 hleft, (hpromise.run cs x h).2⟩,
    hpromise.mono⟩

/-- The services that have been called are of their classes. -/
theorem known_started (hc : ∀ n, (classOf n).Sound downstreamMap req) {p : NodePtr × ServiceState ρ}
    {cs : List (Cache × ℕ)}
    (h : Started (serviceClasses downstreamMap classOf).toService ((serviceClasses downstreamMap classOf).doService req)
      p cs) : p.2.Known downstreamMap req (classOf p.1) := by
  obtain ⟨cache, h⟩ := h
  refine Machine.run_inv (fun x => x.Known downstreamMap req (classOf p.1)) (fun x c x' hx h => ?_) cs _ p.2
    (known_doService (classOf p.1) (hc p.1) cache).1 h
  obtain ⟨⟨cache', x''⟩, hs, he⟩ := Option.map_eq_some_iff.1 h
  obtain rfl : x'' = x' := he
  exact (hx.step (classOf p.1) (hc p.1) hs).1

end Classes

end Graphize
