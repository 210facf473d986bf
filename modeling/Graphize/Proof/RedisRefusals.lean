import Graphize.Proof.RedisItems

/-!
# Batches that the client refuses

A refused batch counts as finished, and its result item stays as it was made.
`merge_cache_data` reads the settings of a fetch info through its first item.

* `fillItem_values`: what a callback leaves in an item.
* `returns_of_served`: while all first batches are accepted, no merge goes wrong.
* `merge_safe_iff`: a request always comes to its end exactly when they are.
-/

namespace Graphize

open Threads

/-! ## The values of a reply -/

/-- The values that a reply brings. -/
def RpcReply.values (rpc : RpcReply) : List (Option Bytes) :=
  if rpc.failed then []
  else
    match rpc.response with
    | some (.nil :: _) => [none]
    | some (.str data :: _) => [some data]
    | some (.array elements :: _) => elements
    | _ => []

/-- The length that is kept with a value. -/
def valueLen (value : Option Bytes) : ℕ := (value.getD []).length

theorem foldl_push : ∀ (elements : List (Option Bytes)) (item : RedisResultItem),
    (elements.foldl RedisResultItem.push item).fetchInfoPtr = item.fetchInfoPtr ∧
      (elements.foldl RedisResultItem.push item).startIndex = item.startIndex ∧
      (elements.foldl RedisResultItem.push item).resultStrVec = item.resultStrVec ++ elements ∧
      (elements.foldl RedisResultItem.push item).resultStrLenVec = item.resultStrLenVec ++ elements.map valueLen := by
  intro elements
  induction elements with
  | nil => intro item; simp
  | cons value elements ih =>
    intro item
    obtain ⟨h1, h2, h3, h4⟩ := ih (item.push value)
    rw [List.foldl_cons, h1, h2, h3, h4]
    cases value <;> simp [RedisResultItem.push, valueLen]

/-- **What a callback leaves in its item.** -/
theorem fillItem_values {info : FetchInfo} {j i step : ℕ} {key : Bytes} {rpc : RpcReply} {item : RedisResultItem}
    (h : fillItem info j i step key rpc {} = .ok item) :
    item.fetchInfoPtr = some j ∧ item.startIndex = i ∧ item.resultStrVec = rpc.values ∧
      item.resultStrLenVec = rpc.values.map valueLen := by
  obtain ⟨failed, errorText, response⟩ := rpc
  unfold fillItem at h
  cases failed with
  | true =>
    obtain rfl := Except.ok.inj h
    exact ⟨rfl, rfl, rfl, rfl⟩
  | false =>
    -- one case for each shape of the response; the first of an empty one is a null pointer
    rcases response with _ | (_ | ⟨_ | data | message | value | elements, rest⟩)
    · obtain rfl := Except.ok.inj h
      exact ⟨rfl, rfl, rfl, rfl⟩
    · exact absurd h (by simp [checkSucRpcResponse])
    · obtain rfl := Except.ok.inj h
      exact ⟨rfl, rfl, rfl, rfl⟩
    · obtain rfl := Except.ok.inj h
      exact ⟨rfl, rfl, rfl, rfl⟩
    · obtain rfl := Except.ok.inj h
      exact ⟨rfl, rfl, rfl, rfl⟩
    · obtain rfl := Except.ok.inj h
      exact ⟨rfl, rfl, rfl, rfl⟩
    · obtain rfl := Except.ok.inj h
      exact foldl_push elements
        { fetchInfoPtr := some j, mGetSize := (min (i + step) info.keys.length : ℤ) - i, startIndex := i }

section

variable {ρ : Type*} {env : RedisEnv ρ}

/-- A batch is answered with at most one value for each of its keys. -/
def Backend.Fits (b : Backend) (env : RedisEnv ρ) (vec : List FetchInfo) : Prop :=
  ∀ j i info, IsBatch env vec j i info → (b.reply j i).values.length ≤ (info.batch env i).length

variable {s₀ s s' : Serving} {t : ℕ} {op : Op} {rest : List Op}

/-! ## The merge -/

/-- Every value of every item has its key. -/
theorem Items.mergeable (hT : Items env s) (hB : Batches env s) (hf : s.request.backend.Fits env s.node.fetchInfoVec) :
    ∀ items ∈ s.request.resultMap, ∀ item ∈ items, item.Mergeable s.node.fetchInfoVec := by
  intro items hitems item hitem k hk
  obtain ⟨j, hj⟩ := List.getElem?_of_mem hitems
  obtain ⟨m, hm⟩ := List.getElem?_of_mem hitem
  obtain ⟨info, hinfo, -⟩ := hT.active j items hj (List.ne_nil_of_mem hitem)
  rcases hT.items j info items m item hinfo hj hm with ⟨rfl, -⟩ | ⟨hcalled, hitem⟩
  · exact absurd hk (by simp)
  · obtain ⟨info', hbatch, -, -⟩ := hB.accepted_of_called hcalled
    obtain rfl : info = info' := Option.some.inj (hinfo.symm.trans hbatch.1)
    obtain ⟨hptr, hstart, hvalues, -⟩ := fillItem_values hitem
    have hlen := hf j _ info hbatch
    unfold FetchInfo.batch at hlen
    rw [List.length_take, List.length_drop] at hlen
    rw [hvalues] at hk
    unfold RedisResultItem.keyOf
    rw [hptr, hstart, Option.bind_some, hinfo, Option.bind_some, isSome_getElem?]
    omega

/-- At the merge every batch has been refused or called back. -/
theorem Items.filled (hT : Items env s) (hI : Inv env s₀ s) (hb : env.BatchSizeOK)
    (ht : s.request.threads[t]? = some (.mergeCacheData :: rest))
    (hacc : ∀ (j : ℕ) info, s.node.fetchInfoVec[j]? = some info → info.Active env → s.request.backend.accepts j 0 = true) :
    ∀ (p : ℕ) first items, s.request.resultMap[p]? = some (first :: items) → first.Filled s.node.fetchInfoVec := by
  intro p first items hp
  obtain ⟨info, hinfo, ha⟩ := hT.active p _ hp (by simp)
  have hbatch : IsBatch env s.node.fetchInfoVec p 0 info :=
    ⟨hinfo, ha, ⟨0, (Nat.zero_mul _).symm⟩, List.length_pos_iff.2 ha.keys⟩
  have hcond := hI.cond_le (List.mem_of_getElem? ht) .merge List.mem_cons_self
  have hcalled : .called p 0 ∈ s.request.log := by
    rcases hI.batches_done hb hcond (hI.vec ▸ hbatch) with h | ⟨-, h⟩
    · obtain ⟨info', -, -, hrefused⟩ := hI.batches.issued _ _ _ _ h
      rw [hacc p info hinfo ha] at hrefused
      exact absurd hrefused (by simp)
    · exact h
  rcases hT.items p info _ 0 first hinfo hp rfl with ⟨-, hno⟩ | ⟨-, hitem⟩
  · rw [Nat.zero_mul] at hno
    exact absurd hcalled hno
  · obtain ⟨hptr, -, -⟩ := fillItem_values hitem
    unfold RedisResultItem.Filled
    rw [hptr, Option.bind_some, hinfo]
    rfl

/-- **While all first batches are accepted**, whatever is executed returns. -/
theorem returns_of_served (hn : env.CachedNoThrow) (hb : env.BatchSizeOK) (hI : Inv env s₀ s) (hT : Items env s)
    (hf : s.request.backend.Fits env s.node.fetchInfoVec)
    (hacc : ∀ (j : ℕ) info, s.node.fetchInfoVec[j]? = some info → info.Active env → s.request.backend.accepts j 0 = true)
    (t : ℕ) : s.Returns env t := by
  unfold Serving.Returns
  cases ht : s.request.threads[t]? with
  | none => trivial
  | some ops =>
    cases ops with
    | nil => trivial
    | cons op rest =>
      cases op with
      | mergeCacheData => exact mergeMap_ok (hT.filled hI hb ht hacc) (hT.mergeable hI.batches hf) _ _
      | parseCachedData => exact callAll_returns hn _ _ isCached_of_mem
      | processResponse => exact hn.process _
      | _ => trivial

/-- A merge that does not return meets a null pointer. -/
theorem merge_nullDeref (hall : ∀ items ∈ s.request.resultMap, ∀ item ∈ items, item.Mergeable s.node.fetchInfoVec)
    (hne : (mergeMap s.node.fetchInfoVec s.request.resultMap
      (env.resultOrder (List.range s.request.resultMap.length)) (s.node.cache, s.request.log)).2 ≠ .ok) :
    ((execMerge env s).finish t rest).request.crash = some (.fault .nullDeref) := by
  have hthrow := mergeMap_ne_throw hall (env.resultOrder (List.range s.request.resultMap.length))
    (s.node.cache, s.request.log)
  unfold execMerge
  rcases hmerge : mergeMap s.node.fetchInfoVec s.request.resultMap
    (env.resultOrder (List.range s.request.resultMap.length)) (s.node.cache, s.request.log) with ⟨⟨cache, log⟩, e⟩
  rw [hmerge] at hne hthrow
  cases e with
  | ok => exact absurd rfl hne
  | throw => exact absurd rfl hthrow
  | nullDeref => rfl

theorem returns_or_crash (hn : env.CachedNoThrow) (hT : Items env s) (hB : Batches env s)
    (hf : s.request.backend.Fits env s.node.fetchInfoVec) (h : s.step env t = some s') :
    s.Returns env t ∨ s'.request.crash = some (.fault .nullDeref) := by
  unfold Serving.step at h
  split at h
  · exact absurd h (by simp)
  · unfold Serving.Returns
    cases ht : s.request.threads[t]? with
    | none => exact Or.inl trivial
    | some ops =>
      cases ops with
      | nil => exact Or.inl trivial
      | cons op rest =>
        simp only [ht, Option.ite_none_left_eq_some, Option.some.injEq] at h
        obtain ⟨-, rfl⟩ := h
        cases op with
        | mergeCacheData =>
          by_cases hok : (mergeMap s.node.fetchInfoVec s.request.resultMap
              (env.resultOrder (List.range s.request.resultMap.length)) (s.node.cache, s.request.log)).2 = .ok
          · exact Or.inl hok
          · exact Or.inr (merge_nullDeref (hT.mergeable hB hf) hok)
        | parseCachedData => exact Or.inl (callAll_returns hn _ _ isCached_of_mem)
        | processResponse => exact Or.inl (hn.process _)
        | _ => exact Or.inl trivial

/-! ## Runs -/

variable {node : RedisNode} {req : ρ} {backend : Backend}

/-- What every act keeps. -/
theorem items_act (hb : env.BatchSizeOK) (hr : backend.Replies) (hI : Inv env (node.doService env req backend) s)
    (hT : Items env s) (hret : s.Returns env t) (h : s.step env t = some s') :
    ∃ op rest, s.request.threads[t]? = some (op :: rest) ∧ Act env s t rest op s' ∧
      Inv env (node.doService env req backend) s' ∧ Items env s' := by
  have hbackend : s.request.backend = backend := hI.backend.trans doService_backend
  obtain ⟨op, rest, ht, hact⟩ := step_act (hbackend ▸ hr) hb hI.shape hret h
  exact ⟨op, rest, ht, hact, hI.step hb ht hact, hT.step hI hb ht hact⟩

/-- Every first batch of a request is accepted. -/
def Served (env : RedisEnv ρ) (vec : List FetchInfo) (backend : Backend) : Prop :=
  ∀ (j : ℕ) info, vec[j]? = some info → info.Active env → backend.accepts j 0 = true

theorem along_of_served (hn : env.CachedNoThrow) (hb : env.BatchSizeOK) (hr : backend.Replies)
    (hf : backend.Fits env (node.doService env req backend).node.fetchInfoVec)
    (hs : Served env (node.doService env req backend).node.fetchInfoVec backend) :
    ∀ ts s, Inv env (node.doService env req backend) s → Items env s →
      Machine.Along (Serving.step env) (Serving.Returns env) s ts := by
  intro ts
  induction ts with
  | nil => intro s _ _; trivial
  | cons t ts ih =>
    intro s hI hT s' h
    have hbackend : s.request.backend = backend := hI.backend.trans doService_backend
    have hret : s.Returns env t := by
      refine returns_of_served hn hb hI hT ?_ ?_ t
      · rw [hbackend, hI.vec]
        exact hf
      · rw [hbackend, hI.vec]
        exact hs
    obtain ⟨-, -, -, -, hI', hT'⟩ := items_act hb hr hI hT hret h
    exact ⟨hret, ih s' hI' hT'⟩

/-- **A run to the end** of a request that never crashes: all first batches were accepted. -/
theorem served_of_survives (hn : env.CachedNoThrow) (hb : env.BatchSizeOK) (hr : backend.Replies)
    (hf : backend.Fits env (node.doService env req backend).node.fetchInfoVec)
    (hcrash : ∀ ts s, Machine.run (Serving.step env) (node.doService env req backend) ts = some s →
      s.request.crash = none) : Served env (node.doService env req backend).node.fetchInfoVec backend := by
  set s₀ := node.doService env req backend with hs₀
  have hreach : ∀ s t s', (Inv env s₀ s ∧ Items env s ∧ ∃ ts, Machine.run (Serving.step env) s₀ ts = some s) →
      s.step env t = some s' → ∃ op rest, s.request.threads[t]? = some (op :: rest) ∧ Act env s t rest op s' ∧
        Inv env s₀ s' ∧ Items env s' ∧ ∃ ts, Machine.run (Serving.step env) s₀ ts = some s' := by
    rintro s t s' ⟨hI, hT, ts, hrun⟩ h
    have hrun' : Machine.run (Serving.step env) s₀ (ts ++ [t]) = some s' :=
      Machine.run_append_iff.2 ⟨s, hrun, Machine.run_cons_iff.2 ⟨s', h, rfl⟩⟩
    have hbackend : s.request.backend = backend := hI.backend.trans doService_backend
    have hret : s.Returns env t := by
      rcases returns_or_crash hn hT hI.batches (by rw [hbackend, hI.vec]; exact hf) h with hret | hbad
      · exact hret
      · rw [hcrash _ _ hrun'] at hbad
        exact absurd hbad (by simp)
    obtain ⟨op, rest, ht, hact, hI', hT'⟩ := items_act hb hr hI hT hret h
    exact ⟨op, rest, ht, hact, hI', hT', _, hrun'⟩
  -- every run can be continued until nothing moves
  obtain ⟨ts, s, hrun, hst⟩ := Machine.exists_stuck
    (fun s => Inv env s₀ s ∧ Items env s ∧ ∃ ts, Machine.run (Serving.step env) s₀ ts = some s)
    (fun s => total (cost env s₀.node.fetchInfoVec) s.request.threads)
    (fun s t s' hs h => by
      obtain ⟨-, -, -, -, hs'⟩ := hreach s t s' hs h
      exact hs')
    (fun s t s' hs h => by
      obtain ⟨op, rest, ht, hact, -⟩ := hreach s t s' hs h
      have hcost := hact.cost hs.1.shape hb ht
      rwa [hs.1.vec] at hcost)
    _ s₀ ⟨inv_doService node req backend, items_doService, [], rfl⟩ le_rfl
  obtain ⟨hI, hT, -⟩ : Inv env s₀ s ∧ Items env s ∧ ∃ ts, Machine.run (Serving.step env) s₀ ts = some s := by
    refine Machine.run_inv (fun s => Inv env s₀ s ∧ Items env s ∧ ∃ ts, Machine.run (Serving.step env) s₀ ts = some s)
      (fun s t s' hs h => ?_) ts s₀ s ⟨inv_doService node req backend, items_doService, [], rfl⟩ hrun
    obtain ⟨-, -, -, -, hs'⟩ := hreach s t s' hs h
    exact hs'
  have hmerged : .merged ∈ s.request.log := by
    have hcount := (hI.finished hst).2 _ _ .merge
    exact List.count_pos_iff.1 (by omega)
  intro j info hinfo ha
  rw [← hI.vec] at hinfo
  obtain ⟨-, -, -, hacc⟩ := hI.batches.accepted_of_called (hT.merged hmerged j info hinfo ha)
  rwa [hI.backend.trans doService_backend] at hacc

/-- **Refused batches and the merge**: whatever the client refuses and in whatever order
the other batches come back, `merge_cache_data` meets no null pointer and the request comes
to its end, exactly when the first batch of every fetch info that has one is accepted. -/
theorem merge_safe_iff (hn : env.CachedNoThrow) (hb : env.BatchSizeOK) (hr : backend.Replies)
    (hf : backend.Fits env (node.doService env req backend).node.fetchInfoVec) :
    (∀ ts s, Machine.run (Serving.step env) (node.doService env req backend) ts = some s →
      s.request.crash = none ∧ ts.length ≤ node.bound env req backend ∧
        (Machine.Stuck (Serving.step env) s → s.request.log.count .process = 1 ∧ s.request.log.count .output = 1)) ↔
      Served env (node.doService env req backend).node.fetchInfoVec backend := by
  constructor
  · intro h
    exact served_of_survives hn hb hr hf fun ts s hrun => (h ts s hrun).1
  · intro hs ts s hrun
    have hret := along_of_served hn hb hr hf hs ts _ (inv_doService node req backend) items_doService
    obtain ⟨hlen, hfin⟩ := finishes_of_returns hb hr hret hrun
    exact ⟨hfin.crash, hlen, fun hst => (hfin.done hst).2⟩

end

/-- Two keys of one slot, and so two batches. -/
def twoKeys : RedisNode where
  fetchInfoVec := [sampleInfo]
  cache _ := none

/-- The batch at `n` is refused, the other one is served. -/
def refusing (n : ℕ) : Backend where
  accepts _ i := decide (i ≠ n)
  reply _ _ := { response := some [.array [some [7]]] }

/-- **The first batch is refused**: when the other one has come back, the merge reads the
settings through a null pointer. -/
theorem merge_unsafe_first : ∃ s, Machine.run (Serving.step sampleEnv)
      (twoKeys.doService sampleEnv () (refusing 0)) [0, 0, 0, 0, 0, 0, 1, 1, 1, 1] = some s ∧
    s.request.crash = some (.fault .nullDeref) ∧ .called 0 1 ∈ s.request.log ∧ .process ∉ s.request.log := by
  have hend : (Machine.run (Serving.step sampleEnv) (twoKeys.doService sampleEnv () (refusing 0))
      [0, 0, 0, 0, 0, 0, 1, 1, 1, 1]).map (fun s => (s.request.log, s.request.crash)) =
      some ([.issue 0 0 [[97]] false, .issue 0 1 [[9]] true, .called 0 1,
        .parse ⟨[9], some [7], 1, 2, 0, false⟩ (some (1, 0)), .mergeFailed], some (.fault .nullDeref)) := by
    decide
  obtain ⟨s, hs, hend⟩ := Option.map_eq_some_iff.1 hend
  obtain ⟨hlog, hcrash⟩ := Prod.mk.inj hend
  exact ⟨s, hs, hcrash, by rw [hlog]; decide, by rw [hlog]; decide⟩

/-- The second batch is refused. -/
theorem merge_safe_second : ∃ s, Machine.run (Serving.step sampleEnv)
      (twoKeys.doService sampleEnv () (refusing 1)) [0, 0, 0, 0, 1, 0, 0, 1, 1, 1, 1, 1, 1] = some s ∧
    .issue 0 1 [[9]] false ∈ s.request.log ∧ s.request.crash = none ∧
    s.request.log.count .process = 1 ∧ s.request.log.count .output = 1 := by
  have hend : (Machine.run (Serving.step sampleEnv) (twoKeys.doService sampleEnv () (refusing 1))
      [0, 0, 0, 0, 1, 0, 0, 1, 1, 1, 1, 1, 1]).map (fun s => (s.request.threads, s.request.log)) =
      some ([[], []], [.issue 0 0 [[97]] true, .issue 0 1 [[9]] false, .called 0 0,
        .parse ⟨[97], some [7], 0, 2, 0, false⟩ (some (0, 0)), .cacheSet [97] [7] 0 0 0, .merged, .process,
        .output]) := by
    decide
  obtain ⟨s, hs, hend⟩ := Option.map_eq_some_iff.1 hend
  obtain ⟨hthreads, hlog⟩ := Prod.mk.inj hend
  have hfits : (refusing 1).Fits sampleEnv (twoKeys.doService sampleEnv () (refusing 1)).node.fetchInfoVec := by
    rintro j i info ⟨-, ha, -, hi⟩
    have hvalues : ((refusing 1).reply j i).values.length = 1 := rfl
    have hstep := info.step_pos sampleEnv_batchSize ha.keys
    unfold FetchInfo.batch
    rw [hvalues, List.length_take, List.length_drop]
    omega
  have hserved : Served sampleEnv (twoKeys.doService sampleEnv () (refusing 1)).node.fetchInfoVec (refusing 1) :=
    fun _ _ _ _ => rfl
  obtain ⟨hcrash, -, hdone⟩ := (merge_safe_iff sampleEnv_noThrow.cachedNoThrow sampleEnv_batchSize
    (fun _ _ _ => by simp [refusing]) hfits).2 hserved _ s hs
  refine ⟨s, hs, by rw [hlog]; decide, hcrash, hdone fun t => ?_⟩
  -- both threads have come to their end
  unfold Serving.step
  rw [hcrash, hthreads]
  rcases t with _ | _ | t <;> rfl

end Graphize
