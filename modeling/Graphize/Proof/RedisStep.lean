import Graphize.Proof.RedisEvents
import Graphize.Lib.Threads

/-!
# What one step of a request does

`Act` lists, once and for all, what a step can do as long as nothing but a parse function
for a value of a reply throws (`Serving.Returns`): which operation was executed, in which
state, and every change it makes. `step_act` derives it from the code, under the `Shape`
that all reachable states have; the results on runs use only `Act`.
-/

namespace Graphize

/-! ## What is assumed of the surroundings -/

/-- The parse functions and `process_response` return normally. -/
structure RedisEnv.NoThrow {ρ : Type*} (env : RedisEnv ρ) : Prop where
  parse : ∀ log call, env.parseThrows log call = false
  process : ∀ log, env.processThrows log = false

/-- The parse functions return normally for cached values, and `process_response` does. -/
structure RedisEnv.CachedNoThrow {ρ : Type*} (env : RedisEnv ρ) : Prop where
  cached : ∀ log call, call.isCached = true → env.parseThrows log call = false
  process : ∀ log, env.processThrows log = false

theorem RedisEnv.NoThrow.cachedNoThrow {ρ : Type*} {env : RedisEnv ρ} (hn : env.NoThrow) : env.CachedNoThrow :=
  ⟨fun log call _ => hn.parse log call, hn.process⟩

/-- A response of an rpc that has not failed has a reply for its command. -/
def Backend.Replies (b : Backend) : Prop := ∀ j i, (b.reply j i).failed = false → (b.reply j i).response ≠ some []

/-! ## The state after a step -/

/-- Thread `t` goes on with `ops`, `new` threads appear, `evs` happen. -/
@[simps]
def Serving.go (s : Serving) (t : ℕ) (ops : List Op) (new : List (List Op)) (evs : List RedisEvent) : Serving :=
  { s with request := { s.request with
      threads := s.request.threads.set t ops ++ new, log := s.request.log ++ evs } }

section Fields

variable (s : Serving) (t j : ℕ) (ops : List Op) (new : List (List Op)) (evs : List RedisEvent)

@[simp] theorem go_itemSizeCond : (s.go t ops new evs).request.itemSizeCond = s.request.itemSizeCond := rfl

@[simp] theorem setItems_itemSizeCond (items : List RedisResultItem) :
    (s.setItems j items).request.itemSizeCond = s.request.itemSizeCond := rfl

@[simp] theorem setCond_itemSizeCond (c : ℤ) :
    (s.setCond c).request.itemSizeCond = s.request.itemSizeCond := rfl

@[simp] theorem setCache_itemSizeCond (c : Cache) :
    (s.setCache c).request.itemSizeCond = s.request.itemSizeCond := rfl

@[simp] theorem cachedDone_itemSizeCond : s.cachedDone.request.itemSizeCond = s.request.itemSizeCond := rfl

@[simp] theorem setItemSizeCond_itemSizeCond (c : ℤ) :
    (s.setItemSizeCond j c).request.itemSizeCond = Function.update s.request.itemSizeCond j c := rfl

end Fields

section Acts

variable {ρ : Type*} (env : RedisEnv ρ)

/-- What thread `t` does next returns normally, the parse functions for the values of a
reply apart. -/
def Serving.Returns (s : Serving) (t : ℕ) : Prop :=
  match s.request.threads[t]? with
  | some (.mergeCacheData :: _) =>
    (mergeMap s.node.fetchInfoVec s.request.resultMap
      (env.resultOrder (List.range s.request.resultMap.length)) (s.node.cache, s.request.log)).2 = .ok
  | some (.parseCachedData :: _) =>
    (callAll env (cachedCalls env s.node.fetchInfoVec s.request.cacheDataVec) s.request.log).2 = false
  | some (.processResponse :: _) => env.processThrows s.request.log = false
  | _ => True

/-- **What a step does** when it executes `op` of thread `t`, which goes on with `rest`. -/
inductive Act (s : Serving) (t : ℕ) (rest : List Op) : Op → Serving → Prop
  | skipInfo {j info} (hinfo : s.node.fetchInfoVec[j]? = some info) (hact : ¬ info.Active env) :
      Act s t rest (.fetchInfo j) (s.go t (.condDone false :: rest) [] [])
  | openInfo {j info} (hinfo : s.node.fetchInfoVec[j]? = some info) (hact : info.Active env) :
      Act s t rest (.fetchInfo j)
        (((s.setItemSizeCond j (info.batches env)).setItems j (List.replicate (info.batches env) {})).go t
          (.issue j 0 (info.step env) :: rest) [] [])
  | roundsEnd {j i step info} (hinfo : s.node.fetchInfoVec[j]? = some info) (hi : info.keys.length ≤ i) :
      Act s t rest (.issue j i step) (s.go t rest [] [])
  | accept {j i step info key} (hinfo : s.node.fetchInfoVec[j]? = some info) (hkey : info.keys[i]? = some key)
      (hacc : s.request.backend.accepts j i = true) :
      Act s t rest (.issue j i step) (s.go t (.issue j (i + step) step :: rest)
        [[.callback j i step key, .itemDone j true, .endTry j]]
        [.issue j i ((info.keys.drop i).take step) true])
  | refuse {j i step info key} (hinfo : s.node.fetchInfoVec[j]? = some info) (hkey : info.keys[i]? = some key)
      (hacc : s.request.backend.accepts j i = false) :
      Act s t rest (.issue j i step) (s.go t (.itemDone j false :: .issue j (i + step) step :: rest) []
        [.issue j i ((info.keys.drop i).take step) false])
  | callback {j i step key info items item item' evs} {tail : List Op}
      (hinfo : s.node.fetchInfoVec[j]? = some info) (hitems : s.request.resultMap[j]? = some items)
      (hitem : items[i / step]? = some item)
      (hfill : fillItem info j i step key (s.request.backend.reply j i) item = .ok item')
      (hrest : rest = [.itemDone j true, .endTry j]) (htail : tail = [.endTry j] ∨ tail = [])
      -- a parse function that throws ends the calls
      (hevs : evs <+: itemParses env info j (i / step) items.length item')
      (hall : (∀ log call, env.parseThrows log call = false) →
        evs = itemParses env info j (i / step) items.length item') :
      Act s t rest (.callback j i step key)
        ((s.setItems j (items.set (i / step) item')).go t (.itemDone j true :: tail) []
          (.called j i :: evs))
  | endTry {j} : Act s t rest (.endTry j) (s.go t rest [] [])
  | itemDone {j sendRpc} (hc : s.request.itemSizeCond j ≠ 1) :
      Act s t rest (.itemDone j sendRpc)
        ((s.setItemSizeCond j (s.request.itemSizeCond j - 1)).go t rest [] [])
  | lastItemDone {j sendRpc} (hc : s.request.itemSizeCond j = 1) :
      Act s t rest (.itemDone j sendRpc) ((s.setItemSizeCond j 0).go t (.condDone sendRpc :: rest) [] [])
  | condDone {sendRpc} (hc : s.request.cond ≠ 1) :
      Act s t rest (.condDone sendRpc) ((s.setCond (s.request.cond - 1)).go t rest [] [])
  | lastCondDone {sendRpc} (hc : s.request.cond = 1) :
      Act s t rest (.condDone sendRpc)
        ((s.setCond 0).go t (finishOps s.request.promise sendRpc ++ rest) [] [])
  | merge {cache evs}
      (hmerge : mergeMap s.node.fetchInfoVec s.request.resultMap
        (env.resultOrder (List.range s.request.resultMap.length)) (s.node.cache, s.request.log) =
          ((cache, s.request.log ++ evs), .ok)) :
      Act s t rest .mergeCacheData ((s.setCache cache).go t rest [] (evs ++ [.merged]))
  | parseCached {done} (hprom : s.request.promise = some done) :
      Act s t rest .parseCachedData (s.cachedDone.go t rest []
        ((cachedCalls env s.node.fetchInfoVec s.request.cacheDataVec).map fun call => .parse call none))
  | wait (hprom : s.request.promise ≠ some false) : Act s t rest .wait (s.go t rest [] [])
  | process : Act s t rest .processResponse (s.go t rest [] [.process])
  | output : Act s t rest .runOutputNodes (s.go t rest [] [.output])
  | cachedTail : Act s t rest .cachedTail
      (s.go t ((if s.request.cacheDataVec = [] then [] else [.parseCachedData]) ++ rest) [] [])

/-! ## The shape of reachable states -/

/-- Fetch info `j` has its result items, and `i` is where one of its batches would start. -/
def Serving.InBatch (s : Serving) (j i step : ℕ) (info : FetchInfo) : Prop :=
  s.node.fetchInfoVec[j]? = some info ∧ info.Active env ∧ step = info.step env ∧ (∃ m, i = m * step) ∧
    ∃ items, s.request.resultMap[j]? = some items ∧ items.length = info.batches env

/-- What holds of an operation that is still to be executed. -/
def Op.Fits (s : Serving) : Op → Prop
  | .fetchInfo j => j < s.node.fetchInfoVec.length
  | .issue j i step => ∃ info, s.InBatch env j i step info
  | .callback j i step key => ∃ info, s.InBatch env j i step info ∧ info.keys[i]? = some key
  | .itemDone j _ => j < s.node.fetchInfoVec.length
  | .parseCachedData => s.request.promise.isSome
  | _ => True

def Op.isCallback : Op → Bool
  | .callback _ _ _ _ => true
  | _ => false

/-- A callback is the first operation of its thread. -/
def CallbackFirst : List Op → Prop
  | [] => True
  | .callback j _ _ _ :: rest => rest = [.itemDone j true, .endTry j]
  | _ :: rest => ∀ op ∈ rest, op.isCallback = false

/-- What holds in every state that a request can reach. -/
structure Shape (s : Serving) : Prop where
  crash : s.request.crash = none
  maps : s.request.resultMap.length = s.node.fetchInfoVec.length
  fits : ∀ ops ∈ s.request.threads, ∀ op ∈ ops, op.Fits env s
  first : ∀ ops ∈ s.request.threads, CallbackFirst ops
  promise : s.request.promise = some false ↔ s.request.cacheDataVec ≠ []

variable {env} {s s' : Serving} {t : ℕ} {op : Op} {rest : List Op}

theorem CallbackFirst.tail (h : CallbackFirst (op :: rest)) : ∀ op' ∈ rest, op'.isCallback = false := by
  cases op with
  | callback j i step key =>
    unfold CallbackFirst at h
    subst h
    simp [Op.isCallback]
  | _ => exact h

theorem callbackFirst_of_forall {ops : List Op} (h : ∀ op ∈ ops, op.isCallback = false) :
    CallbackFirst ops := by
  cases ops with
  | nil => trivial
  | cons op rest =>
    have hop := h op List.mem_cons_self
    cases op with
    | callback j i step key => simp [Op.isCallback] at hop
    | _ => exact fun op' h' => h op' (List.mem_cons_of_mem _ h')

/-! ## The step -/

theorem setThread_eq_go (s : Serving) (t : ℕ) (ops : List Op) : s.setThread t ops = s.go t ops [] [] := by
  simp [Serving.setThread, Serving.go]

theorem addLog_setThread (s : Serving) (t : ℕ) (ops : List Op) (evs : List RedisEvent) :
    (s.addLog evs).setThread t ops = s.go t ops [] evs := by
  simp [Serving.setThread, Serving.go, Serving.addLog]

theorem act_fetchInfo (hb : env.BatchSizeOK) {j : ℕ} (hj : j < s.node.fetchInfoVec.length) :
    Act env s t rest (.fetchInfo j) ((execFetchInfo env s j).finish t rest) := by
  have hends := fetchInfo_ends env s j
  generalize execFetchInfo env s j = o at hends
  cases hends with
  | outOfRange hno => exact absurd (List.getElem?_eq_none_iff.1 hno) (by omega)
  | skipped hinfo hact =>
    show Act env s t rest _ (s.setThread t _)
    rw [setThread_eq_go]
    exact .skipInfo hinfo hact
  | divByZero hno => exact absurd hb hno
  | opened hinfo hact =>
    show Act env s t rest _ (Serving.setThread _ t _)
    rw [setThread_eq_go]
    exact .openInfo hinfo hact

theorem act_issue {j i step : ℕ} (ht : t < s.request.threads.length) (hf : Op.Fits env s (.issue j i step)) :
    Act env s t rest (.issue j i step) ((execIssue s j i step).finish t rest) := by
  obtain ⟨info, hinfo, -⟩ := hf
  unfold execIssue
  simp only [hinfo]
  cases hkey : info.keys[i]? with
  | none =>
    show Act env s t rest _ (s.setThread t rest)
    rw [setThread_eq_go]
    exact .roundsEnd hinfo (List.getElem?_eq_none_iff.1 hkey)
  | some key =>
    cases hacc : s.request.backend.accepts j i with
    | true =>
      have hgo : ∀ evs new ops, ((s.addLog evs).addThread new).setThread t ops = s.go t ops [new] evs := by
        intro evs new ops
        unfold Serving.addThread Serving.setThread Serving.go Serving.addLog
        simp only [List.set_append_left _ _ ht]
      show Act env s t rest _ (((s.addLog _).addThread _).setThread t _)
      rw [hgo]
      exact .accept hinfo hkey hacc
    | false =>
      show Act env s t rest _ ((s.addLog _).setThread t _)
      rw [addLog_setThread]
      exact .refuse hinfo hkey hacc

theorem fillItem_ok {rpc : RpcReply} (hr : rpc.failed = false → rpc.response ≠ some [])
    (info : FetchInfo) (j i step : ℕ) (key : Bytes) (item : RedisResultItem) :
    ∃ item', fillItem info j i step key rpc item = .ok item' := by
  unfold fillItem
  by_cases hf : rpc.failed = true
  · exact ⟨_, if_pos hf⟩
  · have hne := hr (by simpa using hf)
    simp only [if_neg hf]
    unfold checkSucRpcResponse
    split
    all_goals first | exact ⟨_, rfl⟩ | contradiction

theorem act_callback (hr : s.request.backend.Replies) (hb : env.BatchSizeOK)
    {j i step : ℕ} {key : Bytes} (hf : Op.Fits env s (.callback j i step key))
    (hrest : rest = [.itemDone j true, .endTry j]) :
    Act env s t rest (.callback j i step key) ((execCallback env s j i step key).finish t rest) := by
  subst hrest
  obtain ⟨info, ⟨hinfo, hact, hstep, ⟨m, hm⟩, items, hitems, hlen⟩, hkey⟩ := hf
  have hi : i < info.keys.length := (List.getElem?_eq_some_iff.1 hkey).1
  have hplace : i / step < items.length := by
    rw [hlen, hm, hstep, Nat.mul_div_cancel _ (info.step_pos hb hact.keys),
      info.lt_batches_iff hb hact.keys, ← hstep, ← hm]
    exact hi
  obtain ⟨item, hitem⟩ : ∃ item, items[i / step]? = some item := ⟨_, List.getElem?_eq_getElem hplace⟩
  have hends := callback_ends env s j i step key
  generalize execCallback env s j i step key = o at hends
  cases hends with
  | outOfRange hno =>
    rw [hinfo, hitems] at hno
    simp at hno
  | noItem hitems' hno =>
    obtain rfl := Option.some.inj (hitems.symm.trans hitems')
    rw [hno] at hitem
    exact absurd hitem (by simp)
  | badReply hinfo' hno =>
    obtain rfl := Option.some.inj (hinfo.symm.trans hinfo')
    obtain ⟨item', hfill⟩ := fillItem_ok (hr j i) info j i step key _
    rw [hfill] at hno
    exact absurd hno (by simp)
  | filled hinfo' hitems' hitem' hfill' hevs hall ho =>
    rcases ho with rfl | rfl
    · show Act env s t _ _ ((Serving.addLog _ _).setThread t _)
      rw [addLog_setThread]
      exact .callback hinfo' hitems' hitem' hfill' rfl (Or.inl rfl) hevs hall
    · show Act env s t _ _ ((Serving.addLog _ _).setThread t _)
      rw [addLog_setThread]
      exact .callback hinfo' hitems' hitem' hfill' rfl (Or.inr rfl) hevs hall

/-- A merge that fails says so in the log. -/
theorem merge_returns (hm : .mergeFailed ∉ ((execMerge env s).finish t rest).request.log) :
    (mergeMap s.node.fetchInfoVec s.request.resultMap
      (env.resultOrder (List.range s.request.resultMap.length)) (s.node.cache, s.request.log)).2 = .ok := by
  unfold execMerge at hm
  rcases hmerge : mergeMap s.node.fetchInfoVec s.request.resultMap
    (env.resultOrder (List.range s.request.resultMap.length)) (s.node.cache, s.request.log) with
    ⟨⟨cache, log⟩, e⟩
  rw [hmerge] at hm
  cases e with
  | ok => rfl
  | throw =>
    exfalso
    apply hm
    simp only [Outcome.finish]
    cases unwind rest with
    | none => simp
    | some ops => simp
  | nullDeref => simp [Outcome.finish] at hm

theorem act_merge (hm : (mergeMap s.node.fetchInfoVec s.request.resultMap
    (env.resultOrder (List.range s.request.resultMap.length)) (s.node.cache, s.request.log)).2 = .ok) :
    Act env s t rest .mergeCacheData ((execMerge env s).finish t rest) := by
  obtain ⟨evs, hevs, -⟩ := mergeMap_log s.node.fetchInfoVec s.request.resultMap
    (env.resultOrder (List.range s.request.resultMap.length)) (s.node.cache, s.request.log)
  unfold execMerge
  rcases hmerge : mergeMap s.node.fetchInfoVec s.request.resultMap
    (env.resultOrder (List.range s.request.resultMap.length)) (s.node.cache, s.request.log) with
    ⟨⟨cache, log⟩, e⟩
  rw [hmerge] at hevs hm
  simp only at hevs hm
  subst hevs hm
  have : Act env s t rest _ _ := .merge hmerge
  simpa [Outcome.finish, Serving.go, Serving.setLog, Serving.setThread, Serving.setCache, Serving.addLog]
    using this

theorem callAll_eq : ∀ calls log, (callAll env calls log).2 = false →
    callAll env calls log = (log ++ calls.map fun call => .parse call none, false) := by
  intro calls
  induction calls with
  | nil => intro log _; simp [callAll]
  | cons call rest ih =>
    intro log h
    unfold callAll at h ⊢
    split at h
    · cases h
    · rename_i hthrow
      rw [if_neg hthrow, ih _ h, List.append_assoc, List.map_cons, List.singleton_append]

theorem callAll_returns (hn : env.CachedNoThrow) : ∀ calls log, (∀ call ∈ calls, call.isCached = true) →
    (callAll env calls log).2 = false := by
  intro calls
  induction calls with
  | nil => intro log _; rfl
  | cons call rest ih =>
    intro log h
    unfold callAll
    rw [hn.cached log call (h call List.mem_cons_self), if_neg Bool.false_ne_true]
    exact ih _ fun c hc => h c (List.mem_cons_of_mem _ hc)

theorem isCached_of_mem {infos : List FetchInfo} {cacheDataVec : List CacheDataItem} :
    ∀ call ∈ cachedCalls env infos cacheDataVec, call.isCached = true := by
  intro call hcall
  obtain ⟨item, -, hcall⟩ := List.mem_flatMap.1 hcall
  split at hcall
  · cases hcall
  · split at hcall
    · obtain ⟨e, -, rfl⟩ := List.mem_map.1 hcall
      rfl
    · cases hcall

theorem act_parseCached (hf : Op.Fits env s .parseCachedData)
    (hc : (callAll env (cachedCalls env s.node.fetchInfoVec s.request.cacheDataVec) s.request.log).2 = false) :
    Act env s t rest .parseCachedData ((execParseCached env s).finish t rest) := by
  obtain ⟨done, hdone⟩ := Option.isSome_iff_exists.1 hf
  have : Act env s t rest _ _ := .parseCached hdone
  unfold execParseCached
  simp only [callAll_eq _ _ hc, Bool.false_eq_true, if_false, Serving.setLog_request_promise, hdone]
  simpa [Outcome.finish, Serving.go, Serving.setLog, Serving.setThread, Serving.cachedDone] using this

/-- **A step is one of the acts.** -/
theorem step_act (hr : s.request.backend.Replies) (hb : env.BatchSizeOK) (hs : Shape env s)
    (hret : s.Returns env t) (h : s.step env t = some s') :
    ∃ op rest, s.request.threads[t]? = some (op :: rest) ∧ Act env s t rest op s' := by
  unfold Serving.step at h
  rw [hs.crash] at h
  simp only [Option.isSome_none, Bool.false_eq_true, if_false] at h
  cases ht : s.request.threads[t]? with
  | none => simp [ht] at h
  | some ops =>
    cases ops with
    | nil => simp [ht] at h
    | cons op rest =>
      simp only [ht, Option.ite_none_left_eq_some, Option.some.injEq] at h
      obtain ⟨hwait, rfl⟩ := h
      have hlt : t < s.request.threads.length := (List.getElem?_eq_some_iff.1 ht).1
      have hf := hs.fits _ (List.mem_of_getElem? ht) op List.mem_cons_self
      refine ⟨op, rest, rfl, ?_⟩
      unfold Serving.Returns at hret
      rw [ht] at hret
      cases op with
      | fetchInfo j => exact act_fetchInfo hb hf
      | issue j i step => exact act_issue hlt hf
      | callback j i step key => exact act_callback hr hb hf (hs.first _ (List.mem_of_getElem? ht))
      | endTry j =>
        show Act env s t rest _ (s.setThread t rest)
        rw [setThread_eq_go]
        exact .endTry
      -- the counter is compared with 1 before the decrement
      | itemDone j sendRpc =>
        show Act env s t rest _ ((s.setItemSizeCond _ _).setThread t _)
        rw [setThread_eq_go]
        by_cases hc : s.request.itemSizeCond j = 1
        · rw [if_pos hc, hc]
          exact .lastItemDone hc
        · rw [if_neg hc]
          exact .itemDone hc
      | condDone sendRpc =>
        show Act env s t rest _ ((s.setCond _).setThread t _)
        rw [setThread_eq_go]
        by_cases hc : s.request.cond = 1
        · rw [if_pos hc, hc]
          exact .lastCondDone hc
        · rw [if_neg hc]
          exact .condDone hc
      | mergeCacheData => exact act_merge hret
      | parseCachedData => exact act_parseCached hf hret
      | wait =>
        show Act env s t rest _ (s.setThread t rest)
        rw [setThread_eq_go]
        exact .wait fun hp => hwait ⟨rfl, hp⟩
      | processResponse =>
        simp only at hret
        unfold Op.exec
        rw [hret, if_neg Bool.false_ne_true]
        show Act env s t rest _ ((s.addLog _).setThread t rest)
        rw [addLog_setThread]
        exact .process
      | runOutputNodes =>
        show Act env s t rest _ ((s.addLog _).setThread t rest)
        rw [addLog_setThread]
        exact .output
      | cachedTail =>
        show Act env s t rest _ (s.setThread t _)
        rw [setThread_eq_go]
        exact .cachedTail

/-- Where these return and no merge fails, everything returns. -/
theorem returns_of_noThrow (hn : env.CachedNoThrow) (h : s.step env t = some s')
    (hm : .mergeFailed ∉ s'.request.log) : s.Returns env t := by
  unfold Serving.step at h
  split at h
  · cases h
  · unfold Serving.Returns
    cases ht : s.request.threads[t]? with
    | none => trivial
    | some ops =>
      cases ops with
      | nil => trivial
      | cons op rest =>
        simp only [ht, Option.ite_none_left_eq_some, Option.some.injEq] at h
        obtain ⟨-, rfl⟩ := h
        cases op with
        | mergeCacheData => exact merge_returns hm
        | parseCachedData => exact callAll_returns hn _ _ isCached_of_mem
        | processResponse => exact hn.process _
        | _ => trivial

/-! ## The shape is kept -/

theorem Act.frame (h : Act env s t rest op s') : s'.node.fetchInfoVec = s.node.fetchInfoVec ∧
    s'.request.backend = s.request.backend ∧ s'.request.crash = s.request.crash := by
  cases h <;> exact ⟨rfl, rfl, rfl⟩

theorem Act.maps_length (h : Act env s t rest op s') :
    s'.request.resultMap.length = s.request.resultMap.length := by
  cases h <;> simp

/-- Result items stay. -/
theorem Act.items (h : Act env s t rest op s') {j : ℕ} {info : FetchInfo}
    (hinfo : s.node.fetchInfoVec[j]? = some info) :
    (∃ items, s.request.resultMap[j]? = some items ∧ items.length = info.batches env) →
      ∃ items, s'.request.resultMap[j]? = some items ∧ items.length = info.batches env := by
  rintro ⟨items, hitems, hlen⟩
  have hj : j < s.request.resultMap.length := (List.getElem?_eq_some_iff.1 hitems).1
  cases h with
  | @openInfo j' info' hinfo' hact =>
    by_cases hjj : j' = j
    · subst hjj
      obtain rfl : info = info' := Option.some.inj (hinfo.symm.trans hinfo')
      exact ⟨_, by simpa using List.getElem?_set_self hj, by simp⟩
    · exact ⟨items, by simpa [List.getElem?_set_ne hjj] using hitems, hlen⟩
  | @callback j' i step key info' items' item item' evs tail hinfo' hitems' hitem hfill hrest htail =>
    by_cases hjj : j' = j
    · subst hjj
      obtain rfl : items = items' := Option.some.inj (hitems.symm.trans hitems')
      exact ⟨_, by simpa using List.getElem?_set_self hj, by simpa using hlen⟩
    · exact ⟨items, by simpa [List.getElem?_set_ne hjj] using hitems, hlen⟩
  | _ => exact ⟨items, hitems, hlen⟩

theorem Act.inBatch (h : Act env s t rest op s') {j i step : ℕ} {info : FetchInfo}
    (hb : s.InBatch env j i step info) : s'.InBatch env j i step info := by
  obtain ⟨hinfo, hact, hstep, hm, hitems⟩ := hb
  exact ⟨by rwa [h.frame.1], hact, hstep, hm, h.items hinfo hitems⟩

theorem Act.promise_isSome (h : Act env s t rest op s') (hp : s.request.promise.isSome) :
    s'.request.promise.isSome := by
  cases h <;> first | exact hp | rfl

theorem Act.fits (h : Act env s t rest op s') {op' : Op} (hf : op'.Fits env s) : op'.Fits env s' := by
  cases op' with
  | fetchInfo j => exact lt_of_lt_of_eq hf (by rw [h.frame.1])
  | issue j i step => obtain ⟨info, hb⟩ := hf; exact ⟨info, h.inBatch hb⟩
  | callback j i step key => obtain ⟨info, hb, hkey⟩ := hf; exact ⟨info, h.inBatch hb, hkey⟩
  | itemDone j sendRpc => exact lt_of_lt_of_eq hf (by rw [h.frame.1])
  | parseCachedData => exact h.promise_isSome hf
  | _ => trivial

theorem fits_finishOps {sendRpc : Bool} : ∀ op ∈ finishOps s.request.promise sendRpc,
    op.Fits env s ∧ op.isCallback = false := by
  intro op hop
  unfold finishOps at hop
  cases hp : s.request.promise with
  | none => simp [hp] at hop; rcases hop with rfl | rfl | rfl <;> exact ⟨trivial, rfl⟩
  | some done =>
    have hparse : Op.parseCachedData.Fits env s := by unfold Op.Fits; rw [hp]; rfl
    cases sendRpc <;> simp [hp] at hop
    · rcases hop with rfl | rfl | rfl | rfl | rfl
      · exact ⟨trivial, rfl⟩
      · exact ⟨hparse, rfl⟩
      all_goals exact ⟨trivial, rfl⟩
    · rcases hop with rfl | rfl | rfl | rfl <;> exact ⟨trivial, rfl⟩

/-- What a step puts into its thread and the thread it starts. -/
theorem Act.threads (h : Act env s t rest op s') (hf : op.Fits env s) (hs : Shape env s) :
    ∃ ops new, s'.request.threads = s.request.threads.set t ops ++ new ∧
      (∀ op' ∈ ops, op' ∈ rest ∨ (op'.Fits env s' ∧ op'.isCallback = false)) ∧
      ∀ ops' ∈ new, CallbackFirst ops' ∧ ∀ op' ∈ ops', op'.Fits env s' := by
  -- most acts only take the first operation off, or put plain ones in front
  have hsame : ∀ op' ∈ rest, op' ∈ rest ∨ (op'.Fits env s' ∧ op'.isCallback = false) := fun _ h => Or.inl h
  have hpush : ∀ push, (∀ op' ∈ push, op'.Fits env s' ∧ op'.isCallback = false) →
      ∀ op' ∈ push ++ rest, op' ∈ rest ∨ (op'.Fits env s' ∧ op'.isCallback = false) := by
    intro push hpush op' hop
    rcases List.mem_append.1 hop with hop | hop
    · exact Or.inr (hpush op' hop)
    · exact Or.inl hop
  have hcons : ∀ op', op'.Fits env s' → op'.isCallback = false →
      ∀ x ∈ op' :: rest, x ∈ rest ∨ (x.Fits env s' ∧ x.isCallback = false) :=
    fun op' h1 h2 => hpush [op'] (by simpa using ⟨h1, h2⟩)
  have hnone : ∀ ops' ∈ ([] : List (List Op)), CallbackFirst ops' ∧ ∀ op' ∈ ops', op'.Fits env s' := by simp
  cases h with
  | skipInfo => exact ⟨_, [], rfl, hcons _ trivial rfl, hnone⟩
  | @openInfo j info hinfo hact =>
    have hj : j < s.request.resultMap.length := hs.maps.symm ▸ (List.getElem?_eq_some_iff.1 hinfo).1
    exact ⟨_, [], rfl, hcons _ ⟨info, hinfo, hact, rfl, ⟨0, (Nat.zero_mul _).symm⟩,
      List.replicate (info.batches env) {}, List.getElem?_set_self hj, List.length_replicate⟩ rfl, hnone⟩
  -- the loop goes on at the next multiple of the batch size; the callback has a thread of its own
  | @accept j i step info key hinfo hkey hacc =>
    obtain ⟨info', hb⟩ := hf
    obtain rfl : info = info' := Option.some.inj (hinfo.symm.trans hb.1)
    obtain ⟨m, hm⟩ := hb.2.2.2.1
    refine ⟨_, _, rfl, hcons _ ⟨info, hinfo, hb.2.1, hb.2.2.1, ⟨m + 1, ?_⟩, hb.2.2.2.2⟩ rfl, ?_⟩
    · rw [hm, Nat.succ_mul]
    · intro ops' hops
      obtain rfl := List.mem_singleton.1 hops
      refine ⟨rfl, ?_⟩
      have hj : j < s.node.fetchInfoVec.length := (List.getElem?_eq_some_iff.1 hinfo).1
      intro op' hop
      simp only [List.mem_cons, List.not_mem_nil, or_false] at hop
      rcases hop with rfl | rfl | rfl
      · exact ⟨info, hb, hkey⟩
      · exact hj
      · trivial
  | @refuse j i step info key hinfo hkey hacc =>
    obtain ⟨info', hb⟩ := hf
    obtain rfl : info = info' := Option.some.inj (hinfo.symm.trans hb.1)
    obtain ⟨m, hm⟩ := hb.2.2.2.1
    have hj : j < s.node.fetchInfoVec.length := (List.getElem?_eq_some_iff.1 hinfo).1
    refine ⟨_, [], rfl, hpush [_, _] ?_, hnone⟩
    intro op' hop
    simp only [List.mem_cons, List.not_mem_nil, or_false] at hop
    rcases hop with rfl | rfl
    · exact ⟨hj, rfl⟩
    · exact ⟨⟨info, hinfo, hb.2.1, hb.2.2.1, ⟨m + 1, by rw [hm, Nat.succ_mul]⟩, hb.2.2.2.2⟩, rfl⟩
  | @callback j i step key info items item item' evs tail hinfo hitems hitem hfill hrest htail =>
    refine ⟨_, [], rfl, ?_, hnone⟩
    intro op' hop
    rw [hrest]
    rcases List.mem_cons.1 hop with rfl | hop
    · exact Or.inl (by simp)
    · rcases htail with rfl | rfl
      · exact Or.inl (by simpa using Or.inr (List.mem_singleton.1 hop))
      · simp at hop
  | lastItemDone => exact ⟨_, [], rfl, hcons _ trivial rfl, hnone⟩
  | lastCondDone => exact ⟨_, [], rfl, hpush _ fits_finishOps, hnone⟩
  | cachedTail =>
    refine ⟨_, [], rfl, hpush _ ?_, hnone⟩
    intro op' hop
    by_cases hc : s.request.cacheDataVec = []
    · simp [hc] at hop
    · rw [if_neg hc] at hop
      obtain rfl := List.mem_singleton.1 hop
      exact ⟨by unfold Op.Fits; simp [hs.promise.2 hc], rfl⟩
  | _ => exact ⟨_, [], rfl, hsame, hnone⟩

/-- **Every step keeps the shape.** -/
theorem Shape.step (hs : Shape env s) (ht : s.request.threads[t]? = some (op :: rest))
    (h : Act env s t rest op s') : Shape env s' := by
  have hmem := List.mem_of_getElem? ht
  obtain ⟨ops, new, hths, hops, hnew⟩ := h.threads (hs.fits _ hmem op List.mem_cons_self) hs
  have hrest : ∀ op' ∈ rest, op'.Fits env s' ∧ op'.isCallback = false := fun op' hop =>
    ⟨h.fits (hs.fits _ hmem op' (List.mem_cons_of_mem _ hop)), (hs.first _ hmem).tail op' hop⟩
  have hops' : ∀ op' ∈ ops, op'.Fits env s' ∧ op'.isCallback = false := fun op' hop =>
    (hops op' hop).elim (hrest op') id
  have hall : ∀ x ∈ s'.request.threads, CallbackFirst x ∧ ∀ op' ∈ x, op'.Fits env s' := by
    intro x hx
    rw [hths] at hx
    rcases Threads.mem_set_append hx with hx | rfl | hx
    · exact ⟨hs.first x hx, fun op' hop => h.fits (hs.fits x hx op' hop)⟩
    · exact ⟨callbackFirst_of_forall fun op' hop => (hops' op' hop).2, fun op' hop => (hops' op' hop).1⟩
    · exact hnew x hx
  exact {
    crash := by rw [h.frame.2.2, hs.crash]
    maps := by rw [h.maps_length, h.frame.1, hs.maps]
    fits := fun x hx => (hall x hx).2
    first := fun x hx => (hall x hx).1
    promise := by
      cases h with
      | parseCached => simp
      | _ => exact hs.promise }

end Acts

end Graphize
