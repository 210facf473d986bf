import Graphize.Proof.RedisRuns

/-!
# The result items

`Items`: an item of `result_map` is either untouched or what the callback of its batch has
made of it, and a callback makes the calls that its reply calls for. `items_doService`,
`Items.step`: this holds at first, and a step keeps it.
-/

namespace Graphize

open Threads

section

variable {ρ : Type*} (env : RedisEnv ρ)

/-- The call made for an element of a reply. -/
def rpcCall : RedisEvent → Option ParseCall
  | .parse call (some _) => some call
  | _ => none

/-- The batch whose callback runs. -/
def calledBatch : RedisEvent → Option (ℕ × ℕ)
  | .called j i => some (j, i)
  | _ => none

/-- The item that the callback of the batch at `i` of fetch info `j` leaves. -/
def FetchInfo.item (info : FetchInfo) (backend : Backend) (j i : ℕ) : Except Fault RedisResultItem :=
  fillItem info j i (info.step env) (info.keys.getD i []) (backend.reply j i) {}

/-- The calls that it makes. -/
def batchCalls (vec : List FetchInfo) (backend : Backend) (b : ℕ × ℕ) : List ParseCall :=
  match vec[b.1]? with
  | none => []
  | some info =>
    match info.item env backend b.1 b.2 with
    | .error _ => []
    | .ok item => (itemParses env info b.1 (b.2 / info.step env) (info.batches env) item).filterMap rpcCall

/-- What `result_map` and the log say about the replies. -/
structure Items (s : Serving) : Prop where
  active : ∀ (j : ℕ) items, s.request.resultMap[j]? = some items → items ≠ [] →
    ∃ info, s.node.fetchInfoVec[j]? = some info ∧ info.Active env
  opened : ∀ j i ks accepted, .issue j i ks accepted ∈ s.request.log →
    ∃ info, s.node.fetchInfoVec[j]? = some info ∧
      ∃ items, s.request.resultMap[j]? = some items ∧ items.length = info.batches env
  items : ∀ (j : ℕ) info items (m : ℕ) item, s.node.fetchInfoVec[j]? = some info → s.request.resultMap[j]? = some items →
    items[m]? = some item →
    (item = {} ∧ .called j (m * info.step env) ∉ s.request.log) ∨
      (.called j (m * info.step env) ∈ s.request.log ∧
        info.item env s.request.backend j (m * info.step env) = .ok item)
  merged : .merged ∈ s.request.log → ∀ (j : ℕ) info, s.node.fetchInfoVec[j]? = some info → info.Active env →
    .called j 0 ∈ s.request.log
  calls : env.NoThrow → s.request.log.filterMap rpcCall =
    (s.request.log.filterMap calledBatch).flatMap (batchCalls env s.node.fetchInfoVec s.request.backend)

variable {env} {s₀ s s' : Serving} {t : ℕ} {op : Op} {rest : List Op}

/-! ## Callbacks -/

theorem Act.mem_called (hact : Act env s t rest op s') (j i : ℕ) :
    .called j i ∈ s'.request.log ↔ .called j i ∈ s.request.log ∨ ∃ step key, op = .callback j i step key := by
  cases hact with
  | callback hinfo hitems hitem hfill hrest htail hevs =>
    have hno : RedisEvent.called j i ∉ _ := fun h => by
      obtain ⟨call, el, h⟩ := parse_of_calls hevs _ h
      cases h
    simp [hno, eq_comm]
  | @merge cache evs hmerge =>
    have hno : .called j i ∉ evs := fun h => by
      obtain ⟨items, -, item, -, ⟨⟩⟩ := merge_cacheSet hmerge _ h
    simp [hno]
  | _ => simp

/-- The callback of a batch that waits has not run yet. -/
theorem Batches.not_called (hB : Batches env s) (hs : Shape env s) {ops : List Op} (hops : ops ∈ s.request.threads)
    {j i step : ℕ} {key : Bytes} (hop : .callback j i step key ∈ ops) : .called j i ∉ s.request.log := by
  intro h
  obtain ⟨info, ⟨hinfo, hact, rfl, hm, -⟩, hkey⟩ := hs.fits _ hops _ hop
  have hlt := (List.getElem?_eq_some_iff.1 hkey).1
  have h1 := hB.once j i info ⟨hinfo, hact, hm, hlt⟩
  have h2 := hB.called j i
  have h3 := List.count_pos_iff.2 h
  have h4 : callbackW j i (.callback j i (info.step env) key) ≤ _ := op_le_total hops hop
  have h5 : s.request.log.countP (isAccepted j i) ≤ s.request.log.countP (isIssue j i) := by
    refine List.countP_mono_left fun e _ he => ?_
    cases e <;> simp_all [isAccepted, isIssue]
  simp [callbackW] at h4
  omega

/-- A callback runs after its batch has been accepted. -/
theorem Batches.accepted_of_called (hB : Batches env s) {j i : ℕ} (h : .called j i ∈ s.request.log) :
    ∃ info, IsBatch env s.node.fetchInfoVec j i info ∧ .issue j i (info.batch env i) true ∈ s.request.log ∧
      s.request.backend.accepts j i = true := by
  have h1 := hB.called j i
  have h2 := List.count_pos_iff.2 h
  obtain ⟨e, he, hp⟩ := List.countP_pos_iff.1 (by omega : 0 < s.request.log.countP (isAccepted j i))
  cases e with
  | issue j' i' ks accepted =>
    simp only [isAccepted, Bool.decide_and, Bool.decide_eq_true, Bool.and_eq_true, decide_eq_true_eq] at hp
    obtain ⟨rfl, rfl, rfl⟩ := hp
    obtain ⟨info, hi, rfl, hacc⟩ := hB.issued _ _ _ _ he
    exact ⟨info, hi, he, hacc.symm⟩
  | _ => simp [isAccepted] at hp

/-! ## Every step keeps the items -/

/-- What a callback finds: its fetch info, its place and an untouched item. -/
theorem Items.callback (hT : Items env s) (hI : Inv env s₀ s) (hb : env.BatchSizeOK)
    {j i step : ℕ} {key : Bytes} {info : FetchInfo} {items : List RedisResultItem} {item : RedisResultItem}
    (ht : s.request.threads[t]? = some (.callback j i step key :: rest))
    (hinfo : s.node.fetchInfoVec[j]? = some info) (hitems : s.request.resultMap[j]? = some items)
    (hitem : items[i / step]? = some item) :
    info.Active env ∧ step = info.step env ∧ i = i / step * step ∧ item = {} ∧ items.length = info.batches env ∧
      key = info.keys.getD i [] := by
  have hmem := List.mem_of_getElem? ht
  obtain ⟨info', ⟨hinfo', hact, rfl, ⟨m, rfl⟩, items', hitems', hlen⟩, hkey⟩ :=
    hI.shape.fits _ hmem _ List.mem_cons_self
  obtain rfl : info = info' := Option.some.inj (hinfo.symm.trans hinfo')
  obtain rfl : items = items' := Option.some.inj (hitems.symm.trans hitems')
  have hdiv : m * info.step env / info.step env = m := Nat.mul_div_cancel _ (info.step_pos hb hact.keys)
  rw [hdiv] at hitem ⊢
  refine ⟨hact, rfl, rfl, ?_, hlen, ?_⟩
  · rcases hT.items j info items m item hinfo hitems hitem with h | ⟨h, -⟩
    · exact h.1
    · exact absurd h (hI.batches.not_called hI.shape hmem List.mem_cons_self)
  · rw [List.getD_eq_getElem?_getD, hkey]
    rfl

theorem Items.active_step (hT : Items env s) (hI : Inv env s₀ s) (ht : s.request.threads[t]? = some (op :: rest))
    (hact : Act env s t rest op s') {j : ℕ} {items : List RedisResultItem}
    (hitems : s'.request.resultMap[j]? = some items) (hne : items ≠ []) :
    ∃ info, s.node.fetchInfoVec[j]? = some info ∧ info.Active env := by
  have hf := hI.shape.fits _ (List.mem_of_getElem? ht) op List.mem_cons_self
  have hold := hT.active j items
  cases hact with
  | @openInfo j' info hinfo ha =>
    by_cases hjj : j' = j
    · subst hjj
      exact ⟨info, hinfo, ha⟩
    · simp [List.getElem?_set_ne hjj] at hitems
      exact hold hitems hne
  | @callback j' i step key info items' item item' evs tail hinfo =>
    by_cases hjj : j' = j
    · subst hjj
      obtain ⟨info', hin, -⟩ := hf
      exact ⟨info', hin.1, hin.2.1⟩
    · simp [List.getElem?_set_ne hjj] at hitems
      exact hold hitems hne
  | _ => exact hold hitems hne

theorem Items.opened_step (hT : Items env s) (hI : Inv env s₀ s) (ht : s.request.threads[t]? = some (op :: rest))
    (hact : Act env s t rest op s') {j i : ℕ} {ks : List Bytes} {accepted : Bool}
    (h : .issue j i ks accepted ∈ s'.request.log) : ∃ info, s.node.fetchInfoVec[j]? = some info ∧
      ∃ items, s'.request.resultMap[j]? = some items ∧ items.length = info.batches env := by
  have hf := hI.shape.fits _ (List.mem_of_getElem? ht) op List.mem_cons_self
  by_cases hold : .issue j i ks accepted ∈ s.request.log
  · obtain ⟨info, hinfo, hitems⟩ := hT.opened j i ks accepted hold
    exact ⟨info, hinfo, hact.items hinfo hitems⟩
  -- only the loop over the batches logs that one is sent
  · obtain ⟨step, rfl⟩ : ∃ step, op = .issue j i step := by
      cases hact with
      | accept => simp [hold] at h; exact ⟨_, by rw [h.1, h.2.1]⟩
      | refuse => simp [hold] at h; exact ⟨_, by rw [h.1, h.2.1]⟩
      | callback hinfo hitems hitem hfill hrest htail hevs =>
        rcases List.mem_append.1 h with h | h
        · exact absurd h hold
        · rcases List.mem_cons.1 h with h | h
          · cases h
          · obtain ⟨call, el, h⟩ := parse_of_calls hevs _ h
            cases h
      | merge hmerge =>
        rcases List.mem_append.1 h with h | h
        · exact absurd h hold
        · rcases List.mem_append.1 h with h | h
          · obtain ⟨items, -, item, -, ⟨⟩⟩ := merge_cacheSet hmerge _ h
          · simp at h
      | _ => simp [hold] at h
    obtain ⟨info, hin⟩ := hf
    exact ⟨info, hin.1, hact.items hin.1 hin.2.2.2.2⟩

theorem Items.items_step (hT : Items env s) (hI : Inv env s₀ s) (hb : env.BatchSizeOK)
    (ht : s.request.threads[t]? = some (op :: rest)) (hact : Act env s t rest op s') {j m : ℕ} {info : FetchInfo}
    {items : List RedisResultItem} {item : RedisResultItem} (hinfo : s.node.fetchInfoVec[j]? = some info)
    (hitems : s'.request.resultMap[j]? = some items) (hitem : items[m]? = some item) :
    (item = {} ∧ .called j (m * info.step env) ∉ s'.request.log) ∨
      (.called j (m * info.step env) ∈ s'.request.log ∧
        info.item env s.request.backend j (m * info.step env) = .ok item) := by
  have hcalled := hact.mem_called j (m * info.step env)
  have hold := hT.items j info
  have hmem := List.mem_of_getElem? ht
  -- a step that leaves this item alone
  have hkeep : ∀ {olds : List RedisResultItem}, (∀ step key, op ≠ .callback j (m * info.step env) step key) →
      s.request.resultMap[j]? = some olds → olds[m]? = some item →
      (item = {} ∧ .called j (m * info.step env) ∉ s'.request.log) ∨
      (.called j (m * info.step env) ∈ s'.request.log ∧
        info.item env s.request.backend j (m * info.step env) = .ok item) := by
    intro olds hop h1 h2
    rw [hcalled]
    rcases hold olds m item hinfo h1 h2 with ⟨h3, h4⟩ | ⟨h3, h4⟩
    · exact Or.inl ⟨h3, by simp [h4, hop]⟩
    · exact Or.inr ⟨Or.inl h3, h4⟩
  cases hact with
  | @openInfo j' info' hinfo' ha =>
    by_cases hjj : j' = j
    · subst hjj
      obtain rfl : info = info' := Option.some.inj (hinfo.symm.trans hinfo')
      obtain rfl : items = List.replicate (info.batches env) {} := by
        simp [List.getElem?_set] at hitems
        exact hitems.2.symm
      refine Or.inl ⟨List.eq_of_mem_replicate (List.mem_of_getElem? hitem), fun h => ?_⟩
      obtain ⟨info', hi, hmem', -⟩ := hI.batches.accepted_of_called ((hcalled.1 h).resolve_right (by simp))
      have h1 := hI.batches.once _ _ _ hi
      have h2 : 0 < s.request.log.countP (isIssue j' (m * info.step env)) :=
        List.countP_pos_iff.2 ⟨_, hmem', by simp [isIssue]⟩
      have h3 : aheadW j' (m * info.step env) (.fetchInfo j') ≤ _ := op_le_total hmem List.mem_cons_self
      rw [aheadW, if_pos rfl] at h3
      omega
    · exact hkeep (by simp) (by simpa [List.getElem?_set_ne hjj] using hitems) hitem
  | @callback j' i step key info' items' item₀ item' evs tail hinfo' hitems' hitem' hfill =>
    by_cases hjj : j' = j
    · subst hjj
      obtain rfl : info = info' := Option.some.inj (hinfo.symm.trans hinfo')
      obtain ⟨ha, hstep, hi, rfl, -, hkey⟩ := hT.callback hI hb ht hinfo hitems' hitem'
      obtain rfl : items = items'.set (i / step) item' := by
        simp [List.getElem?_set] at hitems
        exact hitems.2.symm
      by_cases hm : m = i / step
      · subst hm
        rw [← hstep, ← hi] at hcalled ⊢
        obtain rfl : item = item' := by
          rw [List.getElem?_set_self (List.getElem?_eq_some_iff.1 hitem').1] at hitem
          exact (Option.some.inj hitem).symm
        refine Or.inr ⟨hcalled.2 (Or.inr ⟨step, key, rfl⟩), ?_⟩
        unfold FetchInfo.item
        rw [← hkey, ← hstep, hfill]
      · refine hkeep (fun step' key' h => hm ?_) hitems' (by rwa [List.getElem?_set_ne (Ne.symm hm)] at hitem)
        simp only [Op.callback.injEq] at h
        rw [h.2.1, hstep, Nat.mul_div_cancel _ (info.step_pos hb ha.keys)]
    · refine hkeep (fun _ _ h => hjj ?_) (by simpa [List.getElem?_set_ne hjj] using hitems) hitem
      simp only [Op.callback.injEq] at h
      exact h.1
  | _ => exact hkeep (by simp) hitems hitem

/-- **A merge that ends normally** finds the first item of every fetch info filled. -/
theorem Items.merged_step (hT : Items env s) (hI : Inv env s₀ s) (hb : env.BatchSizeOK)
    (ht : s.request.threads[t]? = some (op :: rest)) (hact : Act env s t rest op s')
    (hm : .merged ∈ s'.request.log) {j : ℕ} {info : FetchInfo} (hinfo : s.node.fetchInfoVec[j]? = some info)
    (ha : info.Active env) : .called j 0 ∈ s'.request.log := by
  rw [hact.mem_called]
  by_cases hold : .merged ∈ s.request.log
  · exact Or.inl (hT.merged hold j info hinfo ha)
  · left
    obtain rfl := hact.of_token hold .merge hm
    have hcond := hI.cond_le (List.mem_of_getElem? ht) .merge List.mem_cons_self
    have hbatch : IsBatch env s.node.fetchInfoVec j 0 info :=
      ⟨hinfo, ha, ⟨0, (Nat.zero_mul _).symm⟩, List.length_pos_iff.2 ha.keys⟩
    -- all batches are done at the merge, the first one of this fetch info with them
    obtain ⟨ks, accepted, hissue⟩ : ∃ ks accepted, .issue j 0 ks accepted ∈ s.request.log := by
      rcases hI.batches_done hb hcond (hI.vec ▸ hbatch) with h | ⟨h, -⟩
      · exact ⟨_, _, h⟩
      · exact ⟨_, _, h⟩
    obtain ⟨info', hinfo', items, hitems, hlen⟩ := hT.opened j 0 ks accepted hissue
    obtain rfl : info = info' := Option.some.inj (hinfo.symm.trans hinfo')
    have hpos := info.batches_pos hb ha.keys
    cases items with
    | nil => simp at hlen; omega
    | cons first items =>
      have hj : j ∈ env.resultOrder (List.range s.request.resultMap.length) :=
        (env.resultOrder_perm _).mem_iff.2 (List.mem_range.2 (List.getElem?_eq_some_iff.1 hitems).1)
      cases hact with
      | merge hmerge =>
        have hfilled := first_of_mergeMap_ok _ _ (by rw [hmerge]) j hj first items hitems
        rcases hT.items j info _ 0 first hinfo hitems rfl with ⟨rfl, -⟩ | ⟨h, -⟩
        · simp [RedisResultItem.Filled] at hfilled
        · simpa using h

theorem Items.calls_step (hn : env.NoThrow) (hT : Items env s) (hI : Inv env s₀ s) (hb : env.BatchSizeOK)
    (ht : s.request.threads[t]? = some (op :: rest)) (hact : Act env s t rest op s') :
    s'.request.log.filterMap rpcCall = (s'.request.log.filterMap calledBatch).flatMap
      (batchCalls env s.node.fetchInfoVec s.request.backend) := by
  -- an act that logs no call and no parse of a reply
  have hquiet : ∀ evs, s'.request.log = s.request.log ++ evs →
      (∀ e ∈ evs, rpcCall e = none ∧ calledBatch e = none) →
      s'.request.log.filterMap rpcCall = (s'.request.log.filterMap calledBatch).flatMap
        (batchCalls env s.node.fetchInfoVec s.request.backend) := by
    intro evs hevs hnone
    rw [hevs, List.filterMap_append, List.filterMap_append, hT.calls hn,
      List.filterMap_eq_nil_iff.2 fun e he => (hnone e he).1,
      List.filterMap_eq_nil_iff.2 fun e he => (hnone e he).2, List.append_nil, List.append_nil]
  cases hact with
  | @callback j i step key info items item item' evs tail hinfo hitems hitem hfill hrest htail hevs hall =>
    obtain rfl := hall hn.parse
    obtain ⟨ha, hstep, hi, rfl, hlen, hkey⟩ := hT.callback hI hb ht hinfo hitems hitem
    have hbatch : batchCalls env s.node.fetchInfoVec s.request.backend (j, i) =
        (itemParses env info j (i / step) items.length item').filterMap rpcCall := by
      unfold batchCalls FetchInfo.item
      simp only [hinfo, ← hkey, ← hstep, ← hlen, hfill]
    have hno : (itemParses env info j (i / step) items.length item').filterMap calledBatch = [] := by
      refine List.filterMap_eq_nil_iff.2 fun e he => ?_
      obtain ⟨call, el, rfl⟩ := itemParses_parse e he
      rfl
    rw [Serving.go_request_log, Serving.setItems_request_log, List.filterMap_append, List.filterMap_append,
      List.filterMap_cons_none rfl, List.filterMap_cons_some (f := calledBatch) rfl, hno, hT.calls hn,
      List.flatMap_append, List.flatMap_singleton, hbatch]
  | accept => exact hquiet _ rfl (by simp [rpcCall, calledBatch])
  | refuse => exact hquiet _ rfl (by simp [rpcCall, calledBatch])
  | merge hmerge =>
    refine hquiet _ rfl fun e he => ?_
    rcases List.mem_append.1 he with he | he
    · obtain ⟨items, -, item, -, ⟨-, -, -, -⟩⟩ := merge_cacheSet hmerge e he
      exact ⟨rfl, rfl⟩
    · rw [List.mem_singleton.1 he]
      exact ⟨rfl, rfl⟩
  | parseCached =>
    refine hquiet _ rfl fun e he => ?_
    obtain ⟨call, -, rfl⟩ := List.mem_map.1 he
    exact ⟨rfl, rfl⟩
  | process => exact hquiet _ rfl (by simp [rpcCall, calledBatch])
  | output => exact hquiet _ rfl (by simp [rpcCall, calledBatch])
  | _ => exact hquiet [] (by simp) (by simp)

/-- **Every step keeps the items.** -/
theorem Items.step (hT : Items env s) (hI : Inv env s₀ s) (hb : env.BatchSizeOK)
    (ht : s.request.threads[t]? = some (op :: rest)) (hact : Act env s t rest op s') : Items env s' := by
  have hvec := hact.frame.1
  have hbackend := hact.frame.2.1
  refine ⟨?_, ?_, ?_, ?_, ?_⟩
  · rw [hvec]
    exact fun j items => hT.active_step hI ht hact
  · rw [hvec]
    exact fun j i ks accepted => hT.opened_step hI ht hact
  · rw [hvec, hbackend]
    exact fun j info items m item => hT.items_step hI hb ht hact
  · rw [hvec]
    exact fun hm j info => hT.merged_step hI hb ht hact hm
  · rw [hvec, hbackend]
    exact fun hn => hT.calls_step hn hI hb ht hact

variable {node : RedisNode} {req : ρ} {backend : Backend}

theorem items_doService : Items env (node.doService env req backend) := by
  rcases doService_cases env node req backend with ⟨-, h⟩ | ⟨vec, cacheDataVec, -, -, h⟩ <;> rw [h]
  · exact ⟨by simp, by simp, by simp, by simp, fun _ => rfl⟩
  · refine ⟨fun j items hitems hne => ?_, by simp, fun j info items m item _ hitems hitem => ?_, by simp, fun _ => rfl⟩
    · exact absurd (List.eq_of_mem_replicate (List.mem_of_getElem? hitems)) hne
    · rw [List.eq_of_mem_replicate (List.mem_of_getElem? hitems)] at hitem
      simp at hitem

end

end Graphize
