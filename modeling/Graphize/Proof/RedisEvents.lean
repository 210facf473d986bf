import Graphize.Proof.Batching
import Graphize.Proof.RedisMerge

/-!
# What a step logs

Nothing is assumed here: the user's functions may throw and the node may have been
changed by other requests.

* `fetchInfo_ends`, `callback_ends`: every way in which these two end.
* `step_log`: a step adds to the log, and only what its operation `Emits`.
-/

namespace Graphize

variable {ρ : Type*} (env : RedisEnv ρ)

/-- The call of the parse function for value `k` of an item of fetch info `j`. -/
inductive ParseOf (info : FetchInfo) (j sliceIndex sliceSize : ℕ) (item : RedisResultItem) : RedisEvent → Prop
  | parse {k key v} (hkey : info.keys[item.startIndex + k]? = some key) (hval : item.resultStrVec[k]? = some v) :
      ParseOf info j sliceIndex sliceSize item
        (.parse ⟨key, parseValue env info v, sliceIndex, sliceSize, j, false⟩ (some (item.startIndex, k)))

/-- The calls of a parse function for the values of a batch, from element `k` on. -/
def parseEvents (info : FetchInfo) (j start sliceIndex sliceSize : ℕ) :
    List (Option Bytes) → ℕ → List RedisEvent
  | [], _ => []
  | value :: rest, k =>
    match info.keys[start + k]? with
    | none => []
    | some key =>
      .parse ⟨key, parseValue env info value, sliceIndex, sliceSize, j, false⟩ (some (start, k)) ::
        parseEvents info j start sliceIndex sliceSize rest (k + 1)

/-- The calls made by the callback of a batch. -/
def itemParses (info : FetchInfo) (j sliceIndex sliceSize : ℕ) (item : RedisResultItem) : List RedisEvent :=
  if env.enableParalParse then parseEvents env info j item.startIndex sliceIndex sliceSize item.resultStrVec 0
  else []

/-- What an operation may log in state `s`. -/
inductive Emits (s : Serving) : Op → RedisEvent → Prop
  | issue {j i step info key} (hinfo : s.node.fetchInfoVec[j]? = some info) (hkey : info.keys[i]? = some key) :
      Emits s (.issue j i step)
        (.issue j i ((info.keys.drop i).take step) (s.request.backend.accepts j i))
  | called {j i step key} : Emits s (.callback j i step key) (.called j i)
  | parse {j i step key info items item item' e} (hpar : env.enableParalParse = true)
      (hinfo : s.node.fetchInfoVec[j]? = some info)
      (hitems : s.request.resultMap[j]? = some items) (hitem : items[i / step]? = some item)
      (hfill : fillItem info j i step key (s.request.backend.reply j i) item = .ok item')
      (he : ParseOf env info j (i / step) items.length item' e) : Emits s (.callback j i step key) e
  | write {e} (he : CachedWrite s.node.fetchInfoVec s.request.resultMap e) : Emits s .mergeCacheData e
  | merged : Emits s .mergeCacheData .merged
  | mergeFailed : Emits s .mergeCacheData .mergeFailed
  | cached {call} : Emits s .parseCachedData (.parse call none)
  | process : Emits s .processResponse .process
  | output : Emits s .runOutputNodes .output

/-- The state in which an operation ends. -/
def Outcome.state : Outcome → Serving
  | .next s _ => s
  | .throw s => s
  | .fault s _ => s

variable {s s' : Serving} {t : ℕ}

theorem finish_log (o : Outcome) (t : ℕ) (ops : List Op) :
    (o.finish t ops).request.log = o.state.request.log := by
  cases o with
  | next s push => rfl
  | throw s =>
    unfold Outcome.finish
    cases unwind ops with
    | none => rfl
    | some ops' => rfl
  | fault s f => rfl

/-- The calls of a parse function for the values of a batch, up to the one that throws. -/
theorem parseLoop_log (info : FetchInfo) (j start sliceIndex sliceSize : ℕ) :
    ∀ values k log, ∃ evs, (parseLoop env info j start sliceIndex sliceSize values k log).1 = log ++ evs ∧
      evs <+: parseEvents env info j start sliceIndex sliceSize values k ∧
      ((∀ log call, env.parseThrows log call = false) →
        evs = parseEvents env info j start sliceIndex sliceSize values k) := by
  intro values
  induction values with
  | nil => intro k log; exact ⟨[], by simp [parseLoop], by simp, fun _ => rfl⟩
  | cons value rest ih =>
    intro k log
    unfold parseLoop parseEvents
    cases info.keys[start + k]? with
    | none => exact ⟨[], by simp, by simp, fun _ => rfl⟩
    | some key =>
      simp only
      set call : ParseCall := ⟨key, parseValue env info value, sliceIndex, sliceSize, j, false⟩ with hcall
      by_cases hthrow : env.parseThrows log call = true
      · refine ⟨[.parse call (some (start, k))], by rw [if_pos hthrow], ?_, fun hn => ?_⟩
        · exact List.prefix_append [_] _
        · rw [hn] at hthrow; cases hthrow
      · obtain ⟨evs, h1, h2, h3⟩ := ih (k + 1) (log ++ [.parse call (some (start, k))])
        refine ⟨.parse call (some (start, k)) :: evs, ?_, ?_, fun hn => by rw [h3 hn]⟩
        · rw [if_neg hthrow, h1, List.append_assoc, List.singleton_append]
        · exact (List.cons_prefix_cons).2 ⟨rfl, h2⟩

theorem mem_parseEvents {info : FetchInfo} {j sliceIndex sliceSize : ℕ} {item : RedisResultItem} :
    ∀ values k, (∀ l v, values[l]? = some v → item.resultStrVec[k + l]? = some v) →
      ∀ e ∈ parseEvents env info j item.startIndex sliceIndex sliceSize values k,
        ParseOf env info j sliceIndex sliceSize item e := by
  intro values
  induction values with
  | nil => intro k _ e he; exact absurd he List.not_mem_nil
  | cons value rest ih =>
    intro k hv e he
    have hrest : ∀ l v, rest[l]? = some v → item.resultStrVec[k + 1 + l]? = some v := by
      intro l v h
      have := hv (l + 1) v (by simpa using h)
      rwa [Nat.add_assoc, Nat.add_comm 1 l]
    unfold parseEvents at he
    cases hkey : info.keys[item.startIndex + k]? with
    | none =>
      simp only [hkey] at he
      exact absurd he List.not_mem_nil
    | some key =>
      simp only [hkey] at he
      rcases List.mem_cons.1 he with rfl | he
      · exact .parse hkey (hv 0 value rfl)
      · exact ih (k + 1) hrest e he

variable {env} in
/-- The calls that a callback makes are calls for values of its reply. -/
theorem parseOf_of_mem {info : FetchInfo} {j sliceIndex sliceSize : ℕ} {item : RedisResultItem} {e : RedisEvent}
    (he : e ∈ itemParses env info j sliceIndex sliceSize item) :
    env.enableParalParse = true ∧ ParseOf env info j sliceIndex sliceSize item e := by
  unfold itemParses at he
  by_cases hp : env.enableParalParse = true
  · rw [if_pos hp] at he
    exact ⟨hp, mem_parseEvents env _ 0 (fun l v h => by rwa [Nat.zero_add]) e he⟩
  · rw [if_neg hp] at he
    exact absurd he List.not_mem_nil

theorem callAll_events : ∀ calls log, ∃ evs, (callAll env calls log).1 = log ++ evs ∧
    ∀ e ∈ evs, ∃ call, e = .parse call none := by
  intro calls
  induction calls with
  | nil => intro log; exact ⟨[], by simp [callAll], by simp⟩
  | cons call rest ih =>
    intro log
    unfold callAll
    split
    · exact ⟨_, rfl, by simp⟩
    · obtain ⟨evs, h1, h2⟩ := ih (log ++ [.parse call none])
      refine ⟨_ :: evs, by rw [h1, List.append_assoc, List.singleton_append], ?_⟩
      intro e he
      rcases List.mem_cons.1 he with rfl | he
      · exact ⟨call, rfl⟩
      · exact h2 e he

/-- How the callback of a batch ends. -/
inductive CallbackEnds (s : Serving) (j i step : ℕ) (key : Bytes) : Outcome → Prop
  | outOfRange (hno : s.node.fetchInfoVec[j]? = none ∨ s.request.resultMap[j]? = none) :
      CallbackEnds s j i step key (.fault (s.addLog [.called j i]) .outOfRange)
  | noItem {items} (hitems : s.request.resultMap[j]? = some items) (hitem : items[i / step]? = none) :
      CallbackEnds s j i step key (.throw (s.addLog [.called j i]))
  | badReply {info item f} (hinfo : s.node.fetchInfoVec[j]? = some info)
      (hfill : fillItem info j i step key (s.request.backend.reply j i) item = .error f) :
      CallbackEnds s j i step key (.fault (s.addLog [.called j i]) f)
  | filled {info items item item' evs o} (hinfo : s.node.fetchInfoVec[j]? = some info)
      (hitems : s.request.resultMap[j]? = some items) (hitem : items[i / step]? = some item)
      (hfill : fillItem info j i step key (s.request.backend.reply j i) item = .ok item')
      -- a parse function that throws ends the calls
      (hevs : evs <+: itemParses env info j (i / step) items.length item')
      (hall : (∀ log call, env.parseThrows log call = false) →
        evs = itemParses env info j (i / step) items.length item')
      (ho : o = .next ((s.setItems j (items.set (i / step) item')).addLog (.called j i :: evs)) [] ∨
        o = .throw ((s.setItems j (items.set (i / step) item')).addLog (.called j i :: evs))) :
      CallbackEnds s j i step key o

/-- **Inversion of the callback.** -/
theorem callback_ends (s : Serving) (j i step : ℕ) (key : Bytes) :
    CallbackEnds env s j i step key (execCallback env s j i step key) := by
  unfold execCallback
  simp only [Serving.addLog_node, Serving.addLog_request_resultMap, Serving.addLog_request_backend]
  cases hinfo : s.node.fetchInfoVec[j]? with
  | none => exact .outOfRange (Or.inl hinfo)
  | some info =>
    cases hitems : s.request.resultMap[j]? with
    | none => exact .outOfRange (Or.inr hitems)
    | some items =>
      cases hitem : items[i / step]? with
      | none =>
        simp only [hitem]
        exact .noItem hitems hitem
      | some item =>
        cases hfill : fillItem info j i step key (s.request.backend.reply j i) item with
        | error f =>
          simp only [hitem, hfill]
          exact .badReply hinfo hfill
        | ok item' =>
          simp only [hitem, hfill]
          have hfilled : ∀ evs o, evs <+: itemParses env info j (i / step) items.length item' → _ → _ →
              CallbackEnds env s j i step key o :=
            fun evs o hevs hall ho => .filled hinfo hitems hitem hfill hevs hall ho
          unfold itemParses at hfilled
          by_cases hp : env.enableParalParse = true
          · simp only [if_pos hp] at hfilled ⊢
            unfold parseRedisResponse
            obtain ⟨evs, hlog, hpre, hall⟩ := parseLoop_log env info j item'.startIndex (i / step) items.length
              item'.resultStrVec 0 (s.request.log ++ [.called j i])
            rcases hparse : parseLoop env info j item'.startIndex (i / step) items.length item'.resultStrVec 0
              (s.request.log ++ [.called j i]) with ⟨log, threw⟩
            rw [hparse, List.append_assoc, List.singleton_append] at hlog
            simp only at hlog
            simp only [Serving.setItems_request_log, Serving.addLog_request_log, hparse, hlog]
            cases threw with
            | true => exact hfilled evs _ hpre hall (Or.inr rfl)
            | false => exact hfilled evs _ hpre hall (Or.inl rfl)
          · simp only [if_neg hp] at hfilled ⊢
            exact hfilled [] _ List.nil_prefix (fun _ => rfl) (Or.inl rfl)

theorem callback_events (s : Serving) (j i step : ℕ) (key : Bytes) :
    ∃ evs, (execCallback env s j i step key).state.request.log = s.request.log ++ evs ∧
      ∀ e ∈ evs, Emits env s (.callback j i step key) e := by
  have hcalled : ∀ e ∈ [RedisEvent.called j i], Emits env s (.callback j i step key) e := by
    simpa using .called
  have hends := callback_ends env s j i step key
  generalize execCallback env s j i step key = o at hends
  cases hends with
  | outOfRange => exact ⟨_, rfl, hcalled⟩
  | noItem => exact ⟨_, rfl, hcalled⟩
  | badReply => exact ⟨_, rfl, hcalled⟩
  | @filled info items item item' evs _ hinfo hitems hitem hfill hevs hall ho =>
    refine ⟨.called j i :: evs, ?_, fun e he => ?_⟩
    · rcases ho with rfl | rfl <;> rfl
    · rcases List.mem_cons.1 he with rfl | he
      · exact .called
      · obtain ⟨hp, hparse⟩ := parseOf_of_mem (hevs.subset he)
        exact .parse hp hinfo hitems hitem hfill hparse

theorem merge_events (s : Serving) : ∃ evs, (execMerge env s).state.request.log = s.request.log ++ evs ∧
    ∀ e ∈ evs, Emits env s .mergeCacheData e := by
  obtain ⟨evs, h1, h2⟩ := mergeMap_writes s.node.fetchInfoVec s.request.resultMap
    (env.resultOrder (List.range s.request.resultMap.length)) (s.node.cache, s.request.log)
  have hend : ∀ e, Emits env s .mergeCacheData e →
      ∀ e' ∈ evs ++ [e], Emits env s .mergeCacheData e' := by
    intro e he e' he'
    rcases List.mem_append.1 he' with he' | he'
    · exact .write (h2 e' he')
    · rw [List.mem_singleton.1 he']
      exact he
  unfold execMerge
  rcases hm : mergeMap s.node.fetchInfoVec s.request.resultMap
    (env.resultOrder (List.range s.request.resultMap.length)) (s.node.cache, s.request.log) with
    ⟨⟨cache, log⟩, e⟩
  rw [hm] at h1
  simp only at h1
  subst h1
  cases e with
  | ok => exact ⟨evs ++ [.merged], by simp [Outcome.state], hend _ .merged⟩
  | throw => exact ⟨evs ++ [.mergeFailed], by simp [Outcome.state], hend _ .mergeFailed⟩
  | nullDeref => exact ⟨evs ++ [.mergeFailed], by simp [Outcome.state], hend _ .mergeFailed⟩

/-- How a round of the loop over `fetch_info_vec` ends. -/
inductive FetchInfoEnds (s : Serving) (j : ℕ) : Outcome → Prop
  | outOfRange (hno : s.node.fetchInfoVec[j]? = none) : FetchInfoEnds s j (.fault s .outOfRange)
  | skipped {info} (hinfo : s.node.fetchInfoVec[j]? = some info) (hact : ¬info.Active env) :
      FetchInfoEnds s j (.next s [.condDone false])
  | divByZero (hb : ¬env.BatchSizeOK) : FetchInfoEnds s j (.fault s .divByZero)
  | opened {info} (hinfo : s.node.fetchInfoVec[j]? = some info) (hact : info.Active env) (hb : env.BatchSizeOK) :
      FetchInfoEnds s j (.next
        ((s.setItemSizeCond j (info.batches env)).setItems j (List.replicate (info.batches env) {}))
        [.issue j 0 (info.step env)])

/-- **Inversion of a round over the fetch infos.** -/
theorem fetchInfo_ends (s : Serving) (j : ℕ) : FetchInfoEnds env s j (execFetchInfo env s j) := by
  unfold execFetchInfo
  cases hinfo : s.node.fetchInfoVec[j]? with
  | none => exact .outOfRange hinfo
  | some info =>
    simp only
    by_cases hc : env.hasClient info.redisClientId = false
    · rw [if_pos hc]
      exact .skipped hinfo fun hact => by simp [hact.client] at hc
    · by_cases hn : info.keys.length = 0
      · rw [if_neg hc, if_pos hn]
        exact .skipped hinfo fun hact => hact.keys (List.eq_nil_of_length_eq_zero hn)
      · rw [if_neg hc, if_neg hn]
        have hact : info.Active env := ⟨by simpa using hc, fun h => hn (by rw [h]; rfl)⟩
        have hopened : env.BatchSizeOK → FetchInfoEnds env s j _ := fun hb => .opened hinfo hact hb
        unfold FetchInfo.step FetchInfo.batches at hopened
        by_cases hm : env.enableMultiGet = true
        · by_cases hsize : env.batchSize = 0
          · rw [if_pos hm, if_pos hsize]
            refine .divByZero fun hb => ?_
            have := hb hm
            omega
          · rw [if_pos hm, if_neg hsize]
            simp only [if_pos hm] at hopened
            exact hopened fun _ => Nat.pos_of_ne_zero hsize
        · rw [if_neg hm]
          simp only [if_neg hm] at hopened
          exact hopened fun h => absurd h hm

theorem fetchInfo_log (s : Serving) (j : ℕ) :
    (execFetchInfo env s j).state.request.log = s.request.log := by
  have hends := fetchInfo_ends env s j
  generalize execFetchInfo env s j = o at hends
  cases hends <;> rfl

theorem issue_events (s : Serving) (j i step : ℕ) :
    ∃ evs, (execIssue s j i step).state.request.log = s.request.log ++ evs ∧
      ∀ e ∈ evs, Emits env s (.issue j i step) e := by
  unfold execIssue
  cases hinfo : s.node.fetchInfoVec[j]? with
  | none => exact ⟨[], by simp [Outcome.state], by simp⟩
  | some info =>
    cases hkey : info.keys[i]? with
    | none => exact ⟨[], by simp [hkey, Outcome.state], by simp⟩
    | some key =>
      have : Emits env s (.issue j i step) _ := .issue hinfo hkey
      refine ⟨[.issue j i ((info.keys.drop i).take step) (s.request.backend.accepts j i)], ?_, by simpa⟩
      simp only [hkey]
      split <;> rfl

theorem parseCached_events (s : Serving) :
    ∃ evs, (execParseCached env s).state.request.log = s.request.log ++ evs ∧
      ∀ e ∈ evs, Emits env s .parseCachedData e := by
  obtain ⟨evs, h1, h2⟩ := callAll_events env (cachedCalls env s.node.fetchInfoVec s.request.cacheDataVec)
    s.request.log
  refine ⟨evs, ?_, fun e he => ?_⟩
  · rw [← h1]
    unfold execParseCached
    simp only
    split
    · rfl
    · split <;> rfl
  · obtain ⟨call, rfl⟩ := h2 e he
    exact .cached

/-- **What an operation logs.** -/
theorem exec_events (op : Op) (s : Serving) : ∃ evs, (op.exec env s).state.request.log = s.request.log ++ evs ∧
    ∀ e ∈ evs, Emits env s op e := by
  cases op with
  | fetchInfo j => exact ⟨[], by rw [List.append_nil]; exact fetchInfo_log env s j, by simp⟩
  | issue j i step => exact issue_events env s j i step
  | callback j i step key => exact callback_events env s j i step key
  | mergeCacheData => exact merge_events env s
  | parseCachedData => exact parseCached_events env s
  | processResponse =>
    refine ⟨[.process], ?_, by simpa using .process⟩
    unfold Op.exec
    by_cases h : env.processThrows s.request.log = true
    · simp only [if_pos h]; rfl
    · simp only [if_neg h]; rfl
  | runOutputNodes => exact ⟨[.output], rfl, by simpa using .output⟩
  | _ => exact ⟨[], by rw [List.append_nil]; rfl, by simp⟩

variable {env}

/-- **A step adds to the log what its operation emits.** -/
theorem step_log (h : s.step env t = some s') : ∃ op rest evs, s.request.threads[t]? = some (op :: rest) ∧
    s'.request.log = s.request.log ++ evs ∧ ∀ e ∈ evs, Emits env s op e := by
  unfold Serving.step at h
  split at h
  · simp at h
  · split at h
    · simp at h
    · simp at h
    · rename_i op rest ht
      simp only [Option.ite_none_left_eq_some, Option.some.injEq] at h
      obtain ⟨-, rfl⟩ := h
      obtain ⟨evs, h1, h2⟩ := exec_events env op s
      exact ⟨op, rest, evs, ht, by rw [finish_log, h1], h2⟩

theorem mem_log_step {e : RedisEvent} (h : s.step env t = some s') (he : e ∈ s.request.log) :
    e ∈ s'.request.log := by
  obtain ⟨-, -, evs, -, hlog, -⟩ := step_log h
  rw [hlog]
  exact List.mem_append_left _ he

end Graphize
