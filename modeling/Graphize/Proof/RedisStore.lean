import Graphize.Proof.RedisAttribution
import Graphize.Proof.RedisParses

/-!
# Where values come from

The cache of a process is filled with what servers answer, by any request, and read by any
later one; entries expire, and a server may hold other values later. What a parse function is
given has been held by a server for the key that it is given with, unless a hit is read too
late: it is a pointer into the cache, and the value may have been recycled by then.

* `Keeps`: what an operation does to the cache, to the recorded hits and to the calls for them.
* `Sourced`: the invariant of a process. Each of its parts needs the other two.
* `values_held`: any run of any requests.
-/

namespace Graphize

open Relation

section

variable {ρ : Type*} {env : RedisEnv ρ}

/-! ## What an operation adds -/

/-- What is in the cache, the recorded hits, and the calls for them: nothing is there after an
operation that was not there before it or is logged, or called for a recorded hit. -/
structure Keeps (env : RedisEnv ρ) (s s' : Serving) : Prop where
  cache : ∀ key value, s'.node.cache key = some value →
    s.node.cache key = some value ∨ ∃ j i k, .cacheSet key value j i k ∈ s'.request.log
  data : s'.request.cacheDataVec ⊆ s.request.cacheDataVec
  calls : ∀ call, .parse call none ∈ s'.request.log → .parse call none ∈ s.request.log ∨
    call ∈ cachedCalls env s.node.fetchInfoVec s.request.cacheDataVec

variable {s s' : Serving} {t : ℕ}

/-- Only `parse_cached_data` calls parse functions for recorded hits. -/
theorem exec_calls {op : Op} (hop : op ≠ .parseCachedData) {call : ParseCall}
    (h : .parse call none ∈ (op.exec env s).state.request.log) : .parse call none ∈ s.request.log := by
  obtain ⟨evs, hlog, hevs⟩ := exec_events env op s
  rw [hlog] at h
  rcases List.mem_append.1 h with h | h
  · exact h
  · generalize he : RedisEvent.parse call none = e at h
    cases hevs e h with
    | parse hpar hinfo hitems hitem hfill he' => cases he' with | parse hkey hval => cases he
    | write hw =>
      obtain ⟨-, -, -, -, -, -, item, -, hw⟩ := hw
      cases hw with | set hptr hkey hval hlen => cases he
    | cached => exact absurd rfl hop
    | _ => cases he

theorem keeps_of_eq {op : Op} (hop : op ≠ .parseCachedData) (hcache : (op.exec env s).state.node.cache = s.node.cache)
    (hdata : (op.exec env s).state.request.cacheDataVec = s.request.cacheDataVec) :
    Keeps env s (op.exec env s).state where
  cache key value h := by
    rw [hcache] at h
    exact Or.inl h
  data := by rw [hdata]; exact List.Subset.refl _
  calls _ h := Or.inl (exec_calls hop h)

/-- **What `merge_cache_data` leaves in the cache** was there, or is logged. -/
theorem mem_mergeMap {infos : List FetchInfo} {resultMap : List (List RedisResultItem)} {ps : List ℕ}
    {c : Cache × List RedisEvent} {key value : Bytes}
    (h : (mergeMap infos resultMap ps c).1.1 key = some value) :
    c.1 key = some value ∨ ∃ j i k, .cacheSet key value j i k ∈ (mergeMap infos resultMap ps c).1.2 := by
  have hpath := mergeMap_path infos resultMap ps c
  generalize (mergeMap infos resultMap ps c).1 = c' at hpath h
  induction hpath with
  | refl => exact Or.inl h
  | @tail c₁ _ _ hset ih =>
    cases hset with
    | @set j k key' v len p first item items info hp hinfo hu hitem hptr hkey hval hlen =>
      have hold : c₁.1 key = some value → c.1 key = some value ∨ ∃ j' i' k', .cacheSet key value j' i' k' ∈
          c₁.2 ++ [.cacheSet key' (cacheValue v len) j item.startIndex k] := by
        intro h
        rcases ih h with h | ⟨j', i', k', h⟩
        · exact Or.inl h
        · exact Or.inr ⟨j', i', k', List.mem_append_left _ h⟩
      dsimp only at h
      unfold Cache.set at h
      split at h
      · exact hold h
      · by_cases hkk : key = key'
        · subst hkk
          rw [Function.update_self, Option.some.injEq] at h
          subst h
          exact Or.inr ⟨j, item.startIndex, k, by simp⟩
        · rw [Function.update_of_ne hkk] at h
          exact hold h

theorem keeps_merge : Keeps env s (Op.mergeCacheData.exec env s).state := by
  have hcalls : ∀ call, .parse call none ∈ (Op.mergeCacheData.exec env s).state.request.log →
      .parse call none ∈ s.request.log := fun _ h => exec_calls (by simp) h
  have hexec : Op.mergeCacheData.exec env s = execMerge env s := rfl
  rw [hexec] at hcalls ⊢
  unfold execMerge at hcalls ⊢
  have hmem := fun key value => @mem_mergeMap s.node.fetchInfoVec s.request.resultMap
    (env.resultOrder (List.range s.request.resultMap.length)) (s.node.cache, s.request.log) key value
  generalize mergeMap s.node.fetchInfoVec s.request.resultMap
    (env.resultOrder (List.range s.request.resultMap.length)) (s.node.cache, s.request.log) = r at hmem hcalls ⊢
  obtain ⟨⟨cache, log⟩, e⟩ := r
  have hlog : ∀ u : Serving, u.node.cache = cache → log ⊆ u.request.log →
      u.request.cacheDataVec = s.request.cacheDataVec →
      (∀ call, .parse call none ∈ u.request.log → .parse call none ∈ s.request.log) → Keeps env s u := by
    intro u hc hl hd hcalls
    refine ⟨fun key value h => ?_, by rw [hd]; exact List.Subset.refl _, fun call h => Or.inl (hcalls call h)⟩
    rw [hc] at h
    rcases hmem key value h with h | ⟨j, i, k, h⟩
    · exact Or.inl h
    · exact Or.inr ⟨j, i, k, hl h⟩
  cases e with
  | ok => exact hlog _ rfl (List.subset_append_left _ _) rfl hcalls
  | throw => exact hlog _ rfl (List.subset_append_left _ _) rfl hcalls
  | nullDeref => exact hlog _ rfl (List.subset_append_left _ _) rfl hcalls

/-- The calls that are made are of those that are to be made. -/
theorem mem_callAll {call : ParseCall} : ∀ (calls : List ParseCall) (log : List RedisEvent),
    .parse call none ∈ (callAll env calls log).1 → .parse call none ∈ log ∨ call ∈ calls := by
  intro calls
  induction calls with
  | nil =>
    intro log h
    exact Or.inl h
  | cons next calls ih =>
    intro log h
    have hlog : .parse call none ∈ log ++ [.parse next none] → .parse call none ∈ log ∨ call ∈ next :: calls := by
      intro h
      rcases List.mem_append.1 h with h | h
      · exact Or.inl h
      · simp only [List.mem_singleton, RedisEvent.parse.injEq, and_true] at h
        rw [h]
        exact Or.inr List.mem_cons_self
    unfold callAll at h
    split at h
    · exact hlog h
    · rcases ih _ h with h | h
      · exact hlog h
      · exact Or.inr (List.mem_cons_of_mem _ h)

theorem keeps_parseCached : Keeps env s (Op.parseCachedData.exec env s).state := by
  have hexec : Op.parseCachedData.exec env s = execParseCached env s := rfl
  rw [hexec]
  unfold execParseCached
  have hcalls := fun call => @mem_callAll ρ env call (cachedCalls env s.node.fetchInfoVec s.request.cacheDataVec)
    s.request.log
  generalize callAll env (cachedCalls env s.node.fetchInfoVec s.request.cacheDataVec) s.request.log = r at hcalls ⊢
  obtain ⟨log, threw⟩ := r
  have hlog : ∀ u : Serving, u.node.cache = s.node.cache → u.request.log = log →
      u.request.cacheDataVec ⊆ s.request.cacheDataVec → Keeps env s u := by
    intro u hc hl hd
    refine ⟨fun key value h => ?_, hd, fun call h => ?_⟩
    · rw [hc] at h
      exact Or.inl h
    · rw [hl] at h
      exact hcalls call h
  simp only
  split
  · exact hlog _ rfl rfl (List.Subset.refl _)
  · split
    · exact hlog _ rfl rfl (List.Subset.refl _)
    · exact hlog _ rfl rfl (List.nil_subset _)

theorem exec_keeps (op : Op) (s : Serving) : Keeps env s (op.exec env s).state := by
  cases op with
  | fetchInfo j =>
    have hends := fetchInfo_ends env s j
    refine keeps_of_eq (by simp) ?_ ?_ <;>
    · show _ = _
      unfold Op.exec
      simp only
      generalize execFetchInfo env s j = o at hends
      cases hends <;> rfl
  | issue j i step =>
    refine keeps_of_eq (by simp) ?_ ?_ <;>
    · unfold Op.exec execIssue
      simp only
      cases s.node.fetchInfoVec[j]? with
      | none => rfl
      | some info =>
        cases hkey : info.keys[i]? with
        | none =>
          simp only [hkey]
          rfl
        | some key =>
          simp only [hkey]
          split <;> rfl
  | callback j i step key =>
    have hends := callback_ends env s j i step key
    refine keeps_of_eq (by simp) ?_ ?_ <;>
    · unfold Op.exec
      simp only
      generalize execCallback env s j i step key = o at hends
      cases hends with
      | filled hinfo hitems hitem hfill hevs hall ho => rcases ho with rfl | rfl <;> rfl
      | _ => rfl
  | mergeCacheData => exact keeps_merge
  | parseCachedData => exact keeps_parseCached
  | processResponse =>
    refine keeps_of_eq (by simp) ?_ ?_ <;>
    · unfold Op.exec
      simp only
      split <;> rfl
  | _ => exact keeps_of_eq (by simp) rfl rfl

theorem finish_keeps {o : Outcome} {ops : List Op} (h : Keeps env s o.state) :
    Keeps env s (o.finish t ops) := by
  have hsame : (o.finish t ops).node = o.state.node ∧
      (o.finish t ops).request.cacheDataVec = o.state.request.cacheDataVec := by
    cases o with
    | next u push => exact ⟨rfl, rfl⟩
    | throw u =>
      unfold Outcome.finish
      cases unwind ops <;> exact ⟨rfl, rfl⟩
    | fault u f => exact ⟨rfl, rfl⟩
  have hlog := finish_log o t ops
  refine ⟨?_, ?_, ?_⟩
  · rw [hsame.1, hlog]
    exact h.cache
  · rw [hsame.2]
    exact h.data
  · rw [hlog]
    exact h.calls

/-- **What a step adds.** -/
theorem step_keeps (h : s.step env t = some s') : Keeps env s s' := by
  unfold Serving.step at h
  split at h
  · cases h
  · split at h
    · cases h
    · cases h
    · simp only [Option.ite_none_left_eq_some, Option.some.injEq] at h
      obtain ⟨-, rfl⟩ := h
      exact finish_keeps (exec_keeps _ s)

/-! ## What has been held -/

/-- What is stored in the cache has been held for its key, nil as `" "`. -/
def Cache.From (held : Bytes → Option Bytes → Prop) (c : Cache) : Prop :=
  ∀ key value, c key = some value → ∃ x, held key x ∧ value = x.getD blank

variable (env) in
/-- What a request does with a value has been held for the key that it does it with. A
recorded hit is given as `get_from_cache` has read it. -/
def Told (held : Bytes → Option Bytes → Prop) (vec : List FetchInfo) : RedisEvent → Prop
  | .parse call none => ∃ info x, vec[call.fetchInfo]? = some info ∧ held call.key x ∧
      call.value = parseValue env info (some (cachedData (x.getD blank)))
  | .parse call (some _) => ∃ info x, vec[call.fetchInfo]? = some info ∧ held call.key x ∧
      call.value = parseValue env info x
  | .cacheSet key value _ _ _ => ∃ x, held key x ∧ value = x.getD blank
  | _ => True

/-- The servers answer a batch with at most one value for each of its keys, and each has been
held for its key. They may also fail, or answer with an error. -/
def RedisWorld.Answered (held : Bytes → Option Bytes → Prop) (w : RedisWorld) : Prop :=
  ∀ q ∈ w.requests, ∀ j i ks, q.Sent j i ks → (q.backend.reply j i).values.length ≤ ks.length ∧
    ∀ (k : ℕ) key x, ks[k]? = some key → (q.backend.reply j i).values[k]? = some x → held key x

/-- What happens next: a request arrives or goes on, or an entry of the cache is lost. The
memory of a value that is replaced or lost then holds something else. -/
inductive StoreTurn (ρ : Type*)
  | turn (turn : Turn ρ) (left : Bytes → ℕ → UInt8)
  | lose (key : Bytes) (left : ℕ → UInt8)

/-- A hit for `key` keeps its length. -/
def CacheDataItem.recycle (key : Bytes) (left : ℕ → UInt8) (item : CacheDataItem) : CacheDataItem :=
  { item with dataMap := item.dataMap.map fun e =>
      if e.1 = key then (key, (List.range e.2.length).map left) else e }

/-- The value of `key` is recycled under the hits that requests have recorded. -/
def RedisWorld.recycle (w : RedisWorld) (key : Bytes) (left : ℕ → UInt8) : RedisWorld :=
  { w with requests := w.requests.map fun q =>
      { q with cacheDataVec := q.cacheDataVec.map (CacheDataItem.recycle key left) } }

/-- The entry of `key` is lost. -/
def RedisWorld.lose (w : RedisWorld) (key : Bytes) : RedisWorld :=
  { w with node := { w.node with cache := Function.update w.node.cache key none } }

def RedisEvent.setKey : RedisEvent → Option Bytes
  | .cacheSet key _ _ _ _ => some key
  | _ => none

/-- The keys that have been given a value between two states. -/
def RedisWorld.rewritten (w w' : RedisWorld) : List Bytes :=
  (w.requests.zip w'.requests).flatMap fun e => (e.2.log.drop e.1.log.length).filterMap RedisEvent.setKey

variable (env) in
def RedisWorld.storeStep (w : RedisWorld) : StoreTurn ρ → Option RedisWorld
  | .turn turn left => (w.step env turn).map fun w' =>
      (w.rewritten w').foldl (fun w' key => w'.recycle key (left key)) w'
  | .lose key left => some ((w.lose key).recycle key left)

/-- No hit for `key` has still to be read. -/
def RedisWorld.NoneReads (w : RedisWorld) (key : Bytes) : Prop :=
  ∀ q ∈ w.requests, ∀ item ∈ q.cacheDataVec, ∀ e ∈ item.dataMap, e.1 ≠ key

instance (w : RedisWorld) (key : Bytes) : Decidable (w.NoneReads key) :=
  inferInstanceAs (Decidable (∀ q ∈ w.requests, ∀ item ∈ q.cacheDataVec, ∀ e ∈ item.dataMap, e.1 ≠ key))

variable (env) in
/-- No request arrives while keys have still to be read that it moves. -/
def RedisWorld.Unmoved (w : RedisWorld) : StoreTurn ρ → Prop
  | .turn turn _ => w.Undisturbed env turn
  | .lose _ _ => True

variable (env) in
/-- No value is replaced or lost while a hit for its key has still to be read. -/
def RedisWorld.Spared (w : RedisWorld) : StoreTurn ρ → Prop
  | .turn turn _ => ∀ w' ∈ w.step env turn, ∀ key ∈ w.rewritten w', w'.NoneReads key
  | .lose key _ => w.NoneReads key

instance (w : RedisWorld) : ∀ turn : StoreTurn ρ, Decidable (w.Spared env turn)
  | .turn turn _ => inferInstanceAs (Decidable (∀ w' ∈ w.step env turn, ∀ key ∈ w.rewritten w', w'.NoneReads key))
  | .lose key _ => inferInstanceAs (Decidable (w.NoneReads key))

variable (env) in
def RedisWorld.StoreUndisturbed (w : RedisWorld) (turn : StoreTurn ρ) : Prop := w.Unmoved env turn ∧ w.Spared env turn

theorem RedisWorld.recycle_eq {w : RedisWorld} {key : Bytes} (h : w.NoneReads key) (left : ℕ → UInt8) :
    w.recycle key left = w := by
  have hitem : ∀ q ∈ w.requests, ∀ item ∈ q.cacheDataVec, CacheDataItem.recycle key left item = item := by
    intro q hq item hitem
    unfold CacheDataItem.recycle
    rw [List.map_congr_left fun e he => if_neg (h q hq item hitem e he), List.map_id']
  unfold RedisWorld.recycle
  have hq : w.requests.map (fun q => { q with cacheDataVec := q.cacheDataVec.map (CacheDataItem.recycle key left) }) =
      w.requests := by
    conv_rhs => rw [← List.map_id w.requests]
    refine List.map_congr_left fun q hq => ?_
    rw [List.map_congr_left (hitem q hq), List.map_id']
    rfl
  rw [hq]

/-- What no hit points to changes nothing when it is recycled. -/
theorem RedisWorld.recycleAll_eq {w : RedisWorld} (left : Bytes → ℕ → UInt8) : ∀ {keys : List Bytes},
    (∀ key ∈ keys, w.NoneReads key) → keys.foldl (fun w' key => w'.recycle key (left key)) w = w := by
  intro keys
  induction keys with
  | nil => exact fun _ => rfl
  | cons key keys ih =>
    intro h
    obtain ⟨hkey, hkeys⟩ := List.forall_mem_cons.1 h
    rw [List.foldl_cons, RedisWorld.recycle_eq hkey, ih hkeys]

variable (env) in
/-- What the cache holds, what the requests have recorded of it, and what they have done with
that, has been held. -/
structure RedisWorld.Sourced (held : Bytes → Option Bytes → Prop) (w : RedisWorld) : Prop where
  cache : w.node.cache.From held
  data : ∀ q ∈ w.requests, ∀ item ∈ q.cacheDataVec, ∀ e ∈ item.dataMap, ∃ x, held e.1 x ∧
    e.2 = cachedData (x.getD blank)
  calls : ∀ q ∈ w.requests, ∀ call, .parse call none ∈ q.log → Told env held w.node.fetchInfoVec (.parse call none)

variable {held : Bytes → Option Bytes → Prop} {w w' : RedisWorld} {turn : Turn ρ}

/-- A request goes on with its backend and with what it has sent. -/
theorem exists_later (h : w.step env turn = some w') {q : Request} (hq : q ∈ w.requests) :
    ∃ q' ∈ w'.requests, q'.backend = q.backend ∧ ∀ j i ks, q.Sent j i ks → q'.Sent j i ks := by
  unfold RedisWorld.step at h
  split at h
  · cases h
  · cases turn with
    | doService req backend =>
      obtain rfl := Option.some.inj h
      exact ⟨q, List.mem_append_left _ hq, rfl, fun _ _ _ hs => hs⟩
    | thread r t =>
      simp only at h
      split at h
      · cases h
      · rename_i q₀ hq₀
        obtain ⟨s, hs, rfl⟩ := Option.map_eq_some_iff.1 h
        obtain ⟨r', hr'⟩ := List.getElem?_of_mem hq
        by_cases hrr : r = r'
        · subst hrr
          obtain rfl : q₀ = q := Option.some.inj (hq₀.symm.trans hr')
          exact ⟨s.request, List.mem_set (List.getElem?_eq_some_iff.1 hr').1 _, (step_opEffect hs).1.backend,
            fun j i ks hsent => hsent.step hs⟩
        · refine ⟨q, List.mem_of_getElem? (i := r') ?_, rfl, fun _ _ _ hs => hs⟩
          rw [List.getElem?_set_ne hrr, hr']

theorem RedisWorld.answered_of_step (h : w.step env turn = some w') (ha : w'.Answered held) : w.Answered held := by
  intro q hq j i ks hsent
  obtain ⟨q', hq', hbackend, hlater⟩ := exists_later h hq
  rw [← hbackend]
  exact ha q' hq' j i ks (hlater j i ks hsent)

theorem RedisWorld.Answered.fits (ha : w.Answered held) : w.Fits := fun q hq j i ks hsent => (ha q hq j i ks hsent).1

/-- What is done with a value of a reply, by where the value comes from. -/
theorem told_of_attributed {vec : List FetchInfo} {q : Request} (ha : ∀ j i ks, q.Sent j i ks →
      ∀ (k : ℕ) key x, ks[k]? = some key → (q.backend.reply j i).values[k]? = some x → held key x) {e : RedisEvent}
    (he : Attributed env vec q e) (hcached : ∀ call, e ≠ .parse call none) : Told env held vec e := by
  cases e with
  | parse call element =>
    cases element with
    | none => exact absurd rfl (hcached call)
    | some element =>
      obtain ⟨ks, x, info, hsent, hkey, hvalue, hinfo, hparse⟩ := he
      exact ⟨info, x, hinfo, ha _ _ ks hsent _ _ x hkey hvalue, hparse⟩
  | cacheSet key value j i k =>
    obtain ⟨ks, x, hsent, hkey, hvalue, heq⟩ := he
    exact ⟨x, ha _ _ ks hsent _ _ x hkey hvalue, heq⟩
  | _ => trivial

/-- A call for a recorded hit. -/
theorem mem_cachedCalls_data {vec : List FetchInfo} {data : List CacheDataItem} {call : ParseCall}
    (h : call ∈ cachedCalls env vec data) : ∃ item ∈ data, ∃ e ∈ item.dataMap, ∃ info,
      vec[call.fetchInfo]? = some info ∧ call.key = e.1 ∧ call.value = parseValue env info (some e.2) := by
  unfold cachedCalls at h
  obtain ⟨item, hitem, h⟩ := List.mem_flatMap.1 h
  cases hinfo : vec[item.fetchInfoPtr]? with
  | none =>
    simp only [hinfo] at h
    cases h
  | some info =>
    simp only [hinfo] at h
    split at h
    · obtain ⟨e, he, rfl⟩ := List.mem_map.1 h
      exact ⟨item, hitem, e, (env.dataOrder_perm _).mem_iff.1 he, info, hinfo, rfl, rfl⟩
    · cases h

/-- **What a request records** has been held if what the cache holds has been. -/
theorem recorded_held {node : RedisNode} {req : ρ} {backend : Backend} (hc : node.cache.From held)
    {item : CacheDataItem} (hitem : item ∈ (node.doService env req backend).request.cacheDataVec)
    {e : Bytes × Bytes} (he : e ∈ item.dataMap) : ∃ x, held e.1 x ∧ e.2 = cachedData (x.getD blank) := by
  rw [doService_data] at hitem
  obtain ⟨m, hm, hitem⟩ := List.mem_flatMap.1 hitem
  obtain ⟨i, info, -, rfl⟩ := mem_made hm
  cases hf : env.keyFuncMap info.keyGenFunc with
  | none =>
    rw [makeUpFetchInfo_none hf] at hitem
    cases hitem
  | some keyFunc =>
    rw [makeUpFetchInfo_eq hf] at hitem
    unfold lookedUp getFromCache at hitem
    split at hitem
    · simp only at hitem
      split at hitem
      · cases hitem
      · obtain rfl := List.mem_singleton.1 hitem
        obtain ⟨key, data⟩ := e
        rcases (mem_getFromCache node.cache _ ([], []) key data (by simp)).1 he with h | ⟨-, value, hv, rfl⟩
        · cases h
        · unfold Cache.get at hv
          split at hv
          · cases hv
          · obtain ⟨x, hx, rfl⟩ := hc key value hv
            exact ⟨x, hx, rfl⟩
    · cases hitem

theorem Told.made {node : RedisNode} {req : ρ} {backend : Backend} {call : ParseCall}
    (h : Told env held node.fetchInfoVec (.parse call none)) :
    Told env held (node.doService env req backend).node.fetchInfoVec (.parse call none) := by
  obtain ⟨info, x, hinfo, hx, hvalue⟩ := h
  obtain ⟨info', hinfo', hsame, -⟩ := doService_getElem? env req backend hinfo
  refine ⟨info', x, hinfo', hx, ?_⟩
  rw [hvalue]
  unfold parseValue
  rw [hsame.compress]

/-- **A step of the process.** The cache after it is what has been logged, and that has been
held; the calls for recorded hits are those that the cache was once the source of. -/
theorem RedisWorld.Sourced.step (hS : w.Sourced env held) (hG' : w'.Good env) (ha : w'.Answered held)
    (h : w.step env turn = some w') : w'.Sourced env held := by
  unfold RedisWorld.step at h
  split at h
  · cases h
  · cases turn with
    | doService req backend =>
      obtain rfl := Option.some.inj h
      refine ⟨?_, fun q hq item hitem e he => ?_, fun q hq call hcall => ?_⟩
      · have hcache : (w.node.doService env req backend).node.cache = w.node.cache := by
          rcases doService_cases env w.node req backend with ⟨-, heq⟩ | ⟨vec, data, -, -, heq⟩ <;> rw [heq]
        show Cache.From held (w.node.doService env req backend).node.cache
        rw [hcache]
        exact hS.cache
      · rcases List.mem_append.1 hq with hq | hq
        · exact hS.data q hq item hitem e he
        · rw [List.mem_singleton.1 hq] at hitem
          exact recorded_held hS.cache hitem he
      · rcases List.mem_append.1 hq with hq | hq
        · exact (hS.calls q hq call hcall).made
        · rw [List.mem_singleton.1 hq, doService_log] at hcall
          cases hcall
    | thread r t =>
      simp only at h
      split at h
      · cases h
      · rename_i q hq
        obtain ⟨s, hs, rfl⟩ := Option.map_eq_some_iff.1 h
        have hmem := List.mem_of_getElem? hq
        have hmem' : s.request ∈ w.requests.set r s.request := List.mem_set (List.getElem?_eq_some_iff.1 hq).1 _
        have hk := step_keeps hs
        have hvec : s.node.fetchInfoVec = w.node.fetchInfoVec := (step_opEffect hs).1.vec
        refine ⟨fun key value hvalue => ?_, fun q' hq' item hitem e he => ?_, fun q' hq' call hcall => ?_⟩
        · rcases hk.cache key value hvalue with hvalue | ⟨j, i, k, hlog⟩
          · exact hS.cache key value hvalue
          · exact told_of_attributed (fun j i ks hsent => (ha _ hmem' j i ks hsent).2)
              (hG'.attributed _ hmem' _ hlog) (by simp)
        · rcases List.mem_or_eq_of_mem_set hq' with hq' | rfl
          · exact hS.data q' hq' item hitem e he
          · exact hS.data q hmem item (hk.data hitem) e he
        · show Told env held s.node.fetchInfoVec _
          rw [hvec]
          rcases List.mem_or_eq_of_mem_set hq' with hq' | rfl
          · exact hS.calls q' hq' call hcall
          · rcases hk.calls call hcall with hcall | hcall
            · exact hS.calls q hmem call hcall
            · obtain ⟨item, hitem, e, he, info, hinfo, hkey, hvalue⟩ := mem_cachedCalls_data hcall
              obtain ⟨x, hx, heq⟩ := hS.data q hmem item hitem e he
              exact ⟨info, x, hinfo, by rw [hkey]; exact hx, by rw [hvalue, heq]⟩

end

/-- A turn that leaves zeros where it recycles. -/
def blanked (turn : Turn Unit) : StoreTurn Unit := .turn turn fun _ _ => 0

/-- A request arrives, sends its two batches, and merges what their callbacks have filled. -/
def merging : List (StoreTurn Unit) := blanked (.doService () numberedBackend) ::
  (List.replicate 5 (blanked (.thread 0 0)) ++ List.replicate 3 (blanked (.thread 0 1)) ++
    List.replicate 7 (blanked (.thread 0 2)))

/-- A second request, which has done with the cache after six turns. -/
def hitting : List (StoreTurn Unit) := List.replicate 6 (blanked (.thread 1 0))

/-- A hit that is lost before it is read. -/
example : (Machine.run (RedisWorld.storeStep sampleEnv) ⟨cachingNode, []⟩
    (merging ++ blanked (.doService () numberedBackend) :: .lose [97] (fun _ => 7) :: hitting)).map (fun w =>
      w.requests.map fun q => q.log[1]?) =
    some [some (.issue 0 1 [[9]] true), some (.parse ⟨[97], some [7], 0, 1, 0, true⟩ none)] := by
  decide

end Graphize
