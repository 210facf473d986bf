import Graphize.Proof.RedisMerge
import Graphize.Proof.RedisMakeUp
import Graphize.Proof.RedisRuns

/-!
# What comes back from the cache

* `mergeMap_cache`: `merge_cache_data` leaves the cache as the calls of `Set` that it logs
  leave it, one after the other.
* `mem_cachedCalls`: the calls that `parse_cached_data` makes for what `get_from_cache` has
  found.
* `cache_transparent_iff`: a parse function is given the same for a cached reply as it was
  given for the reply itself exactly when the reply is neither nil nor `" "`, the byte string
  that stands for nil in the cache (with `snappy`, exactly when it is not `" "`).
-/

namespace Graphize

variable {infos : List FetchInfo} {item : RedisResultItem}

/-! ## The cache after a merge -/

/-- What a logged call of `Set` makes of the cache. -/
def RedisEvent.write (infos : List FetchInfo) (c : Cache) : RedisEvent → Cache
  | .cacheSet key value j _ _ => c.set key value ((infos[j]?.map FetchInfo.expireTime).getD 0)
  | _ => c

/-- The event is a call of `Set` for `key`. -/
def RedisEvent.SetsKey (key : Bytes) : RedisEvent → Prop
  | .cacheSet key' _ _ _ _ => key' = key
  | _ => False

/-- Each item of `result_map` belongs to the fetch info it is filed under. -/
def OwnItems (resultMap : List (List RedisResultItem)) : Prop :=
  ∀ (p : ℕ) items, resultMap[p]? = some items → ∀ item ∈ items,
    item.fetchInfoPtr = none ∨ item.fetchInfoPtr = some p

/-- A call of `Set` writes what it logs: the settings are those of the fetch info that the
event names. -/
theorem MergeSet.write {resultMap : List (List RedisResultItem)} (hown : OwnItems resultMap)
    {s s' : Cache × List RedisEvent} (h : MergeSet infos resultMap s s') :
    ∃ ev, s' = (RedisEvent.write infos s.1 ev, s.2 ++ [ev]) := by
  cases h with
  | @set j k key v len p first item items info hp hinfo hu hitem hptr hkey hval hlen =>
    refine ⟨.cacheSet key (cacheValue v len) j item.startIndex k, ?_⟩
    have hj : j = p := by
      rcases hown p _ hp item hitem with h | h
      · rw [hptr] at h
        cases h
      · rw [hptr] at h
        exact Option.some.inj h
    have hfirst : infos[p]? = some info := by
      rcases hown p _ hp first List.mem_cons_self with h | h
      · rw [h] at hinfo
        cases hinfo
      · rw [h] at hinfo
        exact hinfo
    rw [RedisEvent.write, hj, hfirst, Option.map_some, Option.getD_some]

/-- **`merge_cache_data` writes what it logs, and nothing else.** -/
theorem mergeMap_cache (infos : List FetchInfo) {resultMap : List (List RedisResultItem)} (hown : OwnItems resultMap)
    (ps : List ℕ) (s : Cache × List RedisEvent) : ∃ evs, (mergeMap infos resultMap ps s).1 =
      (evs.foldl (RedisEvent.write infos) s.1, s.2 ++ evs) := by
  have hpath := mergeMap_path infos resultMap ps s
  generalize (mergeMap infos resultMap ps s).1 = s' at hpath
  induction hpath with
  | refl => exact ⟨[], by rw [List.foldl_nil, List.append_nil]⟩
  | tail _ hset ih =>
    obtain ⟨evs, hevs⟩ := ih
    obtain ⟨ev, hev⟩ := hset.write hown
    exact ⟨evs ++ [ev], by rw [hev, hevs, List.foldl_append, List.append_assoc, List.foldl_cons, List.foldl_nil]⟩

/-- Calls of `Set` for other keys leave an entry alone. -/
theorem foldl_write_other {key : Bytes} : ∀ {evs : List RedisEvent} {c : Cache},
    (∀ ev ∈ evs, ¬ ev.SetsKey key) → evs.foldl (RedisEvent.write infos) c key = c key := by
  intro evs
  induction evs with
  | nil => intro c _; rfl
  | cons ev evs ih =>
    intro c h
    rw [List.foldl_cons, ih fun e he => h e (List.mem_cons_of_mem _ he)]
    have hev := h ev List.mem_cons_self
    cases ev with
    | cacheSet key' value j i k =>
      have hne : key ≠ key' := fun he => hev he.symm
      show Cache.set c key' value _ key = c key
      unfold Cache.set
      split
      · rfl
      · exact Function.update_of_ne hne _ _
    | _ => rfl

/-- The last call of `Set` for a key. -/
theorem foldl_write_last {key value : Bytes} {j i k : ℕ} {l l' : List RedisEvent} {c : Cache}
    (hl' : ∀ ev ∈ l', ¬ ev.SetsKey key) :
    (l ++ .cacheSet key value j i k :: l').foldl (RedisEvent.write infos) c key =
      (l.foldl (RedisEvent.write infos) c).set key value ((infos[j]?.map FetchInfo.expireTime).getD 0) key := by
  rw [List.foldl_append, List.foldl_cons, foldl_write_other hl']
  rfl

/-! ## Looking keys up -/

/-- What `get_from_cache` makes of a cached value. -/
def cachedData (value : Bytes) : Bytes := if value = blank then [] else value

/-- `data_map[key] = value` keeps the other entries, and adds one for the key. -/
theorem mem_dataMapSet {m : List (Bytes × Bytes)} {key value : Bytes} {e : Bytes × Bytes} :
    e ∈ dataMapSet m key value ↔ e = (key, value) ∨ e.1 ≠ key ∧ e ∈ m := by
  unfold dataMapSet
  by_cases h : (m.lookup key).isSome = true
  · rw [if_pos h, List.mem_map]
    constructor
    · rintro ⟨x, hx, rfl⟩
      by_cases hk : x.1 = key
      · rw [if_pos hk]; exact .inl rfl
      · rw [if_neg hk]; exact .inr ⟨hk, hx⟩
    · rintro (rfl | ⟨hk, he⟩)
      · obtain ⟨v, hv⟩ := Option.isSome_iff_exists.1 h
        obtain ⟨l₁, l₂, rfl, -⟩ := List.lookup_eq_some_iff.1 hv
        exact ⟨(key, v), by simp, by simp⟩
      · exact ⟨e, he, if_neg hk⟩
  · rw [if_neg h, List.mem_append, List.mem_singleton]
    have hno : ∀ x ∈ m, x.1 ≠ key := by
      have := List.lookup_eq_none_iff.1 (Option.not_isSome_iff_eq_none.1 h)
      intro x hx hk
      have := this x hx
      simp [hk] at this
    constructor
    · rintro (he | rfl)
      · exact .inr ⟨hno e he, he⟩
      · exact .inl rfl
    · rintro (rfl | ⟨-, he⟩)
      · exact .inr rfl
      · exact .inl he

/-- **What `get_from_cache` finds**: exactly the cached keys, each with its value. -/
theorem mem_getFromCache (c : Cache) : ∀ (keys : List Bytes) (s : List Bytes × List (Bytes × Bytes))
    (key data : Bytes), (∀ e ∈ s.2, ∃ value, c.get e.1 = some value ∧ e.2 = cachedData value) →
    ((key, data) ∈ (keys.foldl (getFromCacheStep c) s).2 ↔
      (key, data) ∈ s.2 ∨ key ∈ keys ∧ ∃ value, c.get key = some value ∧ data = cachedData value) := by
  intro keys
  induction keys with
  | nil => intro s key data _; simp
  | cons k keys ih =>
    intro s key data hs
    rw [List.foldl_cons]
    cases hk : c.get k with
    | none =>
      have hstep : getFromCacheStep c s k = (s.1 ++ [k], s.2) := by unfold getFromCacheStep; rw [hk]
      rw [hstep, ih (s.1 ++ [k], s.2) key data hs]
      constructor
      · rintro (h | ⟨hm, h⟩)
        · exact .inl h
        · exact .inr ⟨List.mem_cons_of_mem _ hm, h⟩
      · rintro (h | ⟨hm, value, hv, h⟩)
        · exact .inl h
        · rcases List.mem_cons.1 hm with rfl | hm
          · rw [hk] at hv; cases hv
          · exact .inr ⟨hm, value, hv, h⟩
    | some value =>
      have hstep : getFromCacheStep c s k = (s.1, dataMapSet s.2 k (cachedData value)) := by
        unfold getFromCacheStep; rw [hk]; rfl
      have hs' : ∀ e ∈ dataMapSet s.2 k (cachedData value),
          ∃ value, c.get e.1 = some value ∧ e.2 = cachedData value := by
        intro e he
        rcases mem_dataMapSet.1 he with rfl | ⟨-, he⟩
        · exact ⟨value, hk, rfl⟩
        · exact hs e he
      rw [hstep, ih _ _ _ hs', mem_dataMapSet]
      constructor
      · rintro ((h | ⟨-, h⟩) | ⟨hm, h⟩)
        · obtain ⟨rfl, rfl⟩ := Prod.mk.inj h
          exact .inr ⟨List.mem_cons_self, value, hk, rfl⟩
        · exact .inl h
        · exact .inr ⟨List.mem_cons_of_mem _ hm, h⟩
      · rintro (h | ⟨hm, v, hv, h⟩)
        · by_cases hkey : key = k
          · -- the entry is written again with the same value
            obtain ⟨v, hv, hd⟩ := hs _ h
            simp only at hv hd
            rw [hkey, hk] at hv
            rw [← Option.some.inj hv] at hd
            exact .inl (.inl (by rw [hkey, hd]))
          · exact .inl (.inr ⟨hkey, h⟩)
        · rcases List.mem_cons.1 hm with rfl | hm
          · rw [hk] at hv
            rw [← Option.some.inj hv] at h
            exact .inl (.inl (by rw [h]))
          · exact .inr ⟨hm, v, hv, h⟩

/-- A key without an entry is missed. -/
theorem mem_miss (c : Cache) {key : Bytes} (hkey : c.get key = none) :
    ∀ (keys : List Bytes) (s : List Bytes × List (Bytes × Bytes)), key ∈ s.1 ∨ key ∈ keys →
      key ∈ (keys.foldl (getFromCacheStep c) s).1 := by
  intro keys
  induction keys with
  | nil => intro s h; simpa using h
  | cons k keys ih =>
    intro s h
    rw [List.foldl_cons]
    apply ih
    rcases h with h | h
    · refine .inl ?_
      unfold getFromCacheStep
      cases c.get k with
      | none => exact List.mem_append_left _ h
      | some value => exact h
    · rcases List.mem_cons.1 h with rfl | h
      · refine .inl ?_
        unfold getFromCacheStep
        rw [hkey]
        exact List.mem_append_right _ (List.mem_singleton.2 rfl)
      · exact .inr h

section Calls

variable {ρ : Type*} {env : RedisEnv ρ} {c : Cache} {vec : List FetchInfo} {info : FetchInfo} {j : ℕ}

/-- **The calls of `parse_cached_data`** for what `get_from_cache` has found. -/
theorem mem_cachedCalls (env : RedisEnv ρ) (c : Cache) (hinfo : vec[j]? = some info) (huse : info.useCache = true) (keys : List Bytes)
    (call : ParseCall) :
    call ∈ cachedCalls env vec (getFromCache c keys j).2 ↔
      ∃ key ∈ keys, ∃ value, c.get key = some value ∧
        call = ⟨key, parseValue env info (some (cachedData value)), 0, 1, j, true⟩ := by
  have hmem := fun key data => mem_getFromCache c keys ([], []) key data (by simp)
  have hcalls : ∀ dataMap, call ∈ cachedCalls env vec (if dataMap = [] then [] else [⟨dataMap, j⟩]) ↔
      ∃ e ∈ dataMap, call = ⟨e.1, parseValue env info (some e.2), 0, 1, j, true⟩ := by
    intro dataMap
    by_cases hd : dataMap = []
    · simp [hd, cachedCalls]
    · rw [if_neg hd]
      simp only [cachedCalls, List.flatMap_cons, List.flatMap_nil, List.append_nil, hinfo, huse,
        if_true, List.mem_map, (env.dataOrder_perm dataMap).mem_iff, eq_comm]
  unfold getFromCache
  simp only [hcalls]
  constructor
  · rintro ⟨⟨key, data⟩, he, rfl⟩
    rcases (hmem key data).1 he with h | ⟨hk, value, hv, rfl⟩
    · cases h
    · exact ⟨key, hk, value, hv, rfl⟩
  · rintro ⟨key, hk, value, hv, rfl⟩
    exact ⟨(key, cachedData value), (hmem _ _).2 (.inr ⟨hk, value, hv, rfl⟩), rfl⟩

/-! ## Transparency -/

/-- The stored length of a reply, as `check_suc_rpc_response` notes it. -/
def replyLen : Option Bytes → ℕ
  | none => 0
  | some data => data.length

/-- The replies that come back from the cache as they came from redis. -/
def CacheSafe (env : RedisEnv ρ) (info : FetchInfo) (r : Option Bytes) : Prop :=
  if info.compress = "snappy".toList then r ≠ some blank ∨ env.uncompress blank = env.uncompress []
  else r ≠ none ∧ r ≠ some blank

/-- What is made of a reply by storing it and looking it up again. -/
theorem cachedData_cacheValue (r : Option Bytes) :
    cachedData (cacheValue r (replyLen r)) = if r = some blank then [] else r.getD [] := by
  cases r with
  | none => rfl
  | some data =>
    have hv : cacheValue (some data) (replyLen (some data)) = data := List.take_length
    rw [hv]
    simp [cachedData]

theorem parseValue_cached_iff {info₂ : FetchInfo} (hc : info₂.compress = info.compress) (r : Option Bytes) :
    parseValue env info₂ (some (cachedData (cacheValue r (replyLen r)))) = parseValue env info r ↔
      CacheSafe env info r := by
  rw [cachedData_cacheValue]
  unfold parseValue CacheSafe
  rw [hc]
  by_cases hs : info.compress = "snappy".toList
  · rw [if_pos hs, if_pos hs, if_pos hs]
    by_cases hr : r = some blank
    · subst hr
      simp [eq_comm]
    · simp [hr]
  · rw [if_neg hs, if_neg hs, if_neg hs]
    by_cases hr : r = some blank
    · subst hr
      simp [blank]
    · cases r with
      | none => simp
      | some data => simp [hr]

/-! ## What one merge leaves for a key -/

/-- **The entry of a key**, by the last call of `Set` for it. -/
theorem mergeMap_entry {resultMap : List (List RedisResultItem)} (hown : OwnItems resultMap) {ps : List ℕ}
    {c c₁ : Cache} {log l l' : List RedisEvent} {e : MergeEnd} {key value : Bytes} {i k : ℕ}
    (hmerge : mergeMap infos resultMap ps (c, log) = ((c₁, log ++ (l ++ .cacheSet key value j i k :: l')), e))
    (hlast : ∀ ev ∈ l', ¬ ev.SetsKey key) (hinfo : infos[j]? = some info) :
    c₁ key = (l.foldl (RedisEvent.write infos) c).set key value info.expireTime key := by
  obtain ⟨evs, hcache⟩ := mergeMap_cache infos hown ps (c, log)
  rw [hmerge] at hcache
  obtain ⟨hc₁, hevs⟩ := Prod.mk.inj hcache
  rw [← List.append_cancel_left hevs] at hc₁
  have hexp : (infos[j]?.map FetchInfo.expireTime).getD 0 = info.expireTime := by rw [hinfo]; rfl
  rw [hc₁, foldl_write_last hlast, hexp]

/-- A reply that is not the empty string is not stored as one. -/
theorem cacheValue_ne_nil {r : Option Bytes} (hr : r ≠ some []) : cacheValue r (replyLen r) ≠ [] := by
  cases r with
  | none => decide
  | some data =>
    show data.take data.length ≠ []
    rw [List.take_length]
    exact fun h => hr (by rw [h])

/-- The call that `parse_redis_response` makes for one value. -/
theorem parseLoop_call {start sliceIndex sliceSize m : ℕ} {log : List RedisEvent} {r : Option Bytes} {rpc : ParseCall}
    {el : Option (ℕ × ℕ)} {threw : Bool}
    (h : parseLoop env info j start sliceIndex sliceSize [r] m log = (log ++ [.parse rpc el], threw)) :
    rpc.value = parseValue env info r := by
  unfold parseLoop at h
  split at h
  · have := congrArg List.length (Prod.mk.inj h).1
    simp at this
  · simp only [parseLoop] at h
    split at h <;>
    · have := List.append_cancel_left (Prod.mk.inj h).1
      simp only [List.cons.injEq, RedisEvent.parse.injEq, and_true] at this
      rw [← this.1]

/-- **What a cached reply is worth.** `merge_cache_data` has stored the reply `r` for `key`,
the last call of `Set` for the key in `evs`, and nothing has been written to the entry since;
`get_from_cache` looks the key up for the same fetch info of a later request. What the cached
path hands to the parse function is what the rpc path hands to it, exactly for the replies
that are `CacheSafe`. A reply that `Set` refuses leaves a miss. -/
theorem cache_transparent_iff {resultMap : List (List RedisResultItem)} (hown : OwnItems resultMap)
    {ps : List ℕ} {c c₁ : Cache} {log : List RedisEvent} {l l' : List RedisEvent} {e : MergeEnd}
    {key : Bytes} {r : Option Bytes} {i k : ℕ}
    (hmerge : mergeMap infos resultMap ps (c, log) =
      ((c₁, log ++ (l ++ .cacheSet key (cacheValue r (replyLen r)) j i k :: l')), e))
    (hlast : ∀ ev ∈ l', ¬ ev.SetsKey key)
    (hinfo : infos[j]? = some info) (huse : info.useCache = true) (hexp : 0 < info.expireTime)
    (hkey : key ≠ [])
    -- a refused reply belongs to a key without an entry
    (hmiss : r = some [] → c key = none ∧ ∀ ev ∈ l, ¬ ev.SetsKey key)
    -- the rpc path
    {start sliceIndex sliceSize m : ℕ} {log' : List RedisEvent} {rpc : ParseCall} {el : Option (ℕ × ℕ)}
    {threw : Bool}
    (hrpc : parseLoop env info j start sliceIndex sliceSize [r] m log' = (log' ++ [.parse rpc el], threw))
    -- the later request
    {c₂ : Cache} (hno : c₂ key = c₁ key) {info₂ : FetchInfo} (hinfo₂ : vec[j]? = some info₂)
    (hsame : info.Same info₂) {keys : List Bytes} (hmem : key ∈ keys) :
    (r = some [] → key ∈ (getFromCache c₂ keys j).1) ∧
      ((∀ call ∈ cachedCalls env vec (getFromCache c₂ keys j).2, call.key = key → call.value = rpc.value) ↔
        CacheSafe env info r) := by
  have hentry := mergeMap_entry hown hmerge hlast hinfo
  have hval := parseLoop_call hrpc
  have hcalls := mem_cachedCalls env c₂ hinfo₂ (hsame.useCache.trans huse) keys
  by_cases hr : r = some []
  · obtain ⟨hnone, hl⟩ := hmiss hr
    have hget : c₂.get key = none := by
      have : c₁ key = none := by
        rw [hentry, hr]
        unfold Cache.set
        rw [if_pos (.inr (.inl rfl)), foldl_write_other hl, hnone]
      unfold Cache.get
      rw [if_neg hkey, hno, this]
    refine ⟨fun _ => ?_, fun _ => ?_, fun _ call hcall hk => ?_⟩
    · exact mem_miss c₂ hget keys _ (.inr hmem)
    · unfold CacheSafe
      subst hr
      split
      · exact .inl (by decide)
      · exact ⟨by simp, by decide⟩
    · obtain ⟨key', -, value, hv, rfl⟩ := (hcalls call).1 hcall
      simp only at hk
      rw [hk, hget] at hv
      cases hv
  · have hstored := cacheValue_ne_nil hr
    have hget : c₂.get key = some (cacheValue r (replyLen r)) := by
      have hset : c₁ key = some (cacheValue r (replyLen r)) := by
        rw [hentry]
        unfold Cache.set
        rw [if_neg (by rintro (h | h | h) <;> [exact hkey h; exact hstored h; omega])]
        exact Function.update_self _ _ _
      unfold Cache.get
      rw [if_neg hkey, hno, hset]
    refine ⟨fun h => absurd h hr, ?_⟩
    rw [← parseValue_cached_iff hsame.compress r, hval]
    constructor
    · intro h
      exact h _ ((hcalls _).2 ⟨key, hmem, _, hget, rfl⟩) rfl
    · rintro h call hcall hk
      obtain ⟨key', -, value, hv, rfl⟩ := (hcalls call).1 hcall
      simp only at hk
      rw [hk, hget] at hv
      rw [← Option.some.inj hv]
      exact h

/-! A fetch info of one key, and the cache after a merge of the reply `r` for it. -/

def cachingInfo : FetchInfo := { useCache := true, expireTime := 5, keys := [[9]] }

def cachingMap (r : Option Bytes) : List (List RedisResultItem) :=
  [[{ fetchInfoPtr := some 0, resultStrVec := [r], resultStrLenVec := [replyLen r] }]]

def cacheAfter (r : Option Bytes) : Cache :=
  (mergeMap [cachingInfo] (cachingMap r) [0] (fun _ => none, [])).1.1

/-- The byte string `7` comes back. -/
theorem cache_transparent_seven :
    (getFromCache (cacheAfter (some [7])) [[9]] 0).1 = [] ∧
      ∀ call ∈ cachedCalls sampleEnv [cachingInfo] (getFromCache (cacheAfter (some [7])) [[9]] 0).2,
        call.key = [9] → call.value = some [7] := by
  have hown : OwnItems (cachingMap (some [7])) := by
    intro p items hp item hi
    rcases p with _ | p
    · obtain rfl := Option.some.inj hp
      rw [List.mem_singleton.1 hi]
      exact .inr rfl
    · cases hp
  have hmerge : mergeMap [cachingInfo] (cachingMap (some [7])) [0] (fun _ => none, []) =
      ((cacheAfter (some [7]), [] ++ ([] ++ .cacheSet [9] (cacheValue (some [7]) (replyLen (some [7]))) 0 0 0 :: [])),
        .ok) := rfl
  have hrpc : parseLoop sampleEnv cachingInfo 0 0 0 1 [some [7]] 0 [] =
      ([] ++ [.parse ⟨[9], some [7], 0, 1, 0, false⟩ (some (0, 0))], false) := rfl
  refine ⟨rfl, (cache_transparent_iff hown hmerge (by simp) rfl rfl (by decide) (by decide) (by simp)
    hrpc rfl rfl cachingInfo.same_refl (List.mem_singleton.2 rfl)).2.2 ?_⟩
  exact ⟨by decide, by decide⟩

/-- **Two replies that do not come back**: `" "`, and nil, are handed to the parse function
as they are when they arrive, and as the empty string out of the cache. -/
theorem cache_changes_blank :
    (cachedCalls sampleEnv [cachingInfo] (getFromCache (cacheAfter (some blank)) [[9]] 0).2 =
        [⟨[9], some [], 0, 1, 0, true⟩] ∧
      parseLoop sampleEnv cachingInfo 0 0 0 1 [some blank] 0 [] =
        ([.parse ⟨[9], some blank, 0, 1, 0, false⟩ (some (0, 0))], false)) ∧
    cachedCalls sampleEnv [cachingInfo] (getFromCache (cacheAfter none) [[9]] 0).2 =
        [⟨[9], some [], 0, 1, 0, true⟩] ∧
      parseLoop sampleEnv cachingInfo 0 0 0 1 [none] 0 [] =
        ([.parse ⟨[9], none, 0, 1, 0, false⟩ (some (0, 0))], false) :=
  ⟨⟨rfl, rfl⟩, rfl, rfl⟩

end Calls

end Graphize
