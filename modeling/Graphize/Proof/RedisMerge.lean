import Graphize.Spec.RedisRun
import Mathlib.Logic.Relation

/-!
# `merge_cache_data`

* `mergeMap_path`: it only calls `Set` for result items, and `mergeMap_log` that it logs this.
* `mergeMap_ok`: it ends normally when the first item of every fetch info was filled and
  no item has more values than its fetch info has keys.
* `first_of_mergeMap_ok`: it does not when some first item was not filled.
-/

namespace Graphize

open Relation

variable {infos : List FetchInfo} {item : RedisResultItem}

/-- The key that `merge_cache_data` finds for value `k` of an item. -/
def RedisResultItem.keyOf (infos : List FetchInfo) (item : RedisResultItem) (k : ℕ) : Option Bytes :=
  item.fetchInfoPtr.bind fun j => infos[j]?.bind fun info => info.keys[item.startIndex + k]?

/-- The call of `Set` for value `k` of `item`. -/
inductive CacheWrite (infos : List FetchInfo) (item : RedisResultItem) : RedisEvent → Prop
  | set {j k key v len} (hptr : item.fetchInfoPtr = some j) (hkey : item.keyOf infos k = some key)
      (hval : item.resultStrVec[k]? = some v) (hlen : item.resultStrLenVec[k]? = some len) :
      CacheWrite infos item
        (.cacheSet key (cacheValue v len) j item.startIndex k)

/-- The call of `Set` for some value of some item of `resultMap`. -/
def MapWrite (infos : List FetchInfo) (resultMap : List (List RedisResultItem)) (e : RedisEvent) : Prop :=
  ∃ items ∈ resultMap, ∃ item ∈ items, CacheWrite infos item e

/-- The same for an item of a fetch info that uses the cache. -/
def CachedWrite (infos : List FetchInfo) (resultMap : List (List RedisResultItem)) (e : RedisEvent) : Prop :=
  ∃ first items info, first :: items ∈ resultMap ∧ (first.fetchInfoPtr.bind fun j => infos[j]?) = some info ∧
    info.useCache = true ∧ ∃ item ∈ first :: items, CacheWrite infos item e

/-! ## One round of a loop -/

section Rounds

variable {S : Type*} {f : S → S × MergeEnd} {r : S × MergeEnd}

/-- A loop whose round has come to `r` goes on with `f`, unless the round failed. -/
def goOn (f : S → S × MergeEnd) : S × MergeEnd → S × MergeEnd
  | (s, .ok) => f s
  | r => r

theorem goOn_of_ok (hr : r.2 = .ok) : goOn f r = f r.1 := by
  obtain ⟨s, e⟩ := r
  subst hr
  rfl

theorem goOn_of_ne (hr : r.2 ≠ .ok) : goOn f r = r := by
  obtain ⟨s, e⟩ := r
  cases e with
  | ok => exact absurd rfl hr
  | throw => rfl
  | nullDeref => rfl

theorem goOn_path {R : S → S → Prop} {s : S} (hr : ReflTransGen R s r.1) (hf : ∀ s, ReflTransGen R s (f s).1) :
    ReflTransGen R s (goOn f r).1 := by
  by_cases h : r.2 = .ok
  · rw [goOn_of_ok h]
    exact hr.trans (hf r.1)
  · rwa [goOn_of_ne h]

end Rounds

theorem mergeItems_cons (infos : List FetchInfo) (expireTime : ℤ) (item : RedisResultItem) (rest : List RedisResultItem)
    (s : Cache × List RedisEvent) : mergeItems infos expireTime (item :: rest) s =
      goOn (mergeItems infos expireTime rest) (mergeValues infos expireTime item item.resultStrVec 0 s) := by
  rw [mergeItems]
  rcases mergeValues infos expireTime item item.resultStrVec 0 s with ⟨s', e⟩
  cases e <;> rfl

/-- What a round of the loop over `result_map` comes to at `p`. -/
inductive MergeRound (infos : List FetchInfo) (resultMap : List (List RedisResultItem)) (p : ℕ)
    (s : Cache × List RedisEvent) : (Cache × List RedisEvent) × MergeEnd → Prop
  | skip (hno : ∀ first items, resultMap[p]? ≠ some (first :: items)) : MergeRound infos resultMap p s (s, .ok)
  | null {first items} (hp : resultMap[p]? = some (first :: items))
      (hinfo : (first.fetchInfoPtr.bind fun j => infos[j]?) = none) : MergeRound infos resultMap p s (s, .nullDeref)
  | uncached {first items info} (hp : resultMap[p]? = some (first :: items))
      (hinfo : (first.fetchInfoPtr.bind fun j => infos[j]?) = some info) (hu : info.useCache = false) :
      MergeRound infos resultMap p s (s, .ok)
  | cached {first items info} (hp : resultMap[p]? = some (first :: items))
      (hinfo : (first.fetchInfoPtr.bind fun j => infos[j]?) = some info) (hu : info.useCache = true) :
      MergeRound infos resultMap p s (mergeItems infos info.expireTime (first :: items) s)

/-- **One round of `merge_cache_data`.** -/
theorem mergeMap_cons (infos : List FetchInfo) (resultMap : List (List RedisResultItem)) (p : ℕ) (rest : List ℕ)
    (s : Cache × List RedisEvent) : ∃ r, MergeRound infos resultMap p s r ∧
      mergeMap infos resultMap (p :: rest) s = goOn (mergeMap infos resultMap rest) r := by
  unfold mergeMap
  cases hp : resultMap[p]? with
  | none => exact ⟨_, .skip (by simp [hp]), rfl⟩
  | some items =>
    cases items with
    | nil => exact ⟨_, .skip (by simp [hp]), rfl⟩
    | cons first items =>
      cases hinfo : first.fetchInfoPtr.bind fun j => infos[j]? with
      | none =>
        simp only [hinfo]
        exact ⟨_, .null hp hinfo, rfl⟩
      | some info =>
        simp only [hinfo]
        cases hu : info.useCache with
        | false => exact ⟨_, .uncached hp hinfo hu, rfl⟩
        | true =>
          refine ⟨_, .cached hp hinfo hu, ?_⟩
          rw [if_pos rfl]
          rcases mergeItems infos info.expireTime (first :: items) s with ⟨s', e⟩
          cases e <;> rfl

/-! ## The merge as a path of writes -/

/-- A call of `Set` for value `k` of `item`, with the expire time of its fetch info. -/
inductive MergeSet (infos : List FetchInfo) (resultMap : List (List RedisResultItem)) :
    Cache × List RedisEvent → Cache × List RedisEvent → Prop
  | set {s j k key v len} {p : ℕ} {first item : RedisResultItem} {items : List RedisResultItem} {info : FetchInfo}
      (hp : resultMap[p]? = some (first :: items))
      (hinfo : (first.fetchInfoPtr.bind fun j => infos[j]?) = some info) (hu : info.useCache = true)
      (hitem : item ∈ first :: items) (hptr : item.fetchInfoPtr = some j) (hkey : item.keyOf infos k = some key)
      (hval : item.resultStrVec[k]? = some v) (hlen : item.resultStrLenVec[k]? = some len) :
      MergeSet infos resultMap s (s.1.set key (cacheValue v len) info.expireTime,
        s.2 ++ [.cacheSet key (cacheValue v len) j item.startIndex k])

section Path

variable {R : Cache × List RedisEvent → Cache × List RedisEvent → Prop} {expireTime : ℤ}

theorem mergeValues_path
    (hset : ∀ s j k key v len, item.fetchInfoPtr = some j → item.keyOf infos k = some key →
      item.resultStrVec[k]? = some v → item.resultStrLenVec[k]? = some len →
      R s (s.1.set key (cacheValue v len) expireTime, s.2 ++ [.cacheSet key (cacheValue v len) j item.startIndex k])) :
    ∀ values k s, (∀ i v, values[i]? = some v → item.resultStrVec[k + i]? = some v) →
      ReflTransGen R s (mergeValues infos expireTime item values k s).1 := by
  intro values
  induction values with
  | nil => intro k s _; exact .refl
  | cons value rest ih =>
    intro k s hv
    have hrest : ∀ i v, rest[i]? = some v → item.resultStrVec[k + 1 + i]? = some v := by
      intro i v h
      have := hv (i + 1) v (by simpa using h)
      rwa [Nat.add_assoc, Nat.add_comm 1 i]
    unfold mergeValues
    cases hlen : item.resultStrLenVec[k]? with
    | none => exact ih (k + 1) s hrest
    | some len =>
      cases hptr : item.fetchInfoPtr with
      | none => exact .refl
      | some j =>
        cases hkey : infos[j]?.bind fun fetchInfo => fetchInfo.keys[item.startIndex + k]? with
        | none =>
          simp only [hkey]
          exact .refl
        | some key =>
          simp only [hkey]
          refine .head (hset s j k key value len hptr ?_ (hv 0 value rfl) hlen) (ih (k + 1) _ hrest)
          unfold RedisResultItem.keyOf
          rw [hptr]
          exact hkey

theorem mergeItems_path (infos : List FetchInfo) : ∀ items,
    (∀ item ∈ items, ∀ s, ReflTransGen R s (mergeValues infos expireTime item item.resultStrVec 0 s).1) →
    ∀ s, ReflTransGen R s (mergeItems infos expireTime items s).1 := by
  intro items
  induction items with
  | nil => intro _ s; exact .refl
  | cons item rest ih =>
    intro h s
    rw [mergeItems_cons]
    exact goOn_path (h item List.mem_cons_self s) (ih fun item' hi => h item' (List.mem_cons_of_mem _ hi))

end Path

/-- **`merge_cache_data` only calls `Set`** for the values of result items, and only for
fetch infos that use the cache. -/
theorem mergeMap_path (infos : List FetchInfo) (resultMap : List (List RedisResultItem)) :
    ∀ ps s, ReflTransGen (MergeSet infos resultMap) s (mergeMap infos resultMap ps s).1 := by
  intro ps
  induction ps with
  | nil => intro s; exact .refl
  | cons p rest ih =>
    intro s
    obtain ⟨r, hround, heq⟩ := mergeMap_cons infos resultMap p rest s
    rw [heq]
    refine goOn_path ?_ ih
    cases hround with
    | skip => exact .refl
    | null => exact .refl
    | uncached => exact .refl
    | cached hp hinfo hu =>
      refine mergeItems_path infos _ (fun item hitem s => mergeValues_path ?_ _ 0 s fun i v h => ?_) s
      · exact fun s j k key v len hptr hkey hval hlen => .set hp hinfo hu hitem hptr hkey hval hlen
      · rwa [Nat.zero_add]

theorem mergeMap_writes (infos : List FetchInfo) (resultMap : List (List RedisResultItem)) (ps : List ℕ)
    (s : Cache × List RedisEvent) :
    ∃ evs, (mergeMap infos resultMap ps s).1.2 = s.2 ++ evs ∧ ∀ e ∈ evs, CachedWrite infos resultMap e := by
  have hpath := mergeMap_path infos resultMap ps s
  generalize (mergeMap infos resultMap ps s).1 = s' at hpath
  induction hpath with
  | refl => exact ⟨[], (List.append_nil _).symm, by simp⟩
  | tail _ hset ih =>
    obtain ⟨evs, hlog, hevs⟩ := ih
    cases hset with
    | @set j k key v len p first item items info hp hinfo hu hitem hptr hkey hval hlen =>
      refine ⟨evs ++ [.cacheSet key (cacheValue v len) j item.startIndex k], by rw [hlog, List.append_assoc], ?_⟩
      intro e he
      rcases List.mem_append.1 he with he | he
      · exact hevs e he
      · rw [List.mem_singleton.1 he]
        exact ⟨first, items, info, List.mem_of_getElem? hp, hinfo, hu, item, hitem, .set hptr hkey hval hlen⟩

theorem mergeMap_log (infos : List FetchInfo) (resultMap : List (List RedisResultItem)) (ps : List ℕ)
    (s : Cache × List RedisEvent) :
    ∃ evs, (mergeMap infos resultMap ps s).1.2 = s.2 ++ evs ∧ ∀ e ∈ evs, MapWrite infos resultMap e := by
  obtain ⟨evs, hlog, hevs⟩ := mergeMap_writes infos resultMap ps s
  refine ⟨evs, hlog, fun e he => ?_⟩
  obtain ⟨first, items, info, hmem, -, -, item, hitem, hw⟩ := hevs e he
  exact ⟨first :: items, hmem, item, hitem, hw⟩

/-! ## How it ends -/

/-- Every value of the item has a key. -/
def RedisResultItem.Mergeable (infos : List FetchInfo) (item : RedisResultItem) : Prop :=
  ∀ k < item.resultStrVec.length, (item.keyOf infos k).isSome

theorem mergeValues_ok (infos : List FetchInfo) (expireTime : ℤ) (item : RedisResultItem) :
    ∀ values k (s : Cache × List RedisEvent),
    (∀ i < values.length, (item.keyOf infos (k + i)).isSome) →
    (mergeValues infos expireTime item values k s).2 = .ok := by
  intro values
  induction values with
  | nil => intro k s _; rfl
  | cons value rest ih =>
    intro k s hk
    have hrest : ∀ i < rest.length, (item.keyOf infos (k + 1 + i)).isSome := by
      intro i hi
      have := hk (i + 1) (by simpa using hi)
      rwa [Nat.add_assoc, Nat.add_comm 1 i]
    obtain ⟨key, hkey⟩ := Option.isSome_iff_exists.1 (hk 0 (by simp))
    unfold RedisResultItem.keyOf at hkey
    obtain ⟨j, hptr, hkey⟩ := Option.bind_eq_some_iff.1 hkey
    rw [Nat.add_zero] at hkey
    unfold mergeValues
    cases item.resultStrLenVec[k]? with
    | none => exact ih (k + 1) s hrest
    | some len =>
      simp only [hptr, hkey]
      exact ih (k + 1) _ hrest

theorem mergeItems_ok (infos : List FetchInfo) (expireTime : ℤ) : ∀ items (s : Cache × List RedisEvent),
    (∀ item ∈ items, item.Mergeable infos) → (mergeItems infos expireTime items s).2 = .ok := by
  intro items
  induction items with
  | nil => intro s _; rfl
  | cons item rest ih =>
    intro s hi
    have h := mergeValues_ok infos expireTime item item.resultStrVec 0 s
      (fun k hk => by rw [Nat.zero_add]; exact hi item List.mem_cons_self k hk)
    rw [mergeItems_cons, goOn_of_ok h]
    exact ih _ fun item' h' => hi item' (List.mem_cons_of_mem _ h')

/-- The pointer through which the settings are read is not null. -/
def RedisResultItem.Filled (infos : List FetchInfo) (item : RedisResultItem) : Prop :=
  (item.fetchInfoPtr.bind fun j => infos[j]?).isSome

theorem mergeMap_ok {resultMap : List (List RedisResultItem)}
    (hfirst : ∀ (p : ℕ) first items, resultMap[p]? = some (first :: items) → first.Filled infos)
    (hall : ∀ items ∈ resultMap, ∀ item ∈ items, item.Mergeable infos) :
    ∀ ps (s : Cache × List RedisEvent), (mergeMap infos resultMap ps s).2 = .ok := by
  intro ps
  induction ps with
  | nil => intro s; rfl
  | cons p rest ih =>
    intro s
    obtain ⟨r, hround, heq⟩ := mergeMap_cons infos resultMap p rest s
    have hr : r.2 = .ok := by
      cases hround with
      | skip => rfl
      | null hp hinfo =>
        have hfilled := hfirst p _ _ hp
        unfold RedisResultItem.Filled at hfilled
        rw [hinfo] at hfilled
        exact absurd hfilled (by simp)
      | uncached => rfl
      | cached hp => exact mergeItems_ok infos _ _ s (hall _ (List.mem_of_getElem? hp))
    rw [heq, goOn_of_ok hr]
    exact ih r.1

theorem mergeMap_ne_throw {resultMap : List (List RedisResultItem)}
    (hall : ∀ items ∈ resultMap, ∀ item ∈ items, item.Mergeable infos) :
    ∀ ps (s : Cache × List RedisEvent), (mergeMap infos resultMap ps s).2 ≠ .throw := by
  intro ps
  induction ps with
  | nil => intro s; simp [mergeMap]
  | cons p rest ih =>
    intro s
    obtain ⟨r, hround, heq⟩ := mergeMap_cons infos resultMap p rest s
    rw [heq]
    cases hround with
    | skip => exact ih s
    | null => exact MergeEnd.noConfusion
    | uncached => exact ih s
    | cached hp =>
      rw [goOn_of_ok (mergeItems_ok infos _ _ s (hall _ (List.mem_of_getElem? hp)))]
      exact ih _

theorem first_of_mergeMap_ok {resultMap : List (List RedisResultItem)} :
    ∀ ps (s : Cache × List RedisEvent), (mergeMap infos resultMap ps s).2 = .ok →
      ∀ p ∈ ps, ∀ first items, resultMap[p]? = some (first :: items) → first.Filled infos := by
  intro ps
  induction ps with
  | nil => intro s _ p hp; simp at hp
  | cons q rest ih =>
    intro s h p hp first items hitems
    obtain ⟨r, hround, heq⟩ := mergeMap_cons infos resultMap q rest s
    rw [heq] at h
    have hr : r.2 = .ok := by
      by_contra hne
      rw [goOn_of_ne hne] at h
      exact hne h
    rw [goOn_of_ok hr] at h
    rcases List.mem_cons.1 hp with rfl | hp
    · -- this round did not end at a null pointer
      unfold RedisResultItem.Filled
      cases hround with
      | skip hno => exact absurd hitems (hno first items)
      | null => exact absurd hr (by simp)
      | uncached hp' hinfo =>
        rw [hitems, Option.some.injEq, List.cons.injEq] at hp'
        rw [hp'.1, hinfo]
        rfl
      | cached hp' hinfo =>
        rw [hitems, Option.some.injEq, List.cons.injEq] at hp'
        rw [hp'.1, hinfo]
        rfl
    · exact ih r.1 h p hp first items hitems

end Graphize
