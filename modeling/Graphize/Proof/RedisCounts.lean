import Graphize.Proof.RedisThreads
import Mathlib.Algebra.BigOperators.Group.Finset.Piecewise
import Mathlib.Algebra.BigOperators.Intervals

/-!
# The two countdowns

`item_size_cond` of a fetch info counts the rounds and the batches that are not done,
`cond` the fetch infos. `Counts.step`: every step keeps them exact, and the finishing
step is due, under way or done, but never twice.
-/

namespace Graphize

open Threads

/-! ## Weights -/

/-- The operation `o`. -/
def isW (o : Op) (op : Op) : ℕ := if op = o then 1 else 0

/-- What `cond` counts, the fetch infos with open batches apart. -/
def condW : Op → ℕ
  | .fetchInfo _ => 1
  | .condDone _ => 1
  | _ => 0

/-- `keys.size()` of the fetch info at place `j`. -/
def keysAt (vec : List FetchInfo) (j : ℕ) : ℕ := (vec[j]?.map fun info => info.keys.length).getD 0

/-- What `item_size_cond` of fetch info `j` counts. -/
def itemW (vec : List FetchInfo) (j : ℕ) : Op → ℕ
  | .itemDone j' _ => if j' = j then 1 else 0
  | .issue j' i step => if j' = j then rounds (keysAt vec j) i step else 0
  | _ => 0

/-- The number of fetch infos with open batches. -/
def openInfos (n : ℕ) (itemSizeCond : ℕ → ℤ) : ℕ :=
  ∑ j ∈ Finset.range n, if 0 < itemSizeCond j then 1 else 0

theorem openInfos_update {n j : ℕ} (hj : j < n) (f : ℕ → ℤ) (c : ℤ) :
    openInfos n (Function.update f j c) + (if 0 < f j then 1 else 0) =
      openInfos n f + (if 0 < c then 1 else 0) := by
  unfold openInfos
  have hmem : j ∈ Finset.range n := Finset.mem_range.2 hj
  rw [← Finset.add_sum_erase _ _ hmem, ← Finset.add_sum_erase (Finset.range n) (fun j => if 0 < f j then 1 else 0) hmem]
  have hrest : ∑ x ∈ (Finset.range n).erase j, (if 0 < Function.update f j c x then 1 else 0) =
      ∑ x ∈ (Finset.range n).erase j, (if 0 < f x then 1 else 0) :=
    Finset.sum_congr rfl fun x hx => by rw [Function.update_of_ne (Finset.ne_of_mem_erase hx)]
  rw [hrest, Function.update_self]
  omega

theorem weight_finishOps (w : Op → ℕ) (p : Option Bool) (sendRpc : Bool) :
    weight w (finishOps p sendRpc) = w .mergeCacheData +
      (if p.isSome then (if sendRpc then 0 else w .parseCachedData) + w .wait else 0) +
        (w .processResponse + w .runOutputNodes) := by
  cases p with
  | none => simp [finishOps]
  | some done => cases sendRpc <;> simp [finishOps] <;> ring

theorem weight_ite (w : Op → ℕ) (c : Prop) [Decidable c] (op : Op) :
    weight w (if c then [] else [op]) = if c then 0 else w op := by
  split <;> simp

/-- The two ways in which a callback goes on. -/
theorem weight_endTry (w : Op → ℕ) {tail : List Op} {j : ℕ} (h : tail = [.endTry j] ∨ tail = []) :
    weight w tail = if tail = [] then 0 else w (.endTry j) := by
  rcases h with rfl | rfl <;> simp

theorem keysAt_eq {vec : List FetchInfo} {j : ℕ} {info : FetchInfo} (h : vec[j]? = some info) :
    keysAt vec j = info.keys.length := by
  unfold keysAt
  rw [h]
  rfl

/-- The three operations that are due once, with what they log. -/
inductive Token : Op → RedisEvent → Prop
  | merge : Token .mergeCacheData .merged
  | process : Token .processResponse .process
  | output : Token .runOutputNodes .output

/-- What the countdowns say. -/
structure Counts (s : Serving) : Prop where
  items : ∀ j, s.request.itemSizeCond j = total (itemW s.node.fetchInfoVec j) s.request.threads
  infos : ∀ j, total (isW (.fetchInfo j)) s.request.threads + (if 0 < s.request.itemSizeCond j then 1 else 0) ≤ 1
  cond : s.request.cond = total condW s.request.threads +
    openInfos s.node.fetchInfoVec.length s.request.itemSizeCond
  tokens : ∀ op ev, Token op ev →
    total (isW op) s.request.threads + s.request.log.count ev + (if 0 < s.request.cond then 1 else 0) = 1

section Steps

variable {ρ : Type*} {env : RedisEnv ρ} {s s' : Serving} {t : ℕ} {op : Op} {rest : List Op}

/-- `item_size_cond` of a fetch info whose turn has not come. -/
theorem Counts.not_open (hc : Counts s) {j : ℕ} (h : .fetchInfo j ∈ rest) (hr : rest ∈ s.request.threads) :
    s.request.itemSizeCond j = 0 := by
  have h1 := hc.infos j
  have h2 := hc.items j
  have h3 : isW (.fetchInfo j) (.fetchInfo j) ≤ _ := op_le_total hr h
  rw [isW, if_pos rfl] at h3
  by_cases hpos : 0 < s.request.itemSizeCond j
  · rw [if_pos hpos] at h1
    omega
  · omega

theorem Counts.items_step (hc : Counts s) (hs : Shape env s) (hb : env.BatchSizeOK)
    (ht : s.request.threads[t]? = some (op :: rest)) (hact : Act env s t rest op s') (j : ℕ) :
    s'.request.itemSizeCond j = total (itemW s'.node.fetchInfoVec j) s'.request.threads := by
  have hj := hc.items j
  have hmem := List.mem_of_getElem? ht
  have hle := le_total (w := itemW s.node.fetchInfoVec j) hmem
  have hf := hs.fits _ hmem op List.mem_cons_self
  rw [weight_cons] at hle
  rw [hact.frame.1]
  cases hact with
  | @openInfo j' info hinfo hact =>
    have h0 := hc.not_open List.mem_cons_self hmem
    simp [total_after ht, itemW]
    by_cases hjj : j' = j
    · subst hjj
      rw [Function.update_self, if_pos rfl, keysAt_eq hinfo, info.rounds_step hb hact.keys]
      omega
    · rw [Function.update_of_ne (Ne.symm hjj), if_neg hjj]
      omega
  -- the loop over the batches has ended, so it owes no item
  | @roundsEnd j' i step info hinfo hi =>
    obtain ⟨info', hin⟩ := hf
    obtain rfl : info = info' := Option.some.inj (hinfo.symm.trans hin.1)
    have h0 : j' = j → rounds (keysAt s.node.fetchInfoVec j) i step = 0 := by
      rintro rfl
      rw [keysAt_eq hinfo, rounds_eq_zero (hin.2.2.1 ▸ info.step_pos hb hin.2.1.keys) hi]
    simp [total_after ht, itemW]
    split <;> grind
  | @accept j' i step info key hinfo hkey hacc =>
    obtain ⟨info', hin⟩ := hf
    obtain rfl : info = info' := Option.some.inj (hinfo.symm.trans hin.1)
    have h0 : j' = j → rounds (keysAt s.node.fetchInfoVec j) i step =
        rounds (keysAt s.node.fetchInfoVec j) (i + step) step + 1 := by
      rintro rfl
      rw [keysAt_eq hinfo, rounds_succ (hin.2.2.1 ▸ info.step_pos hb hin.2.1.keys)
        (List.getElem?_eq_some_iff.1 hkey).1]
    simp [total_after ht, itemW] at hle ⊢
    by_cases hjj : j' = j <;> simp [hjj, h0] at hle ⊢ <;> omega
  | @refuse j' i step info key hinfo hkey hacc =>
    obtain ⟨info', hin⟩ := hf
    obtain rfl : info = info' := Option.some.inj (hinfo.symm.trans hin.1)
    have h0 : j' = j → rounds (keysAt s.node.fetchInfoVec j) i step =
        rounds (keysAt s.node.fetchInfoVec j) (i + step) step + 1 := by
      rintro rfl
      rw [keysAt_eq hinfo, rounds_succ (hin.2.2.1 ▸ info.step_pos hb hin.2.1.keys)
        (List.getElem?_eq_some_iff.1 hkey).1]
    simp [total_after ht, itemW] at hle ⊢
    by_cases hjj : j' = j <;> simp [hjj, h0] at hle ⊢ <;> omega
  | callback hinfo hitems hitem hfill hrest htail =>
    subst hrest
    simp [total_after ht, itemW, weight_endTry _ htail] at hle ⊢
    split_ifs at hle ⊢ <;> omega
  | @itemDone j' sendRpc =>
    simp [total_after ht, itemW] at hle ⊢
    by_cases hjj : j' = j
    · subst hjj
      simp at hle ⊢
      omega
    · simp [hjj, Function.update_of_ne (Ne.symm hjj)]
      omega
  | @lastItemDone j' sendRpc hone =>
    simp [total_after ht, itemW] at hle ⊢
    by_cases hjj : j' = j
    · subst hjj
      simp at hle ⊢
      omega
    · simp [hjj, Function.update_of_ne (Ne.symm hjj)]
      omega
  -- the end of the request counts no item
  | lastCondDone => simp [total_after ht, itemW, weight_finishOps]; omega
  | cachedTail =>
    simp [total_after ht, itemW, weight_ite] at hle ⊢
    omega
  | _ => simp [total_after ht, itemW]; omega

theorem Counts.infos_step (hc : Counts s) (ht : s.request.threads[t]? = some (op :: rest))
    (hact : Act env s t rest op s') (j : ℕ) : total (isW (.fetchInfo j)) s'.request.threads +
      (if 0 < s'.request.itemSizeCond j then 1 else 0) ≤ 1 := by
  have hj := hc.infos j
  have hmem := List.mem_of_getElem? ht
  have hle := le_total (w := isW (.fetchInfo j)) hmem
  have hitems := hc.items j
  rw [weight_cons] at hle
  cases hact with
  | @openInfo j' info hinfo hact =>
    simp [total_after ht, isW] at hle ⊢
    by_cases hjj : j' = j
    · subst hjj
      simp at hle ⊢
      split_ifs at hj ⊢ <;> omega
    · simp [hjj, Function.update_of_ne (Ne.symm hjj)] at hle ⊢
      omega
  | callback hinfo hitems hitem hfill hrest htail =>
    subst hrest
    simp [total_after ht, isW, weight_endTry _ htail] at hle ⊢
    omega
  | @itemDone j' sendRpc =>
    simp [total_after ht, isW] at hle ⊢
    by_cases hjj : j' = j
    · subst hjj
      simp
      split_ifs at hj ⊢ <;> omega
    · simp [Function.update_of_ne (Ne.symm hjj)]
      omega
  | @lastItemDone j' sendRpc hone =>
    simp [total_after ht, isW] at hle ⊢
    by_cases hjj : j' = j
    · subst hjj
      simp
      omega
    · simp [Function.update_of_ne (Ne.symm hjj)]
      omega
  | lastCondDone => simp [total_after ht, isW, weight_finishOps] at hle ⊢; omega
  | cachedTail => simp [total_after ht, isW, weight_ite] at hle ⊢; omega
  | _ => simp [total_after ht, isW] at hle ⊢; omega

theorem Counts.cond_step (hc : Counts s) (hs : Shape env s) (hb : env.BatchSizeOK)
    (ht : s.request.threads[t]? = some (op :: rest)) (hact : Act env s t rest op s') :
    s'.request.cond = total condW s'.request.threads +
      openInfos s'.node.fetchInfoVec.length s'.request.itemSizeCond := by
  have hcond := hc.cond
  have hmem := List.mem_of_getElem? ht
  have hle := le_total (w := condW) hmem
  have hf := hs.fits _ hmem op List.mem_cons_self
  rw [weight_cons] at hle
  rw [hact.frame.1]
  cases hact with
  | @openInfo j info hinfo hact =>
    have h0 := hc.not_open List.mem_cons_self hmem
    have hpos := info.batches_pos hb hact.keys
    -- the fetch info was closed and has a batch, so one more is open
    have hupd := openInfos_update (List.getElem?_eq_some_iff.1 hinfo).1 s.request.itemSizeCond (info.batches env)
    rw [h0, if_neg (lt_irrefl _), if_pos (by exact_mod_cast hpos)] at hupd
    simp [total_after ht, condW] at hle ⊢
    omega
  | callback hinfo hitems hitem hfill hrest htail =>
    subst hrest
    simp [total_after ht, condW, weight_endTry _ htail] at hle ⊢
    omega
  | @itemDone j sendRpc hne =>
    -- this item is one of at least two: the fetch info stays open
    have hupd := openInfos_update hf s.request.itemSizeCond (s.request.itemSizeCond j - 1)
    have hitem := hc.items j
    have h1 := le_total (w := itemW s.node.fetchInfoVec j) hmem
    rw [weight_cons, itemW, if_pos rfl] at h1
    rw [if_pos (by omega), if_pos (by omega)] at hupd
    simp [total_after ht, condW] at hle ⊢
    omega
  | @lastItemDone j sendRpc hone =>
    -- the last item closes the fetch info
    have hupd := openInfos_update hf s.request.itemSizeCond 0
    rw [if_pos (by omega), if_neg (lt_irrefl _)] at hupd
    simp [total_after ht, condW] at hle ⊢
    omega
  | lastCondDone hone => simp [total_after ht, condW, weight_finishOps] at hle ⊢; omega
  | cachedTail => simp [total_after ht, condW, weight_ite] at hle ⊢; omega
  | _ => simp [total_after ht, condW] at hle ⊢; omega

theorem itemParses_parse {info : FetchInfo} {j sliceIndex sliceSize : ℕ} {item : RedisResultItem} :
    ∀ e ∈ itemParses env info j sliceIndex sliceSize item, ∃ call el, e = .parse call (some el) := by
  intro e he
  obtain ⟨-, hparse⟩ := parseOf_of_mem he
  cases hparse
  exact ⟨_, _, rfl⟩

theorem merge_cacheSet {infos : List FetchInfo} {resultMap : List (List RedisResultItem)} {ps : List ℕ}
    {c cache : Cache} {log evs : List RedisEvent} {e : MergeEnd}
    (h : mergeMap infos resultMap ps (c, log) = ((cache, log ++ evs), e)) :
    ∀ e ∈ evs, MapWrite infos resultMap e := by
  obtain ⟨evs', h1, h2⟩ := mergeMap_log infos resultMap ps (c, log)
  rw [h] at h1
  obtain rfl := List.append_cancel_left h1
  exact h2

/-- The calls that a callback makes are calls for values of its reply. -/
theorem parse_of_calls {info : FetchInfo} {j sliceIndex sliceSize : ℕ} {item : RedisResultItem}
    {evs : List RedisEvent} (h : evs <+: itemParses env info j sliceIndex sliceSize item) :
    ∀ e ∈ evs, ∃ call el, e = .parse call (some el) := fun e he => itemParses_parse e (h.subset he)

theorem count_parses {ev : RedisEvent} (hev : ∀ call el, ev ≠ .parse call el) {evs : List RedisEvent}
    (h : ∀ e ∈ evs, ∃ call el, e = .parse call (some el)) : evs.count ev = 0 := by
  refine List.count_eq_zero.2 fun hmem => ?_
  obtain ⟨call, el, rfl⟩ := h ev hmem
  exact hev _ _ rfl

theorem count_parseNone {ev : RedisEvent} (hev : ∀ call el, ev ≠ .parse call el) (calls : List ParseCall) :
    (calls.map fun call => RedisEvent.parse call none).count ev = 0 := by
  refine List.count_eq_zero.2 fun h => ?_
  obtain ⟨call, -, rfl⟩ := List.mem_map.1 h
  exact hev _ _ rfl

/-- A token is logged when its operation is executed. -/
theorem Act.token_log (hact : Act env s t rest op s') {o : Op} {ev : RedisEvent} (ho : Token o ev) :
    s'.request.log.count ev = s.request.log.count ev + isW o op := by
  have hev : ∀ call el, ev ≠ .parse call el := by intro call el h; subst h; cases ho
  cases hact with
  | callback hinfo hitems hitem hfill hrest htail hevs =>
    cases ho <;> simp [isW, count_parses hev (parse_of_calls hevs)]
  | @merge cache evs hmerge =>
    have h0 : evs.count ev = 0 := by
      refine List.count_eq_zero.2 fun h => ?_
      obtain ⟨items, -, item, -, hw⟩ := merge_cacheSet hmerge ev h
      cases ho <;> cases hw
    cases ho <;> simp [isW, h0]
  | parseCached => cases ho <;> simp [isW, count_parseNone hev]
  | _ => cases ho <;> simp [isW]

theorem Counts.tokens_step (hc : Counts s) (ht : s.request.threads[t]? = some (op :: rest))
    (hact : Act env s t rest op s') {o : Op} {ev : RedisEvent} (ho : Token o ev) :
    total (isW o) s'.request.threads + s'.request.log.count ev + (if 0 < s'.request.cond then 1 else 0) = 1 := by
  have htok := hc.tokens o ev ho
  have hmem := List.mem_of_getElem? ht
  have hle := le_total (w := isW o) hmem
  rw [weight_cons] at hle
  rw [hact.token_log ho]
  cases hact with
  | callback hinfo hitems hitem hfill hrest htail =>
    subst hrest
    cases ho <;> simp [total_after ht, isW, weight_endTry _ htail] at hle ⊢ <;> omega
  | @condDone sendRpc hne =>
    have h1 := le_total (w := condW) hmem
    rw [weight_cons, condW] at h1
    have hcond := hc.cond
    have hpos : 0 < s.request.cond := by omega
    have hpos' : 1 < s.request.cond := by omega
    rw [if_pos hpos] at htok
    cases ho <;> simp [total_after ht, isW, hpos'] at hle ⊢ <;> omega
  | lastCondDone hone =>
    rw [if_pos (by omega)] at htok
    cases ho <;> simp [total_after ht, isW, weight_finishOps] at hle ⊢ <;> omega
  | cachedTail => cases ho <;> simp [total_after ht, isW, weight_ite] at hle ⊢ <;> omega
  | _ => cases ho <;> simp [total_after ht, isW] at hle ⊢ <;> omega

/-- **Every step keeps the countdowns exact.** -/
theorem Counts.step (hc : Counts s) (hs : Shape env s) (hb : env.BatchSizeOK)
    (ht : s.request.threads[t]? = some (op :: rest)) (hact : Act env s t rest op s') : Counts s' where
  items := hc.items_step hs hb ht hact
  infos := hc.infos_step ht hact
  cond := hc.cond_step hs hb ht hact
  tokens _ _ ho := hc.tokens_step ht hact ho

end Steps

/-! ## What the countdowns tell -/

variable {s : Serving}

theorem Counts.token_le (hc : Counts s) {o : Op} {ev : RedisEvent} (ho : Token o ev) :
    s.request.log.count ev ≤ 1 := by
  have := hc.tokens o ev ho
  omega

/-- While fetch infos are open the finishing step is not due. -/
theorem Counts.not_due (hc : Counts s) (hpos : 0 < s.request.cond) {o : Op} {ev : RedisEvent} (ho : Token o ev) :
    (∀ ops ∈ s.request.threads, o ∉ ops) ∧ s.request.log.count ev = 0 := by
  have htok := hc.tokens o ev ho
  rw [if_pos hpos] at htok
  refine ⟨fun ops hops hop => ?_, by omega⟩
  have h1 : isW o o ≤ _ := op_le_total hops hop
  rw [isW, if_pos rfl] at h1
  omega

/-- Once it is due no fetch info has anything left to do. -/
theorem Counts.all_done (hc : Counts s) (hcond : s.request.cond ≤ 0) :
    total condW s.request.threads = 0 ∧ ∀ j < s.node.fetchInfoVec.length,
      total (itemW s.node.fetchInfoVec j) s.request.threads = 0 := by
  have h := hc.cond
  refine ⟨by omega, fun j hj => ?_⟩
  have h0 : openInfos s.node.fetchInfoVec.length s.request.itemSizeCond = 0 := by omega
  unfold openInfos at h0
  have := Finset.sum_eq_zero_iff.1 h0 j (Finset.mem_range.2 hj)
  have hitem := hc.items j
  split_ifs at this
  omega

end Graphize
