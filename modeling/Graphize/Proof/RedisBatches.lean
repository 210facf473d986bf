import Graphize.Proof.RedisCounts

/-!
# Every batch is issued once and its callback runs once

`Batches` relates the log to what is left to do: each batch of a fetch info is either in
the log or still ahead, and each accepted one has been called back or waits for it.
-/

namespace Graphize

open Threads

/-- The batch of fetch info `j` that starts at `i` is handed to the client. -/
def isIssue (j i : ℕ) : RedisEvent → Bool
  | .issue j' i' _ _ => j' = j ∧ i' = i
  | _ => false

/-- It is handed over and accepted. -/
def isAccepted (j i : ℕ) : RedisEvent → Bool
  | .issue j' i' _ accepted => j' = j ∧ i' = i ∧ accepted
  | _ => false

/-- The batch that starts at `i` is still ahead. -/
def aheadW (j i : ℕ) : Op → ℕ
  | .fetchInfo j' => if j' = j then 1 else 0
  | .issue j' i' _ => if j' = j ∧ i' ≤ i then 1 else 0
  | _ => 0

/-- Its callback is to come. -/
def callbackW (j i : ℕ) : Op → ℕ
  | .callback j' i' _ _ => if j' = j ∧ i' = i then 1 else 0
  | _ => 0

section

variable {ρ : Type*} (env : RedisEnv ρ)

/-- The keys of the batch that starts at `i`. -/
def FetchInfo.batch (info : FetchInfo) (i : ℕ) : List Bytes := (info.keys.drop i).take (info.step env)

/-- `i` is where a batch of fetch info `j` starts. -/
def IsBatch (vec : List FetchInfo) (j i : ℕ) (info : FetchInfo) : Prop :=
  vec[j]? = some info ∧ info.Active env ∧ (∃ m, i = m * info.step env) ∧ i < info.keys.length

/-- What the log says about the batches. -/
structure Batches (s : Serving) : Prop where
  once : ∀ j i info, IsBatch env s.node.fetchInfoVec j i info →
    s.request.log.countP (isIssue j i) + total (aheadW j i) s.request.threads = 1
  called : ∀ j i, s.request.log.countP (isAccepted j i) =
    s.request.log.count (.called j i) + total (callbackW j i) s.request.threads
  issued : ∀ j i ks accepted, .issue j i ks accepted ∈ s.request.log →
    ∃ info, IsBatch env s.node.fetchInfoVec j i info ∧ ks = info.batch env i ∧
      accepted = s.request.backend.accepts j i

variable {env} {s s' : Serving} {t : ℕ} {op : Op} {rest : List Op}

theorem countP_parses {p : RedisEvent → Bool} (hp : ∀ call el, p (.parse call el) = false) {evs : List RedisEvent}
    (h : ∀ e ∈ evs, ∃ call el, e = .parse call (some el)) : evs.countP p = 0 := by
  refine List.countP_eq_zero.2 fun e he => ?_
  obtain ⟨call, el, rfl⟩ := h e he
  simp [hp]

theorem countP_parseNone {p : RedisEvent → Bool} (hp : ∀ call el, p (.parse call el) = false)
    (calls : List ParseCall) : calls.countP (p ∘ fun call => RedisEvent.parse call none) = 0 := by
  refine List.countP_eq_zero.2 fun call _ => ?_
  simp [hp]

theorem countP_merge {p : RedisEvent → Bool} (hp : ∀ key value j i k, p (.cacheSet key value j i k) = false)
    {infos : List FetchInfo} {resultMap : List (List RedisResultItem)} {ps : List ℕ} {c cache : Cache}
    {log evs : List RedisEvent} {e : MergeEnd}
    (h : mergeMap infos resultMap ps (c, log) = ((cache, log ++ evs), e)) : evs.countP p = 0 := by
  refine List.countP_eq_zero.2 fun e he => ?_
  obtain ⟨items, -, item, -, ⟨-, -, -, -⟩⟩ := merge_cacheSet h e he
  simp [hp]

/-- The rounds of a loop visit the starts of the batches. -/
theorem le_or_eq_of_batch {m i step start : ℕ} (hi : i = m * step) (hstart : ∃ m', start = m' * step)
    (h : i ≤ start) : i = start ∨ i + step ≤ start := by
  obtain ⟨m', rfl⟩ := hstart
  subst hi
  rcases Nat.lt_or_ge m m' with hm | hm
  · right
    rw [← Nat.succ_mul]
    exact Nat.mul_le_mul_right _ hm
  · left
    exact le_antisymm h (Nat.mul_le_mul_right _ hm)

theorem Batches.once_step (hB : Batches env s) (hs : Shape env s) (hb : env.BatchSizeOK)
    (ht : s.request.threads[t]? = some (op :: rest)) (hact : Act env s t rest op s') {j i : ℕ} {info : FetchInfo}
    (hi : IsBatch env s.node.fetchInfoVec j i info) :
    s'.request.log.countP (isIssue j i) + total (aheadW j i) s'.request.threads = 1 := by
  have h1 := hB.once j i info hi
  have hmem := List.mem_of_getElem? ht
  have hle := le_total (w := aheadW j i) hmem
  have hf := hs.fits _ hmem op List.mem_cons_self
  rw [weight_cons] at hle
  -- a round of fetch info `j`
  have hround : ∀ {i' step}, Op.Fits env s (.issue j i' step) → 0 < step ∧ (i' ≤ i → i' = i ∨ i' + step ≤ i) := by
    rintro i' step ⟨info', hinfo', hact', rfl, ⟨m, hm⟩, -⟩
    obtain rfl : info = info' := Option.some.inj (hi.1.symm.trans hinfo')
    exact ⟨info.step_pos hb hact'.keys, le_or_eq_of_batch hm hi.2.2.1⟩
  cases hact with
  | @skipInfo j' info' hinfo' hna =>
    have hne : j' ≠ j := by
      rintro rfl
      obtain rfl : info = info' := Option.some.inj (hi.1.symm.trans hinfo')
      exact hna hi.2.1
    simp [total_after ht, aheadW, hne] at hle ⊢
    omega
  | openInfo => simp [total_after ht, aheadW] at hle ⊢; omega
  | @roundsEnd j' i' step info' hinfo' hge =>
    have hne : ¬ (j' = j ∧ i' ≤ i) := by
      rintro ⟨rfl, hle'⟩
      obtain rfl : info = info' := Option.some.inj (hi.1.symm.trans hinfo')
      have := hi.2.2.2
      omega
    simp [total_after ht, aheadW, hne] at hle ⊢
    omega
  | @accept j' i' step =>
    by_cases hjj : j' = j
    · subst hjj
      obtain ⟨hpos, hr⟩ := hround hf
      simp [total_after ht, aheadW, isIssue] at hle ⊢
      split_ifs at hle ⊢ <;> omega
    · simp [total_after ht, aheadW, isIssue, hjj] at hle ⊢
      omega
  | @refuse j' i' step =>
    by_cases hjj : j' = j
    · subst hjj
      obtain ⟨hpos, hr⟩ := hround hf
      simp [total_after ht, aheadW, isIssue] at hle ⊢
      split_ifs at hle ⊢ <;> omega
    · simp [total_after ht, aheadW, isIssue, hjj] at hle ⊢
      omega
  | callback hinfo hitems hitem hfill hrest htail hevs =>
    subst hrest
    simp [total_after ht, aheadW, isIssue, weight_endTry _ htail,
      countP_parses (p := isIssue j i) (fun _ _ => rfl) (parse_of_calls hevs)] at hle ⊢
    omega
  | merge hmerge =>
    have h0 := countP_merge (p := isIssue j i) (fun _ _ _ _ _ => rfl) hmerge
    simp [total_after ht, aheadW, isIssue, h0] at hle ⊢
    omega
  | parseCached =>
    simp [total_after ht, aheadW, countP_parseNone (p := isIssue j i) fun _ _ => rfl] at hle ⊢
    omega
  | lastCondDone => simp [total_after ht, aheadW, weight_finishOps] at hle ⊢; omega
  | cachedTail => simp [total_after ht, aheadW, weight_ite] at hle ⊢; omega
  | _ => simp [total_after ht, aheadW, isIssue] at hle ⊢; omega

theorem Batches.called_step (hB : Batches env s) (ht : s.request.threads[t]? = some (op :: rest))
    (hact : Act env s t rest op s') (j i : ℕ) : s'.request.log.countP (isAccepted j i) =
      s'.request.log.count (.called j i) + total (callbackW j i) s'.request.threads := by
  have h1 := hB.called j i
  have hle := le_total (w := callbackW j i) (List.mem_of_getElem? ht)
  rw [weight_cons] at hle
  cases hact with
  | @accept j' i' =>
    simp [total_after ht, callbackW, isAccepted] at hle ⊢
    split_ifs at hle ⊢ <;> omega
  | refuse =>
    simp [total_after ht, callbackW, isAccepted] at hle ⊢
    omega
  | @callback j' i' step key info items item item' evs tail hinfo hitems hitem hfill hrest htail hevs =>
    subst hrest
    have h0 : evs.count (.called j i) = 0 := count_parses (by simp) (parse_of_calls hevs)
    simp [total_after ht, callbackW, isAccepted, weight_endTry _ htail,
      countP_parses (p := isAccepted j i) (fun _ _ => rfl) (parse_of_calls hevs), List.count_cons, h0] at hle ⊢
    split_ifs at hle ⊢ <;> omega
  | @merge cache evs hmerge =>
    have h0 := countP_merge (p := isAccepted j i) (fun _ _ _ _ _ => rfl) hmerge
    have h0' : evs.count (.called j i) = 0 := by
      refine List.count_eq_zero.2 fun h => ?_
      obtain ⟨items, -, item, -, ⟨⟩⟩ := merge_cacheSet hmerge _ h
    simp [total_after ht, callbackW, isAccepted, h0, h0'] at hle ⊢
    omega
  | parseCached =>
    have h0 := count_parseNone (fun _ _ => (by simp : RedisEvent.called j i ≠ .parse _ _))
      (cachedCalls env s.node.fetchInfoVec s.request.cacheDataVec)
    simp [total_after ht, callbackW, countP_parseNone (p := isAccepted j i) fun _ _ => rfl, h0] at hle ⊢
    omega
  | lastCondDone => simp [total_after ht, callbackW, weight_finishOps] at hle ⊢; omega
  | cachedTail => simp [total_after ht, callbackW, weight_ite] at hle ⊢; omega
  | _ => simp [total_after ht, callbackW, isAccepted] at hle ⊢; omega

theorem Batches.issued_step (hB : Batches env s) (hs : Shape env s)
    (ht : s.request.threads[t]? = some (op :: rest)) (hact : Act env s t rest op s') {j i : ℕ} {ks : List Bytes}
    {accepted : Bool} (h : .issue j i ks accepted ∈ s'.request.log) :
    ∃ info, IsBatch env s.node.fetchInfoVec j i info ∧ ks = info.batch env i ∧
      accepted = s.request.backend.accepts j i := by
  have hf := hs.fits _ (List.mem_of_getElem? ht) op List.mem_cons_self
  have hold := hB.issued j i ks accepted
  -- a round logs the batch that its fetch info has at this place
  have hround : ∀ {j' i' step info key}, Op.Fits env s (.issue j' i' step) →
      s.node.fetchInfoVec[j']? = some info → info.keys[i']? = some key →
      IsBatch env s.node.fetchInfoVec j' i' info ∧ (info.keys.drop i').take step = info.batch env i' := by
    rintro j' i' step info key ⟨info', hinfo', hact', rfl, hm, -⟩ hinfo hkey
    obtain rfl : info = info' := Option.some.inj (hinfo.symm.trans hinfo')
    exact ⟨⟨hinfo, hact', hm, (List.getElem?_eq_some_iff.1 hkey).1⟩, rfl⟩
  cases hact with
  | accept hinfo hkey hacc =>
    rcases List.mem_append.1 h with h | h
    · exact hold h
    · simp only [List.mem_singleton, RedisEvent.issue.injEq] at h
      obtain ⟨rfl, rfl, rfl, rfl⟩ := h
      obtain ⟨h1, h2⟩ := hround hf hinfo hkey
      exact ⟨_, h1, h2, hacc.symm⟩
  | refuse hinfo hkey hacc =>
    rcases List.mem_append.1 h with h | h
    · exact hold h
    · simp only [List.mem_singleton, RedisEvent.issue.injEq] at h
      obtain ⟨rfl, rfl, rfl, rfl⟩ := h
      obtain ⟨h1, h2⟩ := hround hf hinfo hkey
      exact ⟨_, h1, h2, hacc.symm⟩
  | callback hinfo hitems hitem hfill hrest htail hevs =>
    rcases List.mem_append.1 h with h | h
    · exact hold h
    · rcases List.mem_cons.1 h with h | h
      · cases h
      · obtain ⟨call, el, h⟩ := parse_of_calls hevs _ h
        cases h
  | merge hmerge =>
    rcases List.mem_append.1 h with h | h
    · exact hold h
    · rcases List.mem_append.1 h with h | h
      · obtain ⟨items, -, item, -, ⟨⟩⟩ := merge_cacheSet hmerge _ h
      · simp at h
  | _ => exact hold (by simpa using h)

/-- **Every step keeps the account of the batches.** -/
theorem Batches.step (hB : Batches env s) (hs : Shape env s) (hb : env.BatchSizeOK)
    (ht : s.request.threads[t]? = some (op :: rest)) (hact : Act env s t rest op s') : Batches env s' where
  once j i info hi := hB.once_step hs hb ht hact (hact.frame.1 ▸ hi)
  called j i := hB.called_step ht hact j i
  issued j i ks accepted h := by
    rw [hact.frame.1, hact.frame.2.1]
    exact hB.issued_step hs ht hact h

end

end Graphize
