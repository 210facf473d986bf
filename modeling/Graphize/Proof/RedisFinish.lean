import Graphize.Proof.RedisBatches

/-!
# The finishing step

What holds in every state of a request on its own: who finishes, that everything else is
done when `process_response` is called, and that the steps come to an end.
-/

namespace Graphize

open Threads

/-- The call made for a cached value. -/
def cachedCall : RedisEvent → Option ParseCall
  | .parse call none => some call
  | _ => none

/-- The calls made for cached values. -/
def cachedLog (log : List RedisEvent) : List ParseCall := log.filterMap cachedCall

@[simp] theorem cachedLog_append (l l' : List RedisEvent) : cachedLog (l ++ l') = cachedLog l ++ cachedLog l' :=
  List.filterMap_append

section

variable {ρ : Type*} (env : RedisEnv ρ)

/-- What has to have happened before `process_response` is called, in a request that
starts in `s₀`. -/
structure Due (s₀ : Serving) (l : List RedisEvent) : Prop where
  merged : .merged ∈ l
  batches : ∀ j i info, IsBatch env s₀.node.fetchInfoVec j i info →
    .issue j i (info.batch env i) false ∈ l ∨ (.issue j i (info.batch env i) true ∈ l ∧ .called j i ∈ l)
  cached : cachedLog l = cachedCalls env s₀.node.fetchInfoVec s₀.request.cacheDataVec

/-- The states of a request that starts in `s₀`. -/
structure Inv (s₀ s : Serving) : Prop where
  vec : s.node.fetchInfoVec = s₀.node.fetchInfoVec
  backend : s.request.backend = s₀.request.backend
  shape : Shape env s
  threaded : Threaded s
  counts : Counts s
  batches : Batches env s
  none : s.request.promise = none → s₀.request.cacheDataVec = []
  unparsed : s.request.promise ≠ some true →
    s.request.cacheDataVec = s₀.request.cacheDataVec ∧ cachedLog s.request.log = []
  parsed : s.request.promise = some true →
    cachedLog s.request.log = cachedCalls env s₀.node.fetchInfoVec s₀.request.cacheDataVec
  after : .process ∈ s.request.log → .merged ∈ s.request.log ∧ s.request.promise ≠ some false
  past : ∀ l l', s.request.log = l ++ .process :: l' → Due env s₀ l ∧ ∀ e ∈ l', e = .output
  order : ∀ l l', s.request.log = l ++ .output :: l' → .process ∈ l

variable {env} {s₀ s s' : Serving} {t : ℕ} {op : Op} {rest : List Op}

/-! ## The finisher -/

/-- A thread that is at one of the finishing operations. -/
theorem Threaded.finishing (hth : Threaded s) (ht : s.request.threads[t]? = some (op :: rest))
    (hop : op = .mergeCacheData ∨ op = .wait ∨ op = .processResponse ∨ op = .runOutputNodes) :
    ∃ sendRpc f r, Finishing s.request.promise sendRpc (op :: f) ∧ rest = f ++ r ∧
      ∀ o ev, Token o ev → o ∉ r := by
  cases t with
  | zero =>
    obtain ⟨ops, h0, hmain⟩ := hth.main
    obtain rfl : ops = op :: rest := Option.some.inj (h0.symm.trans ht)
    rcases hmain.cons with ⟨rfl, -⟩ | ⟨f, m, e, hm, he, ⟨-, hmain, -⟩ | ⟨-, rfl, -⟩ | ⟨hf, rfl⟩⟩
    · simp at hop
    · rcases hop with rfl | rfl | rfl | rfl <;> simp [Op.isMain] at hmain
    · simp at hop
    · refine ⟨false, f, m ++ e, hf, rfl, fun o ev ho h => ?_⟩
      rcases List.mem_append.1 h with h | h
      · have := hm _ h
        cases ho <;> simp [Op.isMain] at this
      · rcases he with rfl | ⟨rfl, -⟩ <;> cases ho <;> simp at h
  | succ t =>
    rcases (hth.callbacks t _ ht).cons with ⟨j, i, step, key, rfl, -⟩ | ⟨f, e, he, ⟨-, hcb, -⟩ | ⟨c, hc, hf, rfl⟩⟩
    · simp at hop
    · rcases hcb with rfl | ⟨j, rfl⟩ | ⟨j, rfl⟩ <;> simp at hop
    · refine ⟨true, f, c ++ e, hf, rfl, fun o ev ho h => ?_⟩
      rcases List.mem_append.1 h with h | h
      · rcases hc with rfl | rfl | ⟨j, rfl⟩ <;> cases ho <;> simp at h
      · rcases he with rfl | ⟨j, rfl⟩ <;> cases ho <;> simp at h

/-- A thread that has one of the finishing operations ahead still has to run the output
nodes. -/
theorem Threaded.pending_output (hth : Threaded s) {ops : List Op} (ht : s.request.threads[t]? = some ops)
    {o : Op} {ev : RedisEvent} (ho : Token o ev) (hmem : o ∈ ops) : .runOutputNodes ∈ ops := by
  have hfin : ∀ {sendRpc f}, Finishing s.request.promise sendRpc f → o ∈ f → .runOutputNodes ∈ f := by
    intro sendRpc f hf hm
    cases f with
    | nil => simp at hm
    | cons x f => exact hf.output
  have hmain : o.isMain = false := by cases ho <;> rfl
  cases t with
  | zero =>
    obtain ⟨ops', h0, hthread⟩ := hth.main
    obtain rfl : ops' = ops := Option.some.inj (h0.symm.trans ht)
    cases hthread with
    | tail => cases ho <;> simp at hmem
    | @loop f m e hf hm he =>
      rcases List.mem_append.1 hmem with h | h
      · exact List.mem_append_left _ (hfin hf h)
      · rcases List.mem_append.1 h with h | h
        · rw [hm _ h] at hmain
          cases hmain
        · rcases he with rfl | ⟨rfl, -⟩ <;> cases ho <;> simp at h
  | succ t =>
    cases hth.callbacks t _ ht with
    | callback => cases ho <;> simp at hmem
    | @rest f c e hf hc he =>
      rcases List.mem_append.1 hmem with h | h
      · exact List.mem_append_left _ (hfin hf h)
      · rcases List.mem_append.1 h with h | h
        · rcases hc with rfl | rfl | ⟨j, rfl⟩ <;> cases ho <;> simp at h
        · rcases he with rfl | ⟨j, rfl⟩ <;> cases ho <;> simp at h

/-- What a finisher has behind it is in the log. -/
theorem Inv.logged (hI : Inv env s₀ s) (ht : s.request.threads[t]? = some (op :: rest))
    (hcond : s.request.cond ≤ 0) (hout : .runOutputNodes ∈ op :: rest) {o : Op} {ev : RedisEvent} (ho : Token o ev)
    (hno : o ∉ op :: rest) : ev ∈ s.request.log := by
  have h1 := hI.counts.tokens _ _ .output
  have htok := hI.counts.tokens _ _ ho
  by_contra hev
  rw [List.count_eq_zero.2 hev, if_neg (by omega)] at htok
  obtain ⟨ops, hops, x, hx, hw⟩ := exists_of_total_pos (by omega : 0 < total (isW o) s.request.threads)
  obtain rfl : x = o := by
    by_contra hne
    simp [isW, hne] at hw
  obtain ⟨u, hu⟩ := List.getElem?_of_mem hops
  by_cases hut : t = u
  · subst hut
    obtain rfl := Option.some.inj (ht.symm.trans hu)
    exact hno hx
  · have h2 := add_le_total (w := isW .runOutputNodes) ht hu hut
    have h3 : isW .runOutputNodes .runOutputNodes ≤ _ := le_weight (hI.threaded.pending_output hu ho hx)
    have h4 : isW .runOutputNodes .runOutputNodes ≤ _ := le_weight hout
    rw [isW, if_pos rfl] at h3 h4
    omega

/-- The finishing step is under way only when no fetch info is open. -/
theorem Inv.cond_le (hI : Inv env s₀ s) {ops : List Op} (hops : ops ∈ s.request.threads) {o : Op}
    {ev : RedisEvent} (ho : Token o ev) (hmem : o ∈ ops) : s.request.cond ≤ 0 := by
  by_contra hpos
  exact (hI.counts.not_due (by omega) ho).1 _ hops hmem

/-- **When `process_response` is about to be called**, the promise has been set and the
results have been merged. -/
theorem Inv.at_process (hI : Inv env s₀ s) (ht : s.request.threads[t]? = some (.processResponse :: rest)) :
    s.request.cond ≤ 0 ∧ s.request.promise ≠ some false ∧ .merged ∈ s.request.log := by
  have hcond := hI.cond_le (List.mem_of_getElem? ht) .process List.mem_cons_self
  obtain ⟨sendRpc, f, r, hf, rfl, hr⟩ := hI.threaded.finishing ht (by simp)
  obtain rfl : f = [.runOutputNodes] := by
    rcases hf.cons with h | h | h | h | h
    any_goals cases h.1
    exact h.2
  refine ⟨hcond, fun hp => ?_, hI.logged ht hcond (by simp) .merge (by simp [hr _ _ .merge])⟩
  rcases hf.waits hp with h | h
  · simp at h
  · cases sendRpc <;> simp [waitOp] at h

/-- The output nodes are run after `process_response`. -/
theorem Inv.at_output (hI : Inv env s₀ s) (ht : s.request.threads[t]? = some (.runOutputNodes :: rest)) :
    .process ∈ s.request.log := by
  have hcond := hI.cond_le (List.mem_of_getElem? ht) .output List.mem_cons_self
  obtain ⟨sendRpc, f, r, hf, rfl, hr⟩ := hI.threaded.finishing ht (by simp)
  obtain rfl : f = [] := by
    rcases hf.cons with h | h | h | h | h
    any_goals cases h.1
    exact h.2
  exact hI.logged ht hcond (by simp) .process (by simpa using hr _ _ .process)

/-! ## Nothing is left when the last fetch info is done -/

theorem Inv.no_fetchInfo (hI : Inv env s₀ s) (hcond : s.request.cond ≤ 0) {ops : List Op}
    (hops : ops ∈ s.request.threads) (j : ℕ) : .fetchInfo j ∉ ops := by
  intro h
  have h1 : condW (.fetchInfo j) ≤ _ := op_le_total hops h
  rw [(hI.counts.all_done hcond).1, condW] at h1
  omega

theorem Inv.no_itemDone (hI : Inv env s₀ s) (hcond : s.request.cond ≤ 0) {ops : List Op}
    (hops : ops ∈ s.request.threads) (j : ℕ) (sendRpc : Bool) : .itemDone j sendRpc ∉ ops := by
  intro h
  have hj := hI.shape.fits _ hops _ h
  have h1 : itemW s.node.fetchInfoVec j (.itemDone j sendRpc) ≤ _ := op_le_total hops h
  rw [(hI.counts.all_done hcond).2 j hj, itemW, if_pos rfl] at h1
  omega

theorem Inv.no_callback (hI : Inv env s₀ s) (hcond : s.request.cond ≤ 0) {ops : List Op}
    (hops : ops ∈ s.request.threads) (j i step : ℕ) (key : Bytes) : .callback j i step key ∉ ops := by
  intro h
  have hfirst := hI.shape.first _ hops
  cases ops with
  | nil => simp at h
  | cons op rest =>
    rcases List.mem_cons.1 h with rfl | h
    · unfold CallbackFirst at hfirst
      exact hI.no_itemDone hcond hops j true (by rw [hfirst]; simp)
    · have := hfirst.tail _ h
      simp [Op.isCallback] at this

theorem Inv.no_round (hI : Inv env s₀ s) (hb : env.BatchSizeOK) (hcond : s.request.cond ≤ 0) {ops : List Op}
    (hops : ops ∈ s.request.threads) {j i step : ℕ} (h : .issue j i step ∈ ops) {info : FetchInfo}
    (hinfo : s.node.fetchInfoVec[j]? = some info) : info.keys.length ≤ i := by
  obtain ⟨info', hinfo', hact, hstep, -⟩ := hI.shape.fits _ hops _ h
  obtain rfl : info = info' := Option.some.inj (hinfo.symm.trans hinfo')
  by_contra hlt
  have h1 : itemW s.node.fetchInfoVec j (.issue j i step) ≤ _ := op_le_total hops h
  rw [(hI.counts.all_done hcond).2 j (List.getElem?_eq_some_iff.1 hinfo).1, itemW, if_pos rfl, keysAt_eq hinfo,
    rounds_succ (hstep ▸ info.step_pos hb hact.keys) (by omega)] at h1
  omega

/-- **Every batch was refused or called back.** -/
theorem Inv.batches_done (hI : Inv env s₀ s) (hb : env.BatchSizeOK) (hcond : s.request.cond ≤ 0) {j i : ℕ}
    {info : FetchInfo} (hi : IsBatch env s₀.node.fetchInfoVec j i info) :
    .issue j i (info.batch env i) false ∈ s.request.log ∨
      (.issue j i (info.batch env i) true ∈ s.request.log ∧ .called j i ∈ s.request.log) := by
  rw [← hI.vec] at hi
  -- with the counter at 0 no thread has the batch ahead, so it is in the log
  have hahead : total (aheadW j i) s.request.threads = 0 := by
    by_contra hne
    obtain ⟨ops, hops, o, ho, hw⟩ := exists_of_total_pos (Nat.pos_of_ne_zero hne)
    cases o with
    | fetchInfo j' => exact hI.no_fetchInfo hcond hops j' ho
    | issue j' i' step =>
      by_cases hc : j' = j ∧ i' ≤ i
      · obtain ⟨rfl, hle⟩ := hc
        have := hI.no_round hb hcond hops ho hi.1
        have := hi.2.2.2
        omega
      · simp [aheadW, hc] at hw
    | _ => simp [aheadW] at hw
  have honce := hI.batches.once j i info hi
  rw [hahead, Nat.add_zero] at honce
  obtain ⟨e, he, hp⟩ := List.countP_pos_iff.1 (by omega : 0 < s.request.log.countP (isIssue j i))
  cases e with
  | issue j' i' ks accepted =>
    simp only [isIssue, Bool.decide_and, Bool.and_eq_true, decide_eq_true_eq] at hp
    obtain ⟨rfl, rfl⟩ := hp
    obtain ⟨info', hi', rfl, -⟩ := hI.batches.issued _ _ _ _ he
    obtain rfl : info = info' := Option.some.inj (hi.1.symm.trans hi'.1)
    cases accepted with
    | false => exact Or.inl he
    | true =>
      right
      refine ⟨he, ?_⟩
      have hcb : total (callbackW j' i') s.request.threads = 0 := by
        by_contra hne
        obtain ⟨ops, hops, o, ho, hw⟩ := exists_of_total_pos (Nat.pos_of_ne_zero hne)
        cases o with
        | callback j i step key => exact hI.no_callback hcond hops j i step key ho
        | _ => simp [callbackW] at hw
      have hacc : 0 < s.request.log.countP (isAccepted j' i') :=
        List.countP_pos_iff.2 ⟨_, he, by simp [isAccepted]⟩
      have hcalled := hI.batches.called j' i'
      exact List.count_pos_iff.1 (by omega)
  | _ => simp [isIssue] at hp

theorem Inv.due (hI : Inv env s₀ s) (hb : env.BatchSizeOK)
    (ht : s.request.threads[t]? = some (.processResponse :: rest)) : Due env s₀ s.request.log := by
  obtain ⟨hcond, hprom, hmerged⟩ := hI.at_process ht
  refine ⟨hmerged, fun j i info hi => hI.batches_done hb hcond hi, ?_⟩
  rcases hp : s.request.promise with _ | _ | _
  · rw [(hI.unparsed (by simp [hp])).2, hI.none hp]
    rfl
  · exact absurd hp hprom
  · exact hI.parsed hp

/-- **After `process_response` only the output nodes are run.** -/
theorem Inv.quiet (hI : Inv env s₀ s) (hb : env.BatchSizeOK) (ht : s.request.threads[t]? = some (op :: rest))
    (hact : Act env s t rest op s') (hp : .process ∈ s.request.log) :
    ∃ evs, s'.request.log = s.request.log ++ evs ∧ ∀ e ∈ evs, e = .output := by
  have hmem := List.mem_of_getElem? ht
  obtain ⟨hmerged, hprom⟩ := hI.after hp
  have htok := hI.counts.tokens _ _ .process
  have hcount := List.count_pos_iff.2 hp
  have hcond : s.request.cond ≤ 0 := by
    by_contra hpos
    rw [if_pos (by omega)] at htok
    omega
  -- the merge and `process_response` have been done
  have hdone : ∀ {o ev}, Token o ev → ev ∈ s.request.log → op ≠ o := by
    rintro o ev ho hev rfl
    have h1 := hI.counts.tokens _ _ ho
    have h2 := List.count_pos_iff.2 hev
    have h3 : isW op op ≤ _ := op_le_total hmem List.mem_cons_self
    rw [isW, if_pos rfl] at h3
    omega
  cases hact with
  | accept hinfo hkey =>
    have := hI.no_round hb hcond hmem List.mem_cons_self hinfo
    have := (List.getElem?_eq_some_iff.1 hkey).1
    omega
  | refuse hinfo hkey =>
    have := hI.no_round hb hcond hmem List.mem_cons_self hinfo
    have := (List.getElem?_eq_some_iff.1 hkey).1
    omega
  | callback => exact absurd List.mem_cons_self (hI.no_callback hcond hmem _ _ _ _)
  | merge => exact absurd rfl (hdone .merge hmerged)
  | parseCached => exact absurd (hI.threaded.parses ht).2 hprom
  | process => exact absurd rfl (hdone .process hp)
  | output => exact ⟨_, rfl, by simp⟩
  | _ => exact ⟨[], by simp, by simp⟩

/-! ## Every step keeps the invariant -/

theorem cachedLog_parses {evs : List RedisEvent} (h : ∀ e ∈ evs, ∃ call el, e = .parse call (some el)) :
    cachedLog evs = [] := by
  refine List.filterMap_eq_nil_iff.2 fun e he => ?_
  obtain ⟨call, el, rfl⟩ := h e he
  rfl

theorem cachedLog_parseNone (calls : List ParseCall) :
    cachedLog (calls.map fun call => .parse call none) = calls := by
  induction calls with
  | nil => rfl
  | cons call calls ih =>
    unfold cachedLog at ih ⊢
    rw [List.map_cons, List.filterMap_cons_some (f := cachedCall) rfl, ih]

/-- Cached values are parsed in one operation. -/
theorem Act.cachedLog (hact : Act env s t rest op s') : cachedLog s'.request.log = cachedLog s.request.log ++
    if op = .parseCachedData then cachedCalls env s.node.fetchInfoVec s.request.cacheDataVec else [] := by
  cases hact with
  | callback hinfo hitems hitem hfill hrest htail hevs =>
    have h0 := cachedLog_parses (parse_of_calls hevs)
    rw [Serving.go_request_log, cachedLog_append, if_neg (by simp)]
    congr 1
  | @merge cache evs hmerge =>
    have h0 : Graphize.cachedLog evs = [] := by
      refine List.filterMap_eq_nil_iff.2 fun e he => ?_
      obtain ⟨items, -, item, -, ⟨-, -, -, -⟩⟩ := merge_cacheSet hmerge e he
      rfl
    rw [Serving.go_request_log, cachedLog_append, cachedLog_append, h0, if_neg (by simp)]
    rfl
  | parseCached => rw [Serving.go_request_log, cachedLog_append, cachedLog_parseNone, if_pos rfl]; rfl
  | _ => rw [Serving.go_request_log, cachedLog_append, if_neg (by simp)]; rfl

theorem Act.log (hact : Act env s t rest op s') : ∃ evs, s'.request.log = s.request.log ++ evs := by
  cases hact <;> exact ⟨_, rfl⟩

theorem Act.of_token (hact : Act env s t rest op s') {o : Op} {ev : RedisEvent} (hold : ev ∉ s.request.log)
    (ho : Token o ev) (hnew : ev ∈ s'.request.log) : op = o := by
  have h := hact.token_log ho
  have hpos := List.count_pos_iff.2 hnew
  rw [List.count_eq_zero.2 hold] at h
  by_contra hne
  rw [isW, if_neg hne] at h
  omega

/-- **Every step keeps the invariant.** -/
theorem Inv.step (hI : Inv env s₀ s) (hb : env.BatchSizeOK) (ht : s.request.threads[t]? = some (op :: rest))
    (hact : Act env s t rest op s') : Inv env s₀ s' := by
  have hmem := List.mem_of_getElem? ht
  have hlog := hact.cachedLog
  have hparse : op = .parseCachedData → s.request.promise = some false := by
    rintro rfl
    exact (hI.threaded.parses ht).2
  refine {
    vec := by rw [hact.frame.1, hI.vec]
    backend := by rw [hact.frame.2.1, hI.backend]
    shape := hI.shape.step ht hact
    threaded := hI.threaded.step hI.shape ht hact fun hpos => (hI.counts.not_due hpos .output).1
    counts := hI.counts.step hI.shape hb ht hact
    batches := hI.batches.step hI.shape hb ht hact
    none := ?_, unparsed := ?_, parsed := ?_, after := ?_, past := ?_, order := ?_ }
  · intro hp
    rcases hact.promise with h | ⟨-, h⟩
    · exact hI.none (h ▸ hp)
    · rw [h] at hp; cases hp
  · intro hp
    rcases hact.promise with h | ⟨-, h⟩
    · rw [h] at hp
      -- only `parse_cached_data` sets the promise
      have hop : op ≠ .parseCachedData := by
        rintro rfl
        cases hact
        exact hp (h.symm.trans rfl)
      rw [hlog, if_neg hop, List.append_nil]
      refine ⟨?_, (hI.unparsed hp).2⟩
      rw [← (hI.unparsed hp).1]
      cases hact <;> first | rfl | exact absurd rfl hop
    · exact absurd h hp
  · intro hp
    rw [hlog]
    rcases hact.promise with h | ⟨rfl, -⟩
    · rw [h] at hp
      rw [if_neg, List.append_nil, hI.parsed hp]
      intro hop
      rw [hparse hop] at hp
      cases hp
    · have hp' : s.request.promise ≠ some true := by rw [hparse rfl]; simp
      rw [if_pos rfl, (hI.unparsed hp').1, (hI.unparsed hp').2, hI.vec, List.nil_append]
  · intro hp
    -- logged before, or by this step
    by_cases hold : .process ∈ s.request.log
    · obtain ⟨hmerged, hprom⟩ := hI.after hold
      obtain ⟨evs, hevs⟩ := hact.log
      refine ⟨by rw [hevs]; exact List.mem_append_left _ hmerged, ?_⟩
      rcases hact.promise with h | ⟨-, h⟩
      · rwa [h]
      · rw [h]; simp
    · obtain rfl := hact.of_token hold .process hp
      obtain ⟨-, hprom, hmerged⟩ := hI.at_process ht
      cases hact
      exact ⟨List.mem_append_left _ hmerged, hprom⟩
  · intro l l' hl
    obtain ⟨evs, hevs⟩ := hact.log
    rw [hevs] at hl
    rcases append_eq_append_cons hl with ⟨m, hm, rfl⟩ | ⟨m, rfl, hm⟩
    -- `process` stands before this step's events: nothing but the output may follow
    · obtain ⟨evs', hevs', hout⟩ := hI.quiet hb ht hact (by rw [hm]; simp)
      obtain rfl := List.append_cancel_left (hevs.symm.trans hevs')
      obtain ⟨h1, h2⟩ := hI.past l m hm
      exact ⟨h1, fun e he => (List.mem_append.1 he).elim (h2 e) (hout e)⟩
    · by_cases hold : .process ∈ s.request.log
      · obtain ⟨evs', hevs', hout⟩ := hI.quiet hb ht hact hold
        obtain rfl := List.append_cancel_left (hevs.symm.trans hevs')
        have := hout .process (by rw [hm]; simp)
        cases this
      · obtain rfl := hact.of_token hold .process (by rw [hevs, hm]; simp)
        -- this step is `process_response`, with all batches merged
        have hdue := hI.due hb ht
        cases hact
        obtain rfl := List.append_cancel_left hevs
        obtain ⟨rfl, rfl⟩ : m = [] ∧ l' = [] := by
          cases m with
          | nil => simpa using hm
          | cons x m => simp at hm
        exact ⟨by simpa using hdue, by simp⟩
  · intro l l' hl
    obtain ⟨evs, hevs⟩ := hact.log
    rw [hevs] at hl
    rcases append_eq_append_cons hl with ⟨m, hm, rfl⟩ | ⟨m, rfl, hm⟩
    · exact hI.order l m hm
    · by_cases hold : .output ∈ s.request.log
      · have hle := (hI.counts.step hI.shape hb ht hact).token_le .output
        have h1 := List.count_pos_iff.2 hold
        -- the output nodes are run at most once
        have h2 : 0 < evs.count .output := List.count_pos_iff.2 (by rw [hm]; simp)
        rw [hevs, List.count_append] at hle
        omega
      · obtain rfl := hact.of_token hold .output (by rw [hevs, hm]; simp)
        exact List.mem_append_left _ (hI.at_output ht)

end

end Graphize
