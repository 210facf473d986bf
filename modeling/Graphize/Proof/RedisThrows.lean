import Graphize.Proof.RedisRuns

/-!
# Requests whose functions throw

`request_survives`: parse functions may throw at any value of any reply; as long as nothing
else throws, every callback counts its batch as finished exactly once, in the `try` block or
in its handler, and the request finishes as if nothing had happened. An exception out of
`process_response` or out of the parsing of a cached value is not survived
(`request_lost`).
-/

namespace Graphize

open Threads

/-- A completion of a batch of a fetch info: `deep_cond_finish_func`. -/
def Op.isItemDone : Op → Bool
  | .itemDone _ _ => true
  | _ => false

/-- A completion of a batch of fetch info `j`. -/
def Op.isItemDoneOf (j : ℕ) : Op → Bool
  | .itemDone j' _ => j' = j
  | _ => false

/-- What thread `t` has executed. -/
def ran (done : List (ℕ × Op)) (t : ℕ) : List Op := done.filterMap fun e => if e.1 = t then some e.2 else none

section Ran

variable {done : List (ℕ × Op)} {t u : ℕ} {op : Op}

theorem ran_self : ran (done ++ [(t, op)]) t = ran done t ++ [op] := by
  simp [ran, List.filterMap_append]

theorem ran_other (h : t ≠ u) : ran (done ++ [(t, op)]) u = ran done u := by
  simp [ran, List.filterMap_append, h]

theorem ran_fresh (h : ∀ e ∈ done, e.1 ≠ t) : ran done t = [] :=
  List.filterMap_eq_nil_iff.2 fun e he => if_neg (h e he)

end Ran

section

variable {ρ : Type*} {env : RedisEnv ρ} {s₀ s s' : Serving} {t : ℕ} {op : Op} {rest : List Op}

/-! ## What a step does to the completions ahead -/

/-- Outside the loop over the batches a step neither adds nor removes a completion that is
ahead; an accepted batch gets a thread with one. -/
theorem Act.completions (h : Act env s t rest op s') :
    ∃ ops new evs, s'.request.threads = s.request.threads.set t ops ++ new ∧
      s'.request.log = s.request.log ++ evs ∧
      ((∀ j i step, op ≠ .issue j i step) → ops.filter Op.isItemDone = rest.filter Op.isItemDone) ∧
      (∀ x ∈ new, ∃ j i step key, x = [.callback j i step key, .itemDone j true, .endTry j]) ∧
      (∀ j i ks, .issue j i ks true ∈ evs →
        ∃ step key, new = [[.callback j i step key, .itemDone j true, .endTry j]]) := by
  cases h with
  | callback hinfo hitems hitem hfill hrest htail hevs =>
    refine ⟨_, [], _, rfl, rfl, fun _ => ?_, by simp, fun j i ks hmem => ?_⟩
    · subst hrest
      rcases htail with rfl | rfl
      · rfl
      · rfl
    · rcases List.mem_cons.1 hmem with hmem | hmem
      · cases hmem
      · obtain ⟨call, el, hmem⟩ := parse_of_calls hevs _ hmem
        cases hmem
  | @accept j i step info key hinfo hkey hacc =>
    refine ⟨_, _, _, rfl, rfl, fun hop => absurd rfl (hop j i step), ?_, fun j' i' ks hmem => ?_⟩
    · intro x hx
      exact ⟨j, i, step, key, List.mem_singleton.1 hx⟩
    · simp only [List.mem_singleton, RedisEvent.issue.injEq] at hmem
      obtain ⟨rfl, rfl, -, -⟩ := hmem
      exact ⟨step, key, rfl⟩
  | @refuse j i step info key hinfo hkey hacc =>
    exact ⟨_, [], _, rfl, rfl, fun hop => absurd rfl (hop j i step), by simp, by simp⟩
  | @roundsEnd j i step info hinfo hi =>
    exact ⟨_, [], [], rfl, by simp, fun hop => absurd rfl (hop j i step), by simp, by simp⟩
  | lastCondDone =>
    refine ⟨_, [], [], rfl, by simp, fun _ => ?_, by simp, by simp⟩
    unfold finishOps
    cases s.request.promise with
    | none => simp [Op.isItemDone]
    | some set => cases ‹Bool› <;> simp [Op.isItemDone]
  | cachedTail =>
    refine ⟨_, [], [], rfl, by simp, fun _ => ?_, by simp, by simp⟩
    split <;> simp [Op.isItemDone]
  | @merge cache evs hmerge =>
    refine ⟨_, [], _, rfl, rfl, fun _ => rfl, by simp, fun j i ks hmem => ?_⟩
    rcases List.mem_append.1 hmem with hmem | hmem
    · obtain ⟨items, -, item, -, ⟨⟩⟩ := merge_cacheSet hmerge _ hmem
    · simp at hmem
  | parseCached => exact ⟨_, [], _, rfl, rfl, fun _ => rfl, by simp, by simp⟩
  | process => exact ⟨_, [], _, rfl, rfl, fun _ => rfl, by simp, by simp⟩
  | output => exact ⟨_, [], _, rfl, rfl, fun _ => rfl, by simp, by simp⟩
  | _ => exact ⟨_, [], [], rfl, by simp, fun _ => by simp [Op.isItemDone], by simp, by simp⟩

/-! ## Every batch is counted once -/

/-- What thread `t + 1` has executed and has still to execute: the callback of one batch of
fetch info `j`, with one completion. -/
def IsCallback (ops : List Op) (j i : ℕ) : Prop :=
  (∃ step key, ops.head? = some (.callback j i step key)) ∧ ops.filter Op.isItemDone = [.itemDone j true]

/-- What the operations executed so far say about the batches. -/
structure Batched (env : RedisEnv ρ) (done : List (ℕ × Op)) (s : Serving) : Prop where
  fresh : ∀ e ∈ done, e.1 < s.request.threads.length
  thread : ∀ (t : ℕ) ops, s.request.threads[t + 1]? = some ops → ∃ j i, IsCallback (ran done (t + 1) ++ ops) j i
  accepted : ∀ j i ks, .issue j i ks true ∈ s.request.log →
    ∃ (t : ℕ) (ops : List Op), s.request.threads[t + 1]? = some ops ∧ IsCallback (ran done (t + 1) ++ ops) j i
  unopened : ∀ j, 0 < total (isW (.fetchInfo j)) s.request.threads → done.countP (fun e => e.2.isItemDoneOf j) = 0
  opened : ∀ (j : ℕ) info, s.node.fetchInfoVec[j]? = some info → info.Active env →
    total (isW (.fetchInfo j)) s.request.threads = 0 →
      done.countP (fun e => e.2.isItemDoneOf j) + s.request.itemSizeCond j = info.batches env

variable {done : List (ℕ × Op)}

/-- No callback thread runs the loop over the batches. -/
theorem Threaded.not_issue (hth : Threaded s) (ht : s.request.threads[t + 1]? = some (op :: rest)) (j i step : ℕ) :
    op ≠ .issue j i step := by
  rintro rfl
  rcases (hth.callbacks t _ ht).cons with ⟨j', i', step', key, h, -⟩ | ⟨f, e, -, ⟨-, h, -⟩ | ⟨c, -, hf, -⟩⟩
  · cases h
  · rcases h with h | ⟨j', h⟩ | ⟨j', h⟩ <;> cases h
  · rcases hf.cons with h | h | h | h | h <;> cases h.1

theorem isCallback_new (j i step : ℕ) (key : Bytes) :
    IsCallback [.callback j i step key, .itemDone j true, .endTry j] j i :=
  ⟨⟨step, key, rfl⟩, rfl⟩

/-- A thread that goes on keeps its batch. -/
theorem IsCallback.go {ops xs : List Op} {j i : ℕ} (h : IsCallback (xs ++ op :: rest) j i)
    (hops : ops.filter Op.isItemDone = rest.filter Op.isItemDone) : IsCallback ((xs ++ [op]) ++ ops) j i := by
  obtain ⟨⟨step, key, hhead⟩, hfilter⟩ := h
  refine ⟨⟨step, key, ?_⟩, ?_⟩
  · cases xs with
    | nil => exact hhead
    | cons x xs => exact hhead
  · rw [← hfilter, List.append_assoc, List.filter_append, List.filter_append, List.filter_append, hops,
      ← List.filter_append, List.singleton_append]

/-- Each thread after a step has its batch. -/
theorem Batched.threads_step (hB : Batched env done s) (hI : Inv env s₀ s)
    (ht : s.request.threads[t]? = some (op :: rest)) {ops : List Op} {new : List (List Op)}
    (hths : s'.request.threads = s.request.threads.set t ops ++ new)
    (hops : (∀ j i step, op ≠ .issue j i step) → ops.filter Op.isItemDone = rest.filter Op.isItemDone) :
    (∀ (u : ℕ) x j i, s.request.threads[u + 1]? = some x → IsCallback (ran done (u + 1) ++ x) j i →
      ∃ y, s'.request.threads[u + 1]? = some y ∧ IsCallback (ran (done ++ [(t, op)]) (u + 1) ++ y) j i) ∧
    ∀ (u : ℕ) y, s'.request.threads[u + 1]? = some y →
      (∃ x, s.request.threads[u + 1]? = some x) ∨ (y ∈ new ∧ ran (done ++ [(t, op)]) (u + 1) = []) := by
  constructor
  · intro u x j i hx hcb
    rw [hths]
    -- the thread that runs keeps its completions ahead; the others are as they were
    by_cases htu : t = u + 1
    · subst htu
      obtain rfl := Option.some.inj (ht.symm.trans hx)
      refine ⟨ops, getElem?_self hx, ?_⟩
      rw [ran_self]
      exact hcb.go (hops (hI.threaded.not_issue ht))
    · refine ⟨x, getElem?_other hx htu, ?_⟩
      rw [ran_other htu]
      exact hcb
  · intro u y hy
    rw [hths] at hy
    by_cases hlt : u + 1 < s.request.threads.length
    · exact .inl ⟨_, List.getElem?_eq_getElem hlt⟩
    · right
      rcases getElem?_set_append hy with ⟨rfl, -⟩ | ⟨-, h⟩ | h
      · exact absurd (List.getElem?_eq_some_iff.1 ht).1 hlt
      · exact absurd (List.getElem?_eq_some_iff.1 h).1 hlt
      · refine ⟨h, ran_fresh fun e he => ?_⟩
        rcases List.mem_append.1 he with he | he
        · have := hB.fresh e he
          omega
        · rw [List.mem_singleton.1 he]
          rintro rfl
          exact hlt (List.getElem?_eq_some_iff.1 ht).1

/-- No step adds a round of the loop over the fetch infos. -/
theorem Act.fetchInfo_left (h : Act env s t rest op s') (ht : s.request.threads[t]? = some (op :: rest)) (j : ℕ) :
    total (isW (.fetchInfo j)) s'.request.threads + isW (.fetchInfo j) op =
      total (isW (.fetchInfo j)) s.request.threads := by
  have hle := le_total (w := isW (.fetchInfo j)) (List.mem_of_getElem? ht)
  rw [weight_cons] at hle
  cases h with
  | callback hinfo hitems hitem hfill hrest htail =>
    subst hrest
    simp [total_after ht, isW, weight_endTry _ htail] at hle ⊢
  | lastCondDone =>
    simp [total_after ht, isW, weight_finishOps] at hle ⊢
    omega
  | cachedTail =>
    simp [total_after ht, isW, weight_ite] at hle ⊢
    omega
  | _ =>
    simp [total_after ht, isW] at hle ⊢
    omega

/-- Opening a fetch info sets its counter, a completion lowers it. -/
theorem Act.itemSizeCond_step (h : Act env s t rest op s') (j : ℕ) :
    (op = .fetchInfo j → ∀ info, s.node.fetchInfoVec[j]? = some info → info.Active env →
      s'.request.itemSizeCond j = info.batches env) ∧
    (op ≠ .fetchInfo j →
      s'.request.itemSizeCond j + (if op.isItemDoneOf j then 1 else 0) = s.request.itemSizeCond j) := by
  cases h with
  | @skipInfo j' info hinfo hact =>
    refine ⟨fun hop info' hinfo' hact' => ?_, fun _ => by simp [Op.isItemDoneOf]⟩
    -- a fetch info that is skipped has no keys or no client
    obtain rfl : j' = j := by simpa using hop
    rw [hinfo] at hinfo'
    rw [Option.some.inj hinfo'] at hact
    exact absurd hact' hact
  | @openInfo j' info hinfo hact =>
    refine ⟨fun hop info' hinfo' _ => ?_, fun hop => ?_⟩
    · obtain rfl : j' = j := by simpa using hop
      rw [hinfo] at hinfo'
      rw [← Option.some.inj hinfo']
      simp
    · have hne : j ≠ j' := fun h => hop (by rw [h])
      simp [Op.isItemDoneOf, Function.update_of_ne hne]
  | @itemDone j' sendRpc hc =>
    refine ⟨fun hop => absurd hop (by simp), fun _ => ?_⟩
    by_cases hj : j' = j
    · subst hj; simp [Op.isItemDoneOf]
    · simp [Op.isItemDoneOf, hj, Function.update_of_ne (Ne.symm hj)]
  | @lastItemDone j' sendRpc hc =>
    refine ⟨fun hop => absurd hop (by simp), fun _ => ?_⟩
    by_cases hj : j' = j
    · subst hj; simp [Op.isItemDoneOf, hc]
    · simp [Op.isItemDoneOf, hj, Function.update_of_ne (Ne.symm hj)]
  | _ => exact ⟨fun hop => absurd hop (by simp), fun _ => by simp [Op.isItemDoneOf]⟩

/-- A completion belongs to a fetch info that has been opened. -/
theorem Inv.itemDone_opened (hI : Inv env s₀ s) (ht : s.request.threads[t]? = some (op :: rest)) {j : ℕ}
    (hop : op.isItemDoneOf j = true) : total (isW (.fetchInfo j)) s.request.threads = 0 := by
  have h1 := hI.counts.infos j
  have h2 := hI.counts.items j
  have h3 : itemW s.node.fetchInfoVec j op ≤ _ := op_le_total (List.mem_of_getElem? ht) List.mem_cons_self
  have h4 : itemW s.node.fetchInfoVec j op = 1 := by
    cases op with
    | itemDone j' sendRpc => simpa [Op.isItemDoneOf, itemW] using hop
    | _ => simp [Op.isItemDoneOf] at hop
  rw [if_pos (by omega)] at h1
  omega

/-- **Every step keeps the account.** -/
theorem Batched.step (hB : Batched env done s) (hI : Inv env s₀ s)
    (ht : s.request.threads[t]? = some (op :: rest)) (h : Act env s t rest op s') :
    Batched env (done ++ [(t, op)]) s' := by
  obtain ⟨ops, new, evs, hths, hlog, hops, hnew, hacc⟩ := h.completions
  obtain ⟨hkeep, hsplit⟩ := hB.threads_step hI ht hths hops
  have hlt : t < s.request.threads.length := (List.getElem?_eq_some_iff.1 ht).1
  have hlen : s'.request.threads.length = s.request.threads.length + new.length := by
    rw [hths, List.length_append, List.length_set]
  have hcount : ∀ j, (done ++ [(t, op)]).countP (fun e => e.2.isItemDoneOf j) =
      done.countP (fun e => e.2.isItemDoneOf j) + if op.isItemDoneOf j then 1 else 0 := by
    intro j
    rw [List.countP_append, List.countP_singleton]
  refine { fresh := ?_, thread := ?_, accepted := ?_, unopened := ?_, opened := ?_ }
  · intro e he
    rw [hlen]
    rcases List.mem_append.1 he with he | he
    · have := hB.fresh e he
      omega
    · rw [List.mem_singleton.1 he]
      show t < _
      omega
  · intro u y hy
    rcases hsplit u y hy with ⟨x, hx⟩ | ⟨hmem, hran⟩
    · obtain ⟨j, i, hcb⟩ := hB.thread u x hx
      obtain ⟨y', hy', hcb'⟩ := hkeep u x j i hx hcb
      obtain rfl := Option.some.inj (hy.symm.trans hy')
      exact ⟨j, i, hcb'⟩
    · obtain ⟨j, i, step, key, rfl⟩ := hnew y hmem
      rw [hran]
      exact ⟨j, i, isCallback_new j i step key⟩
  · intro j i ks hmem
    rw [hlog] at hmem
    rcases List.mem_append.1 hmem with hmem | hmem
    · obtain ⟨u, x, hx, hcb⟩ := hB.accepted j i ks hmem
      obtain ⟨y, hy, hcb'⟩ := hkeep u x j i hx hcb
      exact ⟨u, y, hy, hcb'⟩
    · -- the new thread is the last one
      obtain ⟨step, key, rfl⟩ := hacc j i ks hmem
      obtain ⟨u, hu⟩ : ∃ u, s.request.threads.length = u + 1 := ⟨_, (Nat.sub_add_cancel (by omega)).symm⟩
      have hy : s'.request.threads[u + 1]? = some [.callback j i step key, .itemDone j true, .endTry j] := by
        rw [hths, ← hu, List.getElem?_append_right (by simp)]
        simp
      have hran : ran (done ++ [(t, op)]) (u + 1) = [] := by
        refine ran_fresh fun e he => ?_
        rcases List.mem_append.1 he with he | he
        · have := hB.fresh e he
          omega
        · rw [List.mem_singleton.1 he]
          show t ≠ u + 1
          omega
      refine ⟨u, _, hy, ?_⟩
      rw [hran]
      exact isCallback_new j i step key
  · intro j hpos
    have hleft := h.fetchInfo_left ht j
    rw [hcount, hB.unopened j (by omega), if_neg]
    intro hop
    have := hI.itemDone_opened ht hop
    omega
  · intro j info hinfo hact hzero
    rw [h.frame.1] at hinfo
    have hleft := h.fetchInfo_left ht j
    obtain ⟨hopen, hother⟩ := h.itemSizeCond_step j
    rw [hcount]
    by_cases hop : op = .fetchInfo j
    · have hone : isW (.fetchInfo j) op = 1 := by rw [hop, isW, if_pos rfl]
      rw [hB.unopened j (by omega), hopen hop info hinfo hact, hop]
      simp [Op.isItemDoneOf]
    · have hw : isW (.fetchInfo j) op = 0 := if_neg hop
      have h1 := hB.opened j info hinfo hact (by omega)
      have h2 := hother hop
      by_cases hd : op.isItemDoneOf j = true
      · rw [if_pos hd] at h2 ⊢
        push_cast
        omega
      · rw [if_neg hd] at h2 ⊢
        push_cast
        omega

variable {node : RedisNode} {req : ρ} {backend : Backend}

theorem batched_doService : Batched env [] (node.doService env req backend) := by
  have hcond : ∀ j, (node.doService env req backend).request.itemSizeCond j = 0 := by
    intro j
    rcases doService_cases env node req backend with ⟨-, h⟩ | ⟨vec, cacheDataVec, -, -, h⟩ <;> rw [h]
  have hlog : (node.doService env req backend).request.log = [] := doService_log
  have hone : ∃ ops, (node.doService env req backend).request.threads = [ops] ∧
      ∀ j < (node.doService env req backend).node.fetchInfoVec.length, .fetchInfo j ∈ ops := by
    rcases doService_cases env node req backend with ⟨hnil, h⟩ | ⟨vec, cacheDataVec, -, -, h⟩ <;> rw [h]
    · exact ⟨_, rfl, by simp [hnil]⟩
    · exact ⟨_, rfl, fun j hj => by simpa [loopOps] using hj⟩
  obtain ⟨ops, hths, hmem⟩ := hone
  refine { fresh := by simp, thread := ?_, accepted := ?_, unopened := fun _ _ => rfl, opened := ?_ }
  · intro t x hx
    rw [hths] at hx
    simp at hx
  · intro j i ks hissue
    rw [hlog] at hissue
    simp at hissue
  · intro j info hinfo _ hzero
    -- every fetch info is still to be opened
    have hj := (List.getElem?_eq_some_iff.1 hinfo).1
    rw [hths] at hzero
    have h1 : isW (.fetchInfo j) (.fetchInfo j) ≤ total (isW (.fetchInfo j)) [ops] :=
      op_le_total (List.mem_singleton.2 rfl) (hmem j hj)
    rw [hzero, isW, if_pos rfl] at h1
    omega

/-- What can be said of a request whose operations `acts` have been executed: it finishes,
and when it is finished every batch has been refused or has had a thread that executed its
callback and one completion, and the completions of a fetch info are as many as its
batches. -/
structure Survives (env : RedisEnv ρ) (s₀ : Serving) (acts : List (ℕ × Op)) (s : Serving) : Prop
    extends Finishes env s₀ s where
  once : ∀ t, (ran acts (t + 1)).countP Op.isItemDone ≤ 1
  batch : Machine.Stuck (Serving.step env) s → ∀ j i info, IsBatch env s₀.node.fetchInfoVec j i info →
    .issue j i (info.batch env i) false ∈ s.request.log ∨ ∃ t, IsCallback (ran acts (t + 1)) j i
  counted : Machine.Stuck (Serving.step env) s → ∀ (j : ℕ) info, s₀.node.fetchInfoVec[j]? = some info →
    info.Active env → acts.countP (fun e => e.2.isItemDoneOf j) = info.batches env

/-- **A request survives the exceptions of its parse functions**: in every run in which
nothing throws but parse functions for values of replies, every batch is counted as finished
exactly once, the output nodes are run exactly once, and nobody waits in vain. -/
theorem request_survives (hb : env.BatchSizeOK) (hr : backend.Replies) {ts : List ℕ}
    (hret : Machine.Along (Serving.step env) (Serving.Returns env) (node.doService env req backend) ts)
    (h : Machine.run (Serving.step env) (node.doService env req backend) ts = some s) :
    Survives env (node.doService env req backend) (executed env (node.doService env req backend) ts) s := by
  obtain ⟨hI, hB, -⟩ := act_run hb (by rwa [doService_backend]) (Batched env)
    (fun done s t op rest s' hI hB ht hact => hB.step hI ht hact) ts [] _ s
    (inv_doService node req backend) batched_doService hret h
  rw [List.nil_append] at hB
  refine { (finishes_of_returns hb hr hret h).2 with once := ?_, batch := ?_, counted := ?_ }
  · intro t
    by_cases ht : t + 1 < s.request.threads.length
    · obtain ⟨j, i, -, hfilter⟩ := hB.thread t _ (List.getElem?_eq_getElem ht)
      have hlen := congrArg List.length hfilter
      rw [List.filter_append, List.length_append, List.length_singleton] at hlen
      rw [List.countP_eq_length_filter]
      omega
    · rw [ran_fresh fun e he => ?_]
      · exact Nat.zero_le _
      · have := hB.fresh e he
        omega
  · intro hst j i info hbatch
    obtain ⟨hnil, htok⟩ := hI.finished hst
    have hprocess : .process ∈ s.request.log := List.count_pos_iff.1 (by rw [htok _ _ .process]; omega)
    obtain ⟨l, l', hl⟩ := List.append_of_mem hprocess
    rcases (hI.past l l' hl).1.batches j i info hbatch with hissue | ⟨hissue, -⟩
    · exact .inl (by rw [hl]; exact List.mem_append_left _ hissue)
    · obtain ⟨t, ops, ht, hcb⟩ := hB.accepted j i _ (by rw [hl]; exact List.mem_append_left _ hissue)
      rw [hnil ops (List.mem_of_getElem? ht), List.append_nil] at hcb
      exact .inr ⟨t, hcb⟩
  · intro hst j info hinfo hact
    obtain ⟨hnil, -⟩ := hI.finished hst
    have hdone := hB.opened j info (by rwa [hI.vec]) hact (total_eq_zero hnil)
    have hitems := hI.counts.items j
    rw [total_eq_zero hnil] at hitems
    omega

end

/-- The sample service, whose parse function throws at every value of a reply. -/
def throwingEnv : RedisEnv Unit := { sampleEnv with parseThrows := fun _ call => !call.isCached }

/-- The callback throws, and the request is finished all the same. -/
theorem request_survives_sample : ∃ s, Machine.run (Serving.step throwingEnv)
      (sampleNode.doService throwingEnv () sampleBackend) [0, 0, 0, 0, 0, 0, 0, 1, 1, 1, 1, 1, 1, 1] = some s ∧
    .output ∈ s.request.log ∧ Survives throwingEnv (sampleNode.doService throwingEnv () sampleBackend)
      (executed throwingEnv (sampleNode.doService throwingEnv () sampleBackend)
        [0, 0, 0, 0, 0, 0, 0, 1, 1, 1, 1, 1, 1, 1]) s := by
  have hlog : (Machine.run (Serving.step throwingEnv) (sampleNode.doService throwingEnv () sampleBackend)
      [0, 0, 0, 0, 0, 0, 0, 1, 1, 1, 1, 1, 1, 1]).map (fun s => s.request.log) =
      some [.issue 0 0 [[9]] true, .parse ⟨[97], some [5], 0, 1, 0, true⟩ none, .called 0 0,
        .parse ⟨[9], some [7], 0, 1, 0, false⟩ (some (0, 0)), .cacheSet [9] [7] 0 0 0, .merged, .process, .output] := by
    decide
  obtain ⟨s, hs, hlog⟩ := Option.map_eq_some_iff.1 hlog
  have hn : throwingEnv.CachedNoThrow := ⟨fun _ call h => by simp [throwingEnv, h], fun _ => rfl⟩
  have hret := along_returns hn _ _ s hs (by rw [hlog]; decide)
  exact ⟨s, hs, by rw [hlog]; decide,
    request_survives (fun _ => Nat.one_pos) (fun _ _ _ => by simp [sampleBackend]) hret hs⟩

/-- The sample service, whose `process_response` throws. -/
def throwingProcess : RedisEnv Unit := { sampleEnv with processThrows := fun _ => true }

/-- The sample service, whose parse function throws at every cached value. -/
def throwingCached : RedisEnv Unit := { sampleEnv with parseThrows := fun _ call => call.isCached }

/-- **Two exceptions that are not survived.** `process_response` throws in the callback of
the last batch: its handler lowers the counter again, past 0, and the output nodes are never
run. A parse function throws for a cached value: nothing catches it. -/
theorem request_lost :
    (∃ s, Machine.run (Serving.step throwingProcess)
        (({ sampleNode with cache := fun _ => none } : RedisNode).doService throwingProcess () sampleBackend)
        [0, 0, 0, 0, 0, 0, 0, 1, 1, 1, 2, 2, 2, 2, 2, 2] = some s ∧
      (∀ ops ∈ s.request.threads, ops = []) ∧ s.request.itemSizeCond 0 = -1 ∧ .output ∉ s.request.log) ∧
    ∃ s, Machine.run (Serving.step throwingCached) (sampleNode.doService throwingCached () sampleBackend)
        [0, 0, 0, 0, 0, 0, 0] = some s ∧ s.request.crash = some .uncaught ∧ s.request.promise = some false := by
  constructor
  · have hend : (Machine.run (Serving.step throwingProcess)
        (({ sampleNode with cache := fun _ => none } : RedisNode).doService throwingProcess () sampleBackend)
        [0, 0, 0, 0, 0, 0, 0, 1, 1, 1, 2, 2, 2, 2, 2, 2]).map (fun s =>
          (decide (∀ ops ∈ s.request.threads, ops = []), s.request.itemSizeCond 0, decide (.output ∈ s.request.log))) =
        some (true, -1, false) := by
      decide
    obtain ⟨s, hs, hend⟩ := Option.map_eq_some_iff.1 hend
    simp only [Prod.mk.injEq, decide_eq_true_eq, decide_eq_false_iff_not] at hend
    exact ⟨s, hs, hend⟩
  · have hend : (Machine.run (Serving.step throwingCached) (sampleNode.doService throwingCached () sampleBackend)
        [0, 0, 0, 0, 0, 0, 0]).map (fun s => (s.request.crash, s.request.promise)) =
        some (some .uncaught, some false) := by
      decide
    obtain ⟨s, hs, hend⟩ := Option.map_eq_some_iff.1 hend
    exact ⟨s, hs, congrArg Prod.fst hend, congrArg Prod.snd hend⟩

end Graphize
