import Graphize.Spec.RedisWorld
import Graphize.Proof.RedisEffects
import Graphize.Proof.RedisKeys
import Graphize.Proof.RedisRefusals

/-!
# Which key a value belongs to

The callback of a batch and `merge_cache_data` find the key of a value by its place in the
shared fetch info, which the requests that come in between may have changed.

* `Attributed`: a call of a parse function, or a write to the cache, has the key that the
  element of the reply was asked for.
* `FetchInfo.Keeps`: `make_up_fetch_info_vec` leaves the first keys where they are.
* `Tied.step`, `Tied.made`: what holds of a request at its own steps, and when another
  one arrives.
* `attributed_of_undisturbed`: any run of any requests.
-/

namespace Graphize

open Threads

/-- A client has accepted a batch of fetch info `j`: the keys `ks`, from place `i` on. -/
def Request.Sent (q : Request) (j i : ℕ) (ks : List Bytes) : Prop := .issue j i ks true ∈ q.log

/-- The callback of a batch has not run yet. -/
def Request.Pending (q : Request) (j i : ℕ) : Prop :=
  ∃ ops ∈ q.threads, ∃ step key, .callback j i step key ∈ ops

/-- `merge_cache_data` has not run yet. -/
def Request.ToMerge (q : Request) : Prop := 0 < q.cond ∨ ∃ ops ∈ q.threads, .mergeCacheData ∈ ops

section

variable {ρ : Type*} (env : RedisEnv ρ)

/-- The keys of a batch of `info` have still to be read. -/
def Request.Unread (q : Request) (info : FetchInfo) (j i : ℕ) : Prop :=
  (q.Pending j i ∧ (env.enableParalParse = true ∨ info.useCache = true)) ∨ (q.ToMerge ∧ info.useCache = true)

/-- What an event does with an element of a reply, it does with the key that the element
was asked for in the same request. -/
def Attributed (vec : List FetchInfo) (q : Request) : RedisEvent → Prop
  | .parse call (some (i, k)) => ∃ ks value info, q.Sent call.fetchInfo i ks ∧ ks[k]? = some call.key ∧
      (q.backend.reply call.fetchInfo i).values[k]? = some value ∧ vec[call.fetchInfo]? = some info ∧
      call.value = parseValue env info value
  | .cacheSet key value j i k => ∃ ks data, q.Sent j i ks ∧ ks[k]? = some key ∧
      (q.backend.reply j i).values[k]? = some data ∧ value = data.getD blank
  | _ => True

/-- The first `n` keys of a fetch info stay: they are generated first, the cache does not
know them, and their slot is the first one. -/
structure FetchInfo.Keeps (c : Cache) (req : ρ) (info : FetchInfo) (n : ℕ) : Prop where
  first : (generated env req info).take n = info.keys.take n
  uncached : ∀ key ∈ info.keys.take n, hit c info key = none
  slot : env.hasClient info.redisClientId = true → ∀ key ∈ info.keys.take n,
    (slotsOf env (missed env c req info)).head? = some (env.slot key)

/-- A request that arrives leaves the keys where they are that others have still to read. -/
def RedisWorld.Undisturbed (w : RedisWorld) : Turn ρ → Prop
  | .thread _ _ => True
  | .doService req _ => ∀ q ∈ w.requests, ∀ j i ks info, q.Sent j i ks → w.node.fetchInfoVec[j]? = some info →
      q.Unread env info j i → (env.keyFuncMap info.keyGenFunc).isSome →
        info.Keeps env w.node.cache req (i + ks.length)

/-- No reply has more elements than its batch has keys. -/
def RedisWorld.Fits (w : RedisWorld) : Prop :=
  ∀ q ∈ w.requests, ∀ j i ks, q.Sent j i ks → (q.backend.reply j i).values.length ≤ ks.length

/-! ## What is known of a request -/

/-- The item `m` of fetch info `j` is still to be filled. -/
def cellW (j m : ℕ) : Op → ℕ
  | .fetchInfo j' => if j' = j then 1 else 0
  | .issue j' i step => if j' = j ∧ i / step ≤ m then 1 else 0
  | .callback j' i step _ => if j' = j ∧ i / step = m then 1 else 0
  | _ => 0

/-- The callback of the batch `ks` at place `i` of fetch info `j` has filled the item. -/
structure FilledBy (vec : List FetchInfo) (q : Request) (j : ℕ) (item : RedisResultItem) (i : ℕ) (ks : List Bytes) :
    Prop where
  ptr : item.fetchInfoPtr = some j
  start : item.startIndex = i
  values : item.resultStrVec = (q.backend.reply j i).values
  lens : item.resultStrLenVec = (q.backend.reply j i).values.map valueLen
  sent : q.Sent j i ks
  placed : ∃ info, vec[j]? = some info ∧ (info.useCache = true → q.ToMerge → ks <+: info.keys.drop i)

/-- The batches of a request that have still to be read are where they have been sent from. -/
structure Tied (vec : List FetchInfo) (q : Request) : Prop where
  steps : ∀ ops ∈ q.threads, ∀ j i step, .issue j i step ∈ ops → 0 < step
  cells : ∀ j m, total (cellW j m) q.threads ≤ 1
  items : ∀ (j : ℕ) items (m : ℕ) item, q.resultMap[j]? = some items → items[m]? = some item →
    item = {} ∨ (total (cellW j m) q.threads = 0 ∧ ∃ i ks, FilledBy vec q j item i ks)
  pending : ∀ j i, q.Pending j i → ∃ ks info, q.Sent j i ks ∧ vec[j]? = some info ∧
    (env.enableParalParse = true ∨ info.useCache = true → ks <+: info.keys.drop i)

variable {env}

/-! ## Steps of the request itself -/

section Steps

variable {s s' : Serving} {t j m : ℕ} {op : Op} {push rest front back : List Op} {new : List (List Op)}
  {rm : List (List RedisResultItem)}

theorem cellW_plain (hop : op.isPlain = true) : cellW j m op = 0 := by
  cases op <;> first | rfl | simp [Op.isPlain] at hop

theorem weight_plain {ops : List Op} (h : ∀ op ∈ ops, op.isPlain = true) : weight (cellW j m) ops = 0 :=
  weight_eq_zero fun op hop => cellW_plain (h op hop)

theorem weight_suffix {w : Op → ℕ} (h : back <:+ rest) : weight w back ≤ weight w rest := by
  obtain ⟨l, rfl⟩ := h
  rw [weight_append]
  exact Nat.le_add_left _ _

/-- An operation hands on the items that it has still to fill. -/
theorem OpEffect.cellW_le (h : OpEffect s op push new rm) (hstep : ∀ j i step, op = .issue j i step → 0 < step) :
    weight (cellW j m) push + total (cellW j m) new ≤ cellW j m op := by
  cases h with
  | opened => simp [cellW]
  | @accepted j' i step key info =>
    have hpos := hstep j' i step rfl
    have hdiv : (i + step) / step = i / step + 1 := Nat.add_div_right i hpos
    simp only [weight_cons, weight_nil, total_cons, total_nil, cellW, hdiv]
    split_ifs <;> omega
  | @refused j' i step =>
    have hpos := hstep j' i step rfl
    have hdiv : (i + step) / step = i / step + 1 := Nat.add_div_right i hpos
    simp only [weight_cons, weight_nil, total_nil, cellW, hdiv]
    split_ifs <;> omega
  | filled => simp
  | @finished sendRpc =>
    rw [weight_finishOps]
    simp [cellW]
  | plain hpush =>
    rw [weight_plain hpush]
    simp

theorem total_step {w : Op → ℕ} (hw : ∀ op, op.isPlain = true → w op = 0)
    (ht : s.request.threads[t]? = some (op :: rest)) (hfront : OpFront push front) (hback : back <:+ rest)
    (hths : s'.request.threads = s.request.threads.set t (front ++ back) ++ new) :
    total w s'.request.threads + w op ≤ total w s.request.threads + (weight w push + total w new) := by
  have hset := total_set (w := w) ht (front ++ back)
  have hrest := weight_suffix (w := w) hback
  have hpush : weight w front ≤ weight w push := by
    rcases hfront with rfl | hplain
    · exact le_rfl
    · rw [weight_eq_zero fun op hop => hw op (hplain op hop)]
      exact Nat.zero_le _
  rw [weight_cons, weight_append] at hset
  rw [hths, total_append]
  omega

/-- Where an operation of a thread comes from. -/
theorem mem_step (ht : s.request.threads[t]? = some (op :: rest)) (hfront : OpFront push front) (hback : back <:+ rest)
    (hths : s'.request.threads = s.request.threads.set t (front ++ back) ++ new) {ops : List Op} {x : Op}
    (hops : ops ∈ s'.request.threads) (hx : x ∈ ops) :
    (∃ ops ∈ s.request.threads, x ∈ ops) ∨ x ∈ push ∨ x.isPlain = true ∨ ∃ ops ∈ new, x ∈ ops := by
  rw [hths] at hops
  rcases mem_set_append hops with hops | rfl | hops
  · exact .inl ⟨ops, hops, hx⟩
  · rcases List.mem_append.1 hx with hx | hx
    · rcases hfront with rfl | hplain
      · exact .inr (.inl hx)
      · exact .inr (.inr (.inl (hplain x hx)))
    · exact .inl ⟨_, List.mem_of_getElem? ht, List.mem_cons_of_mem _ (hback.subset hx)⟩
  · exact .inr (.inr (.inr ⟨ops, hops, hx⟩))

/-- A batch is logged when it is sent. -/
theorem sent_step {i step : ℕ} {info : FetchInfo} {key : Bytes} (h : s.step env t = some s')
    (ht : s.request.threads[t]? = some (.issue j i step :: rest)) (hinfo : s.node.fetchInfoVec[j]? = some info)
    (hkey : info.keys[i]? = some key) (hacc : s.request.backend.accepts j i = true) :
    s'.request.Sent j i ((info.keys.drop i).take step) := by
  unfold Serving.step at h
  split at h
  · simp at h
  · simp only [ht, Option.ite_none_left_eq_some, Option.some.injEq] at h
    obtain ⟨-, rfl⟩ := h
    have hexec : (Op.issue j i step).exec env s = execIssue s j i step := rfl
    unfold Request.Sent
    rw [finish_log, hexec]
    unfold execIssue
    simp only [hinfo, hkey, hacc]
    exact List.mem_append_right _ List.mem_cons_self

theorem Request.Sent.step {i : ℕ} {ks : List Bytes} (hs : s.request.Sent j i ks) (h : s.step env t = some s') :
    s'.request.Sent j i ks := mem_log_step h hs

/-- Only an accepted batch gets a callback. -/
theorem pending_step (h : s.step env t = some s') (ht : s.request.threads[t]? = some (op :: rest))
    (he : OpEffect s op push new rm) (hfront : OpFront push front) (hback : back <:+ rest)
    (hths : s'.request.threads = s.request.threads.set t (front ++ back) ++ new) {i : ℕ}
    (hp : s'.request.Pending j i) : s.request.Pending j i ∨ ∃ info step, s.node.fetchInfoVec[j]? = some info ∧
      s'.request.Sent j i ((info.keys.drop i).take step) := by
  obtain ⟨ops, hops, step, key, hx⟩ := hp
  rcases mem_step ht hfront hback hths hops hx with ⟨ops, hops, hx⟩ | hx | hx | ⟨ops, hops, hx⟩
  · exact .inl ⟨ops, hops, step, key, hx⟩
  · cases he with
    | finished => simp [finishOps] at hx
    | plain hpush => exact absurd (hpush _ hx) (by simp [Op.isPlain])
    | _ => simp at hx
  · simp [Op.isPlain] at hx
  · cases he with
    | accepted hinfo hkey hacc =>
      obtain rfl := List.mem_singleton.1 hops
      simp only [List.mem_cons, Op.callback.injEq, List.not_mem_nil, or_false, reduceCtorEq] at hx
      obtain ⟨rfl, rfl, rfl, rfl⟩ := hx
      exact .inr ⟨_, _, hinfo, sent_step h ht hinfo hkey hacc⟩
    | _ => simp at hops

theorem toMerge_step (hk : OpFrame s s') (ht : s.request.threads[t]? = some (op :: rest))
    (he : OpEffect s op push new rm) (hfront : OpFront push front) (hback : back <:+ rest)
    (hths : s'.request.threads = s.request.threads.set t (front ++ back) ++ new)
    (hm : s'.request.ToMerge) : s.request.ToMerge := by
  rcases hm with hcond | ⟨ops, hops, hx⟩
  · exact .inl (lt_of_lt_of_le hcond hk.cond)
  · rcases mem_step ht hfront hback hths hops hx with ⟨ops, hops, hx⟩ | hx | hx | ⟨ops, hops, hx⟩
    · exact .inr ⟨ops, hops, hx⟩
    · cases he with
      | finished hc => exact .inl (by rw [hc]; exact Int.one_pos)
      | plain hpush => exact absurd (hpush _ hx) (by simp [Op.isPlain])
      | _ => simp at hx
    · simp [Op.isPlain] at hx
    · cases he with
      | accepted =>
        obtain rfl := List.mem_singleton.1 hops
        simp at hx
      | _ => simp at hops

/-- What the item of a pending callback is. -/
theorem Tied.fresh {vec : List FetchInfo} {q : Request} (hT : Tied env vec q) {i step : ℕ} {key : Bytes}
    {ops : List Op} {items : List RedisResultItem} {item : RedisResultItem} (hops : ops ∈ q.threads)
    (hop : .callback j i step key ∈ ops) (hitems : q.resultMap[j]? = some items)
    (hitem : items[i / step]? = some item) : item = {} := by
  rcases hT.items j items (i / step) item hitems hitem with h | ⟨h, -⟩
  · exact h
  · have hle : cellW j (i / step) (.callback j i step key) ≤ _ := op_le_total hops hop
    rw [h] at hle
    simp [cellW] at hle

theorem FilledBy.step {vec : List FetchInfo} {item : RedisResultItem} {i : ℕ} {ks : List Bytes}
    (hF : FilledBy vec s.request j item i ks) (h : s.step env t = some s') (hk : OpFrame s s')
    (hm : s'.request.ToMerge → s.request.ToMerge) : FilledBy vec s'.request j item i ks where
  ptr := hF.ptr
  start := hF.start
  values := by rw [hk.backend, hF.values]
  lens := by rw [hk.backend, hF.lens]
  sent := hF.sent.step h
  placed := by
    obtain ⟨info, hinfo, hplaced⟩ := hF.placed
    exact ⟨info, hinfo, fun hu hmerge => hplaced hu (hm hmerge)⟩

/-- The items after a step. -/
theorem Tied.items_step (hT : Tied env s.node.fetchInfoVec s.request) (h : s.step env t = some s')
    (hk : OpFrame s s') (ht : s.request.threads[t]? = some (op :: rest))
    (he : OpEffect s op push new s'.request.resultMap)
    (htotal : ∀ j m, total (cellW j m) s'.request.threads + cellW j m op ≤
      total (cellW j m) s.request.threads + (weight (cellW j m) push + total (cellW j m) new))
    (hcells : ∀ j m, weight (cellW j m) push + total (cellW j m) new ≤ cellW j m op)
    (hm : s'.request.ToMerge → s.request.ToMerge) {items : List RedisResultItem} {item : RedisResultItem}
    (hitems : s'.request.resultMap[j]? = some items) (hitem : items[m]? = some item) :
    item = {} ∨ (total (cellW j m) s'.request.threads = 0 ∧
      ∃ i ks, FilledBy s.node.fetchInfoVec s'.request j item i ks) := by
  -- an item that was there before keeps its batch
  have hold : ∀ olds, s.request.resultMap[j]? = some olds → olds[m]? = some item →
      item = {} ∨ (total (cellW j m) s'.request.threads = 0 ∧
        ∃ i ks, FilledBy s.node.fetchInfoVec s'.request j item i ks) := by
    intro olds h1 h2
    rcases hT.items j olds m item h1 h2 with hitem | ⟨hzero, i, ks, hF⟩
    · exact .inl hitem
    · have h3 := htotal j m
      have h4 := hcells j m
      exact .inr ⟨by omega, i, ks, hF.step h hk hm⟩
  have hmem := List.mem_of_getElem? ht
  generalize hrm : s'.request.resultMap = rm at he hitems
  cases he with
  | @opened j' n step hstep =>
    by_cases hjj : j' = j
    · subst hjj
      obtain rfl : items = List.replicate n {} := by
        simp only [List.getElem?_set, if_true, Option.ite_none_right_eq_some, Option.some.injEq] at hitems
        exact hitems.2.symm
      exact .inl (List.eq_of_mem_replicate (List.mem_of_getElem? hitem))
    · rw [List.getElem?_set_ne hjj] at hitems
      exact hold items hitems hitem
  | @filled j' i step key info items' item' new' hinfo hitems' hitem' hfill =>
    by_cases hjj : j' = j
    · subst hjj
      -- the callback was pending, so its item was still empty
      obtain rfl := hT.fresh hmem List.mem_cons_self hitems' hitem'
      obtain rfl : items = items'.set (i / step) new' := by
        simp only [List.getElem?_set, if_true, Option.ite_none_right_eq_some, Option.some.injEq] at hitems
        exact hitems.2.symm
      by_cases hmm : i / step = m
      · subst hmm
        rw [List.getElem?_set_self (List.getElem?_eq_some_iff.1 hitem').1, Option.some.injEq] at hitem
        subst hitem
        obtain ⟨ks, info', hsent, hinfo', hplaced⟩ := hT.pending j' i ⟨_, hmem, step, key, List.mem_cons_self⟩
        obtain ⟨hptr, hstart, hvalues, hlens⟩ := fillItem_values hfill
        have h1 := hT.cells j' (i / step)
        have h2 := htotal j' (i / step)
        have h3 : cellW j' (i / step) (.callback j' i step key) = 1 := by simp [cellW]
        simp only [weight_nil, total_nil, h3] at h2
        refine .inr ⟨by omega, i, ks, hptr, hstart, ?_, ?_, hsent.step h, info', hinfo',
          fun hu _ => hplaced (.inr hu)⟩
        · rw [hk.backend, hvalues]
        · rw [hk.backend, hlens]
      · rw [List.getElem?_set_ne hmm] at hitem
        exact hold items' hitems' hitem
    · rw [List.getElem?_set_ne hjj] at hitems
      exact hold items hitems hitem
  | _ => exact hold items hitems hitem

/-- **A step of a request** keeps its batches where they are. -/
theorem Tied.step (hT : Tied env s.node.fetchInfoVec s.request) (h : s.step env t = some s')
    (hc : s'.request.crash = none) : Tied env s.node.fetchInfoVec s'.request := by
  obtain ⟨hk, op, rest, ht, heffect⟩ := step_opEffect h
  obtain ⟨push, new, front, back, he, hfront, hback, hths⟩ := heffect hc
  have hmem := List.mem_of_getElem? ht
  have hstep : ∀ j i step, op = .issue j i step → 0 < step := by
    rintro j i step rfl
    exact hT.steps _ hmem j i step List.mem_cons_self
  have hcells : ∀ j m, weight (cellW j m) push + total (cellW j m) new ≤ cellW j m op := fun j m => he.cellW_le hstep
  have htotal : ∀ j m, total (cellW j m) s'.request.threads + cellW j m op ≤
      total (cellW j m) s.request.threads + (weight (cellW j m) push + total (cellW j m) new) :=
    fun j m => total_step (fun _ => cellW_plain) ht hfront hback hths
  have hm : s'.request.ToMerge → s.request.ToMerge := toMerge_step hk ht he hfront hback hths
  refine ⟨fun ops hops j i step hx => ?_, fun j m => ?_, fun j items m item hitems hitem =>
    hT.items_step h hk ht he htotal hcells hm hitems hitem, fun j i hp => ?_⟩
  -- an `issue` comes from another `issue` with its batch size, or from the opening
  · rcases mem_step ht hfront hback hths hops hx with ⟨ops, hops, hx⟩ | hx | hx | ⟨ops, hops, hx⟩
    · exact hT.steps ops hops j i step hx
    · generalize s'.request.resultMap = rm at he
      cases he with
      | opened hpos =>
        simp only [List.mem_singleton, Op.issue.injEq] at hx
        obtain ⟨rfl, rfl, rfl⟩ := hx
        exact hpos
      | accepted =>
        simp only [List.mem_singleton, Op.issue.injEq] at hx
        obtain ⟨rfl, rfl, rfl⟩ := hx
        exact hstep _ _ _ rfl
      | refused =>
        simp only [List.mem_cons, Op.issue.injEq, List.not_mem_nil, or_false, reduceCtorEq, false_or] at hx
        obtain ⟨rfl, rfl, rfl⟩ := hx
        exact hstep _ _ _ rfl
      | filled => simp at hx
      | finished => simp [finishOps] at hx
      | plain hpush => exact absurd (hpush _ hx) (by simp [Op.isPlain])
    · simp [Op.isPlain] at hx
    · generalize s'.request.resultMap = rm at he
      cases he with
      | accepted =>
        obtain rfl := List.mem_singleton.1 hops
        simp at hx
      | _ => simp at hops
  · have h1 := hT.cells j m
    have h2 := htotal j m
    have h3 := hcells j m
    omega
  · rcases pending_step h ht he hfront hback hths hp with hp | ⟨info, step, hinfo, hsent⟩
    · obtain ⟨ks, info, hsent, hplaced⟩ := hT.pending j i hp
      exact ⟨ks, info, hsent.step h, hplaced⟩
    · exact ⟨_, info, hsent, hinfo, fun _ => List.take_prefix _ _⟩

/-! ## What is logged -/

/-- The key at a place of a batch that has stayed where it is. -/
theorem key_of_placed {keys ks : List Bytes} {i k : ℕ} {key : Bytes} (h : ks <+: keys.drop i) (hk : k < ks.length)
    (hkey : keys[i + k]? = some key) : ks[k]? = some key := by
  rw [← List.getElem?_drop] at hkey
  rw [← hkey, List.getElem?_eq_getElem hk, h.getElem hk]
  exact (List.getElem?_eq_getElem _).symm

theorem Attributed.step {vec : List FetchInfo} {e : RedisEvent} (he : Attributed env vec s.request e)
    (h : s.step env t = some s') (hk : OpFrame s s') : Attributed env vec s'.request e := by
  cases e with
  | parse call element =>
    cases element with
    | none => trivial
    | some element =>
      obtain ⟨ks, value, info, hsent, hkey, hvalue, hinfo⟩ := he
      exact ⟨ks, value, info, hsent.step h, hkey, hk.backend.symm ▸ hvalue, hinfo⟩
  | cacheSet key value j i k =>
    obtain ⟨ks, data, hsent, hkey, hvalue, heq⟩ := he
    exact ⟨ks, data, hsent.step h, hkey, hk.backend.symm ▸ hvalue, heq⟩
  | _ => trivial

/-- **What a step logs is attributed.** -/
theorem Tied.attributed (hT : Tied env s.node.fetchInfoVec s.request)
    (hfits : ∀ j i ks, s.request.Sent j i ks → (s.request.backend.reply j i).values.length ≤ ks.length)
    (ht : s.request.threads[t]? = some (op :: rest)) {e : RedisEvent} (he : Emits env s op e) :
    Attributed env s.node.fetchInfoVec s.request e := by
  have hmem := List.mem_of_getElem? ht
  cases he with
  | @parse j i step key info items item item' e hpar hinfo hitems hitem hfill he =>
    obtain rfl := hT.fresh hmem List.mem_cons_self hitems hitem
    obtain ⟨-, hstart, hvalues, -⟩ := fillItem_values hfill
    obtain ⟨ks, info', hsent, hinfo', hplaced⟩ := hT.pending j i ⟨_, hmem, step, key, List.mem_cons_self⟩
    obtain rfl : info = info' := Option.some.inj (hinfo.symm.trans hinfo')
    cases he with
    | @parse k key' value hkey hval =>
      rw [hvalues] at hval
      rw [hstart] at hkey ⊢
      have hlt : k < ks.length := lt_of_lt_of_le (List.getElem?_eq_some_iff.1 hval).1 (hfits j i ks hsent)
      exact ⟨ks, value, info, hsent, key_of_placed (hplaced (.inl hpar)) hlt hkey, hval, hinfo, rfl⟩
  | write he =>
    obtain ⟨first, items, info, hitems, hinfo, hu, item, hitem, hw⟩ := he
    obtain ⟨j, hj⟩ := List.getElem?_of_mem hitems
    have hmerge : s.request.ToMerge := .inr ⟨_, hmem, List.mem_cons_self⟩
    -- an item through which something is read has been filled
    have hfilled : ∀ item ∈ first :: items, item.fetchInfoPtr ≠ none →
        ∃ i ks, FilledBy s.node.fetchInfoVec s.request j item i ks := by
      intro item hitem hptr
      obtain ⟨m, hm⟩ := List.getElem?_of_mem hitem
      rcases hT.items j _ m item hj hm with rfl | ⟨-, hF⟩
      · exact absurd rfl hptr
      · exact hF
    obtain ⟨j', hfirst, hinfo⟩ := Option.bind_eq_some_iff.1 hinfo
    obtain ⟨_, _, hF⟩ := hfilled first List.mem_cons_self (by rw [hfirst]; simp)
    obtain rfl : j' = j := Option.some.inj (hfirst.symm.trans hF.ptr)
    cases hw with
    | @set j'' k key value len hptr hkey hval hlen =>
      obtain ⟨i, ks, hF⟩ := hfilled item hitem (by rw [hptr]; simp)
      obtain rfl : j'' = j' := Option.some.inj (hptr.symm.trans hF.ptr)
      unfold RedisResultItem.keyOf at hkey
      rw [hptr, Option.bind_some, hinfo, Option.bind_some, hF.start] at hkey
      rw [hF.values] at hval
      rw [hF.lens, List.getElem?_map, hval, Option.map_some, Option.some.injEq] at hlen
      have hlt : k < ks.length := lt_of_lt_of_le (List.getElem?_eq_some_iff.1 hval).1 (hfits _ _ ks hF.sent)
      obtain ⟨info', hinfo', hplaced⟩ := hF.placed
      obtain rfl : info = info' := Option.some.inj (hinfo.symm.trans hinfo')
      rw [hF.start]
      refine ⟨ks, value, hF.sent, key_of_placed (hplaced hu hmerge) hlt hkey, hval, ?_⟩
      subst hlen
      cases value with
      | none => rfl
      | some data => exact List.take_length
  | _ => trivial

end Steps

/-! ## When another request arrives -/

section Arrivals

variable {c : Cache} {req : ρ} {info : FetchInfo} {n : ℕ}

theorem filter_prefix {α : Type*} {p : α → Bool} {l l' : List α} (h : l <+: l') (hp : ∀ x ∈ l, p x = true) :
    l <+: l'.filter p := by
  obtain ⟨more, rfl⟩ := h
  rw [List.filter_append, List.filter_eq_self.2 hp]
  exact List.prefix_append _ _

/-- **The keys that stay**, through the generator, the cache and the grouping by slot. -/
theorem FetchInfo.Keeps.keys (h : info.Keeps env c req n) (hreg : (env.keyFuncMap info.keyGenFunc).isSome) (i : ℕ) :
    info.keys.take n <+: (makeUpFetchInfo env c req i info).1.keys := by
  obtain ⟨keyFunc, hf⟩ := Option.isSome_iff_exists.1 hreg
  have hgenerated : info.keys.take n <+: generated env req info := by
    rw [← h.first]
    exact List.take_prefix _ _
  have hmissed : info.keys.take n <+: missed env c req info := by
    refine filter_prefix hgenerated fun key hkey => ?_
    rw [h.uncached key hkey]
    rfl
  rw [makeUpFetchInfo_eq hf, lookedUp_fst]
  unfold groupBySlot
  split
  · rename_i hclient
    split
    · exact hmissed
    · rename_i slot rest hslots
      refine filter_prefix hmissed fun key hkey => ?_
      have hslot := h.slot hclient key hkey
      rw [hslots, List.head?_cons, Option.some.injEq] at hslot
      simp [hslot]
  · exact hmissed

variable {node : RedisNode} {backend : Backend} {j : ℕ}

variable (env req backend) in
/-- What becomes of a fetch info. -/
theorem doService_getElem? (hinfo : node.fetchInfoVec[j]? = some info) :
    ∃ info', (node.doService env req backend).node.fetchInfoVec[j]? = some info' ∧ info.Same info' ∧
      info'.keys = (makeUpFetchInfo env node.cache req j info).1.keys := by
  rcases doService_cases env node req backend with ⟨hnil, -⟩ | ⟨vec, data, hm, -, heq⟩
  · rw [hnil] at hinfo
    simp at hinfo
  · rw [heq]
    exact makeUp_getElem? hm hinfo

/-- The keys of a batch that are kept are found where they have been. -/
theorem placed_made {i : ℕ} {ks : List Bytes} {info' : FetchInfo} (hplaced : ks <+: info.keys.drop i)
    (hkeeps : (env.keyFuncMap info.keyGenFunc).isSome → info.Keeps env node.cache req (i + ks.length))
    (hkeys : info'.keys = (makeUpFetchInfo env node.cache req j info).1.keys) : ks <+: info'.keys.drop i := by
  rw [hkeys]
  by_cases hreg : (env.keyFuncMap info.keyGenFunc).isSome
  · obtain ⟨more, hmore⟩ := (hkeeps hreg).keys hreg j
    have hks : ks = (info.keys.take (i + ks.length)).drop i := by
      rw [List.drop_take, Nat.add_sub_cancel_left]
      exact (List.prefix_iff_eq_take.1 hplaced)
    rw [← hmore]
    by_cases hi : i ≤ (info.keys.take (i + ks.length)).length
    · rw [List.drop_append_of_le_length hi, ← hks]
      exact List.prefix_append _ _
    · have hnil : ks = [] := by
        rw [hks]
        exact List.drop_eq_nil_of_le (by omega)
      rw [hnil]
      exact List.nil_prefix
  · rw [makeUpFetchInfo_none (Option.not_isSome_iff_eq_none.1 hreg)]
    exact hplaced

theorem Attributed.made {q : Request} {e : RedisEvent} (he : Attributed env node.fetchInfoVec q e) :
    Attributed env (node.doService env req backend).node.fetchInfoVec q e := by
  cases e with
  | parse call element =>
    cases element with
    | none => trivial
    | some element =>
      obtain ⟨ks, value, info, hsent, hkey, hvalue, hinfo, hparse⟩ := he
      obtain ⟨info', hinfo', hsame, -⟩ := doService_getElem? env req backend hinfo
      refine ⟨ks, value, info', hsent, hkey, hvalue, hinfo', ?_⟩
      rw [hparse]
      unfold parseValue
      rw [hsame.compress]
  | _ => exact he

/-- **A request that arrives** leaves the batches of another one where they are. -/
theorem Tied.made {q : Request} (hT : Tied env node.fetchInfoVec q)
    (hu : ∀ j i ks info, q.Sent j i ks → node.fetchInfoVec[j]? = some info → q.Unread env info j i →
      (env.keyFuncMap info.keyGenFunc).isSome → info.Keeps env node.cache req (i + ks.length)) :
    Tied env (node.doService env req backend).node.fetchInfoVec q := by
  refine ⟨hT.steps, hT.cells, fun j items m item hitems hitem => ?_, fun j i hp => ?_⟩
  · rcases hT.items j items m item hitems hitem with h | ⟨hzero, i, ks, hF⟩
    · exact .inl h
    · obtain ⟨info, hinfo, hplaced⟩ := hF.placed
      obtain ⟨info', hinfo', hsame, hkeys⟩ := doService_getElem? env req backend hinfo
      refine .inr ⟨hzero, i, ks, hF.ptr, hF.start, hF.values, hF.lens, hF.sent, info', hinfo', fun hcache hmerge => ?_⟩
      rw [hsame.useCache] at hcache
      exact placed_made (hplaced hcache hmerge) (hu j i ks info hF.sent hinfo (.inr ⟨hmerge, hcache⟩)) hkeys
  · obtain ⟨ks, info, hsent, hinfo, hplaced⟩ := hT.pending j i hp
    obtain ⟨info', hinfo', hsame, hkeys⟩ := doService_getElem? env req backend hinfo
    refine ⟨ks, info', hsent, hinfo', fun hread => ?_⟩
    rw [hsame.useCache] at hread
    exact placed_made (hplaced hread) (hu j i ks info hsent hinfo (.inl ⟨hp, hread⟩)) hkeys

/-- The request that arrives has sent nothing. -/
theorem tied_doService : Tied env (node.doService env req backend).node.fetchInfoVec
    (node.doService env req backend).request := by
  rcases doService_cases env node req backend with ⟨-, heq⟩ | ⟨vec, data, -, -, heq⟩ <;> rw [heq]
  · refine ⟨fun ops hops j i step hx => ?_, fun j m => ?_, fun j items m item hitems => ?_, fun j i hp => ?_⟩
    · rw [List.mem_singleton.1 hops] at hx
      simp at hx
    · simp [cellW]
    · simp at hitems
    · obtain ⟨ops, hops, step, key, hx⟩ := hp
      rw [List.mem_singleton.1 hops] at hx
      simp at hx
  · refine ⟨fun ops hops j i step hx => ?_, fun j m => ?_, fun j items m item hitems hitem => ?_, fun j i hp => ?_⟩
    · rw [List.mem_singleton.1 hops] at hx
      simp [loopOps] at hx
    · have hloop : weight (cellW j m) (loopOps vec.length) = weight (isW (.fetchInfo j)) (loopOps vec.length) := by
        unfold weight
        refine congrArg List.sum (List.map_congr_left fun op hop => ?_)
        rcases List.mem_append.1 hop with hop | hop
        · obtain ⟨j', -, rfl⟩ := List.mem_map.1 hop
          simp [cellW, isW]
        · rw [List.mem_singleton.1 hop]
          rfl
      simp only [total_cons, total_nil, hloop, weight_isW, count_loopOps]
      split <;> omega
    · obtain rfl := List.eq_of_mem_replicate (List.mem_of_getElem? hitems)
      simp at hitem
    · obtain ⟨ops, hops, step, key, hx⟩ := hp
      rw [List.mem_singleton.1 hops] at hx
      simp [loopOps] at hx

end Arrivals

/-! ## Any run -/

section World

variable {w w' : RedisWorld} {turn : Turn ρ}

theorem RedisWorld.crash_of_not_ended (h : w.ended = false) : ∀ q ∈ w.requests, q.crash = none := by
  unfold RedisWorld.ended at h
  rw [List.any_eq_false] at h
  intro q hq
  simpa using h q hq

/-- Every request goes on with what it has sent. -/
theorem RedisWorld.fits_of_step (h : w.step env turn = some w') (hf : w'.Fits) : w.Fits := by
  intro q hq j i ks hsent
  unfold RedisWorld.step at h
  split at h
  · simp at h
  · cases turn with
    | doService req backend =>
      obtain rfl := Option.some.inj h
      exact hf q (List.mem_append_left _ hq) j i ks hsent
    | thread r t =>
      simp only at h
      split at h
      · simp at h
      · rename_i q₀ hq₀
        obtain ⟨s, hs, rfl⟩ := Option.map_eq_some_iff.1 h
        obtain ⟨r', hr'⟩ := List.getElem?_of_mem hq
        by_cases hrr : r = r'
        · subst hrr
          obtain rfl : q₀ = q := Option.some.inj (hq₀.symm.trans hr')
          have hmem : s.request ∈ w.requests.set r s.request :=
            List.mem_set (List.getElem?_eq_some_iff.1 hr').1 _
          have := hf _ hmem j i ks (hsent.step hs)
          rwa [(step_opEffect hs).1.backend] at this
        · refine hf q (List.mem_of_getElem? (i := r') ?_) j i ks hsent
          rw [List.getElem?_set_ne hrr, hr']

/-- What holds in a run of undisturbed requests. -/
structure RedisWorld.Good (env : RedisEnv ρ) (w : RedisWorld) : Prop where
  tied : w.ended = false → ∀ q ∈ w.requests, Tied env w.node.fetchInfoVec q
  attributed : ∀ q ∈ w.requests, ∀ e ∈ q.log, Attributed env w.node.fetchInfoVec q e

theorem RedisWorld.Good.step (hG : w.Good env) (hf : w.Fits) (hu : w.Undisturbed env turn)
    (h : w.step env turn = some w') : w'.Good env := by
  unfold RedisWorld.step at h
  split at h
  · simp at h
  · rename_i hended
    have hT := hG.tied (Bool.eq_false_iff.2 hended)
    cases turn with
    | doService req backend =>
      obtain rfl := Option.some.inj h
      refine ⟨fun _ q hq => ?_, fun q hq e he => ?_⟩
      · rcases List.mem_append.1 hq with hq | hq
        · exact (hT q hq).made (hu q hq)
        · rw [List.mem_singleton.1 hq]
          exact tied_doService
      · rcases List.mem_append.1 hq with hq | hq
        · exact (hG.attributed q hq e he).made
        · rw [List.mem_singleton.1 hq, doService_log] at he
          simp at he
    | thread r t =>
      simp only at h
      split at h
      · simp at h
      · rename_i q hq
        obtain ⟨s, hs, rfl⟩ := Option.map_eq_some_iff.1 h
        have hk := (step_opEffect hs).1
        have hmem := List.mem_of_getElem? hq
        have hvec : s.node.fetchInfoVec = w.node.fetchInfoVec := hk.vec
        refine ⟨fun hended' q' hq' => ?_, fun q' hq' e he => ?_⟩
        · rw [hvec]
          rcases List.mem_or_eq_of_mem_set hq' with hq' | rfl
          · exact hT q' hq'
          · refine (hT q hmem).step (s := ⟨w.node, q⟩) hs (RedisWorld.crash_of_not_ended hended' _ ?_)
            exact List.mem_set (List.getElem?_eq_some_iff.1 hq).1 _
        · rw [hvec]
          rcases List.mem_or_eq_of_mem_set hq' with hq' | rfl
          · exact hG.attributed q' hq' e he
          · obtain ⟨op, rest, evs, ht, hlog, hevs⟩ := step_log hs
            rw [hlog] at he
            rcases List.mem_append.1 he with he | he
            · exact (hG.attributed q hmem e he).step (s := ⟨w.node, q⟩) hs hk
            · exact ((hT q hmem).attributed (s := ⟨w.node, q⟩) (hf q hmem) ht (hevs e he)).step hs hk

/-- **Values meet their keys**: in any run of any requests in which each arrives while the
keys stay that others have still to read, all that is done with an element of a reply is done
with the key that it was asked for. -/
theorem attributed_of_undisturbed (node : RedisNode) (turns : List (Turn ρ)) (w : RedisWorld)
    (hu : Machine.Along (RedisWorld.step env) (RedisWorld.Undisturbed env) ⟨node, []⟩ turns)
    (hrun : Machine.run (RedisWorld.step env) ⟨node, []⟩ turns = some w) (hf : w.Fits) :
    ∀ q ∈ w.requests, ∀ e ∈ q.log, Attributed env w.node.fetchInfoVec q e := by
  have hgood : w.Fits → w.Good env :=
    Machine.run_along (fun w => w.Fits → w.Good env)
      (fun _ _ _ hG hu h hf => (hG (RedisWorld.fits_of_step h hf)).step (RedisWorld.fits_of_step h hf) hu h)
      turns ⟨node, []⟩ w (fun _ => ⟨by simp, by simp⟩) hu hrun
  exact (hgood hf).attributed

end World

end

/-- Every batch is accepted and answered with one value, that of its fetch info. -/
def numberedBackend : Backend where
  accepts _ _ := true
  reply j _ := { response := some [.array [some [UInt8.ofNat (j + 1)]]] }

/-- One fetch info without the cache. -/
def plainNode : RedisNode where
  fetchInfoVec := [{ sampleInfo with useCache := false }]
  cache _ := none

/-- A request arrives and sends its two batches. -/
def sending : List (Turn Unit) := .doService () numberedBackend :: List.replicate 5 (.thread 0 0)

/-- The callback of the first request runs after the second one has arrived: its keys are
followed by those of the second. -/
theorem attributed_overlapping : ∃ w, Machine.run (RedisWorld.step sampleEnv) ⟨plainNode, []⟩
      (sending ++ [.doService () numberedBackend, .thread 0 1]) = some w ∧
    ∀ q ∈ w.requests, ∀ e ∈ q.log, Attributed sampleEnv w.node.fetchInfoVec q e := by
  have hsent : (Machine.run (RedisWorld.step sampleEnv) ⟨plainNode, []⟩ sending).map (fun w =>
      (w.requests.map fun q => q.log, w.node.fetchInfoVec)) =
      some ([[.issue 0 0 [[97]] true, .issue 0 1 [[9]] true]],
        [{ sampleInfo with useCache := false, keys := [[97], [9]], id := "0".toList }]) := by
    decide
  have hend : (Machine.run (RedisWorld.step sampleEnv) ⟨plainNode, []⟩
      (sending ++ [.doService () numberedBackend, .thread 0 1])).map (fun w => w.requests.map fun q =>
        (q.log, (q.backend.reply 0 0).values.length, (q.backend.reply 0 1).values.length)) =
      some [([.issue 0 0 [[97]] true, .issue 0 1 [[9]] true, .called 0 0,
        .parse ⟨[97], some [1], 0, 2, 0, false⟩ (some (0, 0))], 1, 1), ([], 1, 1)] := by
    decide
  obtain ⟨w, hrun, hlogs⟩ := Option.map_eq_some_iff.1 hend
  refine ⟨w, hrun, attributed_of_undisturbed plainNode _ w ?_ hrun ?_⟩
  · refine Machine.along_append (fun _ _ => ⟨fun q hq => absurd hq List.not_mem_nil, ?_⟩) fun w₁ hw₁ => ?_
    · refine Machine.along_of_forall fun turn hturn _ => ?_
      rw [List.eq_of_mem_replicate hturn]
      trivial
    · refine fun _ _ => ⟨fun q hq j i ks info hks hinfo _ _ => ?_, fun _ _ => ⟨trivial, trivial⟩⟩
      rw [hw₁, Option.map_some, Option.some.injEq, Prod.mk.injEq] at hsent
      obtain ⟨hlog, hvec⟩ := hsent
      have hq := List.mem_map_of_mem (f := fun q => q.log) hq
      rw [hlog, List.mem_singleton] at hq
      unfold Request.Sent at hks
      simp only [hq, List.mem_cons, RedisEvent.issue.injEq, and_true, List.not_mem_nil, or_false] at hks
      -- without the cache each key is missed, and the keys are only appended to
      have hkeeps : ∀ n ≤ 2, FetchInfo.Keeps sampleEnv w₁.node.cache ()
          { sampleInfo with useCache := false, keys := [[97], [9]], id := "0".toList } n := by
        intro n hn
        have hhit : ∀ key, hit w₁.node.cache { sampleInfo with
            useCache := false, keys := [[97], [9]], id := "0".toList } key = none := fun _ => rfl
        refine ⟨?_, fun key _ => hhit key, fun _ key _ => ?_⟩
        · obtain rfl | rfl | rfl : n = 0 ∨ n = 1 ∨ n = 2 := by omega
          all_goals rfl
        · unfold missed
          simp only [hhit]
          rfl
      rcases hks with ⟨rfl, rfl, rfl⟩ | ⟨rfl, rfl, rfl⟩
      · rw [hvec] at hinfo
        obtain rfl := Option.some.inj hinfo
        exact hkeeps 1 (by omega)
      · rw [hvec] at hinfo
        obtain rfl := Option.some.inj hinfo
        exact hkeeps 2 le_rfl
  · intro q hq j i ks hks
    have hq := List.mem_map_of_mem (f := fun q : Request =>
      (q.log, (q.backend.reply 0 0).values.length, (q.backend.reply 0 1).values.length)) hq
    rw [hlogs] at hq
    unfold Request.Sent at hks
    simp only [List.mem_cons, Prod.mk.injEq, List.not_mem_nil, or_false] at hq
    rcases hq with ⟨hlog, h0, h1⟩ | ⟨hlog, -, -⟩
    · simp only [hlog, List.mem_cons, RedisEvent.issue.injEq, and_true, List.not_mem_nil, or_false,
        reduceCtorEq] at hks
      rcases hks with ⟨rfl, rfl, rfl⟩ | ⟨rfl, rfl, rfl⟩
      · rw [h0]
        rfl
      · rw [h1]
        rfl
    · rw [hlog] at hks
      exact absurd hks List.not_mem_nil

/-- The two keys of a request have different slots; the last slot comes first. -/
def reversedEnv : RedisEnv Unit :=
  { sampleEnv with
    slot := fun key => (key.headD 0).toNat
    slotOrder := List.reverse
    slotOrder_perm := List.reverse_perm }

def cachingNode : RedisNode where
  fetchInfoVec := [sampleInfo]
  cache _ := none

/-- A request sends its batches, another one arrives and sends its own, then the callbacks of
the first one run. -/
def crossing : List (Turn Unit) :=
  .doService () numberedBackend :: List.replicate 7 (.thread 0 0) ++ .doService () numberedBackend ::
    List.replicate 15 (.thread 1 0) ++ List.replicate 4 (.thread 0 1) ++ List.replicate 7 (.thread 0 2)

/-- The value of one key is parsed and cached as that of the other. -/
theorem attributed_fails : ∃ w, Machine.run (RedisWorld.step reversedEnv) ⟨cachingNode, []⟩ crossing = some w ∧
    ∃ q ∈ w.requests, .issue 0 0 [[9]] true ∈ q.log ∧ .cacheSet [97] [1] 0 0 0 ∈ q.log ∧
      .parse ⟨[97], some [1], 0, 1, 0, false⟩ (some (0, 0)) ∈ q.log ∧
      ¬ Attributed reversedEnv w.node.fetchInfoVec q (.parse ⟨[97], some [1], 0, 1, 0, false⟩ (some (0, 0))) := by
  have hend : (Machine.run (RedisWorld.step reversedEnv) ⟨cachingNode, []⟩ crossing).map (fun w =>
      w.requests.map fun q => q.log) = some [[.issue 0 0 [[9]] true, .issue 1 0 [[97]] true, .called 0 0,
        .parse ⟨[97], some [1], 0, 1, 0, false⟩ (some (0, 0)), .called 1 0,
        .parse ⟨[9], some [2], 0, 1, 1, false⟩ (some (0, 0)), .cacheSet [97] [1] 0 0 0, .cacheSet [9] [2] 1 0 0,
        .merged, .process, .output],
        [.issue 0 0 [[97]] true, .issue 1 0 [[9]] true, .issue 2 0 [[9]] true, .issue 2 1 [[9]] true,
          .issue 3 0 [[97]] true, .issue 3 1 [[97]] true]] := by
    decide
  obtain ⟨w, hrun, hlogs⟩ := Option.map_eq_some_iff.1 hend
  obtain ⟨q, qs, hrequests, hlog, -⟩ := List.map_eq_cons_iff.1 hlogs
  have hq : q ∈ w.requests := by
    rw [hrequests]
    exact List.mem_cons_self
  refine ⟨w, hrun, q, hq, ?_, ?_, ?_, ?_⟩
  · rw [hlog]
    exact List.mem_cons_self
  · rw [hlog]
    simp
  · rw [hlog]
    simp
  -- the first batch was sent with key 9, the value was taken for key 97
  · rintro ⟨ks, value, info, hsent, hkey, -⟩
    unfold Request.Sent at hsent
    simp only [hlog, List.mem_cons, RedisEvent.issue.injEq, List.not_mem_nil, or_false, reduceCtorEq,
      and_true, true_and, zero_ne_one, false_and] at hsent
    rw [hsent] at hkey
    exact absurd hkey (by decide)

end Graphize
