import Graphize.Proof.RedisEvents
import Graphize.Lib.Threads

/-!
# What a step does to its request

Nothing is assumed here either: the user's functions may throw, and the fetch infos are
whatever other requests have made of them. `OpEffect` lists what an operation can do to the
threads and to the result items; `step_opEffect`: every step is an effect, or it ends the
process.
-/

namespace Graphize

open Threads

/-- Operations that neither send nor fill nor merge anything. -/
def Op.isPlain : Op → Bool
  | .fetchInfo _ => false
  | .issue _ _ _ => false
  | .callback _ _ _ _ => false
  | .mergeCacheData => false
  | _ => true

section

variable {ρ : Type*} (env : RedisEnv ρ)

/-- What an operation puts in front of its thread, the threads it starts, and the result
items afterwards. -/
inductive OpEffect (s : Serving) : Op → List Op → List (List Op) → List (List RedisResultItem) → Prop
  | opened {j n step} (hstep : 0 < step) :
      OpEffect s (.fetchInfo j) [.issue j 0 step] [] (s.request.resultMap.set j (List.replicate n {}))
  | accepted {j i step key info} (hinfo : s.node.fetchInfoVec[j]? = some info) (hkey : info.keys[i]? = some key)
      (hacc : s.request.backend.accepts j i = true) :
      OpEffect s (.issue j i step) [.issue j (i + step) step] [[.callback j i step key, .itemDone j true, .endTry j]]
        s.request.resultMap
  | refused {j i step} :
      OpEffect s (.issue j i step) [.itemDone j false, .issue j (i + step) step] [] s.request.resultMap
  | filled {j i step key info items item item'} (hinfo : s.node.fetchInfoVec[j]? = some info)
      (hitems : s.request.resultMap[j]? = some items) (hitem : items[i / step]? = some item)
      (hfill : fillItem info j i step key (s.request.backend.reply j i) item = .ok item') :
      OpEffect s (.callback j i step key) [] [] (s.request.resultMap.set j (items.set (i / step) item'))
  | finished {sendRpc} (hc : s.request.cond = 1) :
      OpEffect s (.condDone sendRpc) (finishOps s.request.promise sendRpc) [] s.request.resultMap
  | plain {op push} (hpush : ∀ op' ∈ push, op'.isPlain = true) : OpEffect s op push [] s.request.resultMap

/-- What an operation leaves alone. -/
structure OpFrame (s s' : Serving) : Prop where
  vec : s'.node.fetchInfoVec = s.node.fetchInfoVec
  backend : s'.request.backend = s.request.backend
  cond : s'.request.cond ≤ s.request.cond

/-- The outcome of an operation: an effect with which the thread goes on or throws, or
undefined behaviour. -/
inductive OpEnds (s : Serving) (op : Op) : Outcome → Prop
  | next {s' push new} (he : OpEffect s op push new s'.request.resultMap) (hk : OpFrame s s')
      (hths : s'.request.threads = s.request.threads ++ new) : OpEnds s op (.next s' push)
  | throw {s'} (he : OpEffect s op [] [] s'.request.resultMap) (hk : OpFrame s s')
      (hths : s'.request.threads = s.request.threads) : OpEnds s op (.throw s')
  | fault {s' f} (hk : OpFrame s s') : OpEnds s op (.fault s' f)

variable {env} {s s' : Serving} {t : ℕ} {op : Op}

theorem ends_plain {push : List Op} (hpush : ∀ op' ∈ push, op'.isPlain = true)
    (hmap : s'.request.resultMap = s.request.resultMap) (hk : OpFrame s s')
    (hths : s'.request.threads = s.request.threads) : OpEnds s op (.next s' push) := by
  have he : OpEffect s op push [] s'.request.resultMap := by
    rw [hmap]
    exact .plain hpush
  exact .next he hk (by rw [hths, List.append_nil])

theorem ends_throw (hmap : s'.request.resultMap = s.request.resultMap) (hk : OpFrame s s')
    (hths : s'.request.threads = s.request.threads) : OpEnds s op (.throw s') := by
  refine .throw ?_ hk hths
  rw [hmap]
  exact .plain (by simp)

theorem ends_fetchInfo (j : ℕ) : OpEnds s (.fetchInfo j) (execFetchInfo env s j) := by
  have hends := fetchInfo_ends env s j
  generalize execFetchInfo env s j = o at hends
  cases hends with
  | outOfRange => exact .fault ⟨rfl, rfl, le_rfl⟩
  | skipped => exact ends_plain (by simp [Op.isPlain]) rfl ⟨rfl, rfl, le_rfl⟩ rfl
  | divByZero => exact .fault ⟨rfl, rfl, le_rfl⟩
  | @opened info hinfo hact hb =>
    exact .next (.opened (info.step_pos hb hact.keys)) ⟨rfl, rfl, le_rfl⟩ (List.append_nil _).symm

theorem ends_issue (j i step : ℕ) : OpEnds s (.issue j i step) (execIssue s j i step) := by
  unfold execIssue
  cases hinfo : s.node.fetchInfoVec[j]? with
  | none => exact .fault ⟨rfl, rfl, le_rfl⟩
  | some info =>
    cases hkey : info.keys[i]? with
    | none =>
      simp only [hkey]
      exact ends_plain (by simp) rfl ⟨rfl, rfl, le_rfl⟩ rfl
    | some key =>
      simp only [hkey]
      by_cases hacc : s.request.backend.accepts j i = true
      · rw [if_pos hacc]
        exact .next (.accepted hinfo hkey hacc) ⟨rfl, rfl, le_rfl⟩ rfl
      · rw [if_neg hacc]
        exact .next .refused ⟨rfl, rfl, le_rfl⟩ (List.append_nil _).symm

theorem ends_callback (j i step : ℕ) (key : Bytes) :
    OpEnds s (.callback j i step key) (execCallback env s j i step key) := by
  have hends := callback_ends env s j i step key
  generalize execCallback env s j i step key = o at hends
  cases hends with
  | outOfRange => exact .fault ⟨rfl, rfl, le_rfl⟩
  | noItem => exact ends_throw rfl ⟨rfl, rfl, le_rfl⟩ rfl
  | badReply => exact .fault ⟨rfl, rfl, le_rfl⟩
  | @filled info items item item' evs _ hinfo hitems hitem hfill hevs hall ho =>
    have he : OpEffect s (.callback j i step key) [] []
        (s.request.resultMap.set j (items.set (i / step) item')) := .filled hinfo hitems hitem hfill
    rcases ho with rfl | rfl
    · exact .next he ⟨rfl, rfl, le_rfl⟩ (List.append_nil _).symm
    · exact .throw he ⟨rfl, rfl, le_rfl⟩ rfl

theorem ends_merge : OpEnds s .mergeCacheData (execMerge env s) := by
  unfold execMerge
  rcases mergeMap s.node.fetchInfoVec s.request.resultMap
    (env.resultOrder (List.range s.request.resultMap.length)) (s.node.cache, s.request.log) with
    ⟨⟨cache, log⟩, e⟩
  cases e with
  | ok => exact ends_plain (by simp) rfl ⟨rfl, rfl, le_rfl⟩ rfl
  | throw => exact ends_throw rfl ⟨rfl, rfl, le_rfl⟩ rfl
  | nullDeref => exact .fault ⟨rfl, rfl, le_rfl⟩

theorem ends_parseCached : OpEnds s .parseCachedData (execParseCached env s) := by
  unfold execParseCached
  simp only
  split
  · exact ends_throw rfl ⟨rfl, rfl, le_rfl⟩ rfl
  · split
    · exact .fault ⟨rfl, rfl, le_rfl⟩
    · exact ends_plain (by simp) rfl ⟨rfl, rfl, le_rfl⟩ rfl

/-- **Every operation has an effect.** -/
theorem exec_ends (op : Op) (s : Serving) : OpEnds s op (op.exec env s) := by
  cases op with
  | fetchInfo j => exact ends_fetchInfo j
  | issue j i step => exact ends_issue j i step
  | callback j i step key => exact ends_callback j i step key
  | endTry j => exact ends_plain (by simp) rfl ⟨rfl, rfl, le_rfl⟩ rfl
  | itemDone j sendRpc =>
    refine ends_plain (fun op' h => ?_) rfl ⟨rfl, rfl, le_rfl⟩ rfl
    split at h
    · rw [List.mem_singleton.1 h]
      rfl
    · simp at h
  | condDone sendRpc =>
    have hk : OpFrame s (s.setCond (s.request.cond - 1)) := ⟨rfl, rfl, Int.sub_le_self _ Int.one_nonneg⟩
    show OpEnds s _ (.next _ (if s.request.cond = 1 then finishOps s.request.promise sendRpc else []))
    by_cases hc : s.request.cond = 1
    · rw [if_pos hc]
      exact .next (.finished hc) hk (List.append_nil _).symm
    · rw [if_neg hc]
      exact ends_plain (by simp) rfl hk rfl
  | mergeCacheData => exact ends_merge
  | parseCachedData => exact ends_parseCached
  | wait => exact ends_plain (by simp) rfl ⟨rfl, rfl, le_rfl⟩ rfl
  | processResponse =>
    show OpEnds s _ (if env.processThrows s.request.log then .throw (s.addLog [.process])
      else .next (s.addLog [.process]) [])
    split
    · exact ends_throw rfl ⟨rfl, rfl, le_rfl⟩ rfl
    · exact ends_plain (by simp) rfl ⟨rfl, rfl, le_rfl⟩ rfl
  | runOutputNodes => exact ends_plain (by simp) rfl ⟨rfl, rfl, le_rfl⟩ rfl
  | cachedTail =>
    refine ends_plain (fun op' h => ?_) rfl ⟨rfl, rfl, le_rfl⟩ rfl
    split at h
    · simp at h
    · rw [List.mem_singleton.1 h]
      rfl

/-! ## The step -/

/-- An exception leaves a completion and a part of the thread. -/
theorem unwind_eq {ops ops' : List Op} (h : unwind ops = some ops') :
    ∃ j rest, ops' = .itemDone j true :: rest ∧ rest <:+ ops := by
  induction ops with
  | nil => simp [unwind] at h
  | cons op ops ih =>
    have hskip : unwind ops = some ops' → ∃ j rest, ops' = .itemDone j true :: rest ∧ rest <:+ op :: ops := by
      intro h
      obtain ⟨j, rest, heq, hsuffix⟩ := ih h
      exact ⟨j, rest, heq, hsuffix.trans (List.suffix_cons op ops)⟩
    cases op with
    | endTry j => exact ⟨j, ops, (Option.some.inj h).symm, List.suffix_cons _ _⟩
    | _ => exact hskip h

/-- What is in front of a thread after one of its operations: what the operation has put
there, or the completion of the handler. -/
def OpFront (push front : List Op) : Prop := front = push ∨ ∀ op ∈ front, op.isPlain = true

/-- **A step is an effect of its operation**, or it ends the process. -/
theorem step_opEffect (h : s.step env t = some s') : OpFrame s s' ∧ ∃ op rest,
    s.request.threads[t]? = some (op :: rest) ∧ (s'.request.crash = none → ∃ push new front back,
      OpEffect s op push new s'.request.resultMap ∧ OpFront push front ∧ back <:+ rest ∧
        s'.request.threads = s.request.threads.set t (front ++ back) ++ new) := by
  unfold Serving.step at h
  split at h
  · simp at h
  · split at h
    · simp at h
    · simp at h
    · rename_i op rest ht
      simp only [Option.ite_none_left_eq_some, Option.some.injEq] at h
      obtain ⟨-, rfl⟩ := h
      have hlt : t < s.request.threads.length := (List.getElem?_eq_some_iff.1 ht).1
      have he : OpEnds s op (op.exec env s) := exec_ends op s
      generalize op.exec env s = o at he
      cases he with
      | @next u push new he hk hths =>
        refine ⟨⟨hk.vec, hk.backend, hk.cond⟩, op, rest, ht, fun _ => ⟨push, new, push, rest, he, .inl rfl,
          List.suffix_refl _, ?_⟩⟩
        show u.request.threads.set t (push ++ rest) = _
        rw [hths, List.set_append_left _ _ hlt]
      | @throw u he hk hths =>
        unfold Outcome.finish
        cases hun : unwind rest with
        | none => exact ⟨⟨hk.vec, hk.backend, hk.cond⟩, op, rest, ht, by simp⟩
        | some ops =>
          obtain ⟨j, back, rfl, hback⟩ := unwind_eq hun
          refine ⟨⟨hk.vec, hk.backend, hk.cond⟩, op, rest, ht, fun _ => ⟨[], [], [.itemDone j true], back, he,
            .inr (by simp [Op.isPlain]), hback, ?_⟩⟩
          show u.request.threads.set t _ = _
          rw [hths, List.append_nil]
          rfl
      | fault hk => exact ⟨⟨hk.vec, hk.backend, hk.cond⟩, op, rest, ht, by simp [Outcome.finish]⟩

end

end Graphize
