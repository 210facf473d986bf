import Graphize.Proof.RedisStep

/-!
# The threads of a request

Thread `0` is `do_service`, the others are callbacks. Whichever finds the last batch
done goes through `finishOps`; what is left of them is always at the front of the thread.
`Threaded.step`: every step keeps this picture, and with it the order of the finishing
step and who is left to set the promise.
-/

namespace Graphize

/-- What `do_service` does in its loop. -/
def Op.isMain : Op → Bool
  | .fetchInfo _ => true
  | .issue _ _ _ => true
  | .itemDone _ sendRpc => !sendRpc
  | .condDone sendRpc => !sendRpc
  | _ => false

/-- What a finisher has to do before it can be sure that the promise is set. -/
def waitOp (sendRpc : Bool) : Op := if sendRpc then .wait else .parseCachedData

/-- `f` is what is left of the finishing operations, in a request whose promise is `p`. -/
structure Finishing (p : Option Bool) (sendRpc : Bool) (f : List Op) : Prop where
  suffix : f <:+ finishOps p sendRpc
  waits : p = some false → f = [] ∨ waitOp sendRpc ∈ f
  parses : .parseCachedData ∈ f → p = some false

/-- The shapes of thread `0`. -/
inductive MainThread (p : Option Bool) : List Op → Prop
  | loop {f m e} (hf : Finishing p false f) (hm : ∀ op ∈ m, op.isMain = true)
      (he : e = [.cachedTail] ∨ (e = [] ∧ p ≠ some false)) : MainThread p (f ++ (m ++ e))
  | tail (hp : p = some false) : MainThread p [.parseCachedData]

/-- The shapes of the other threads. -/
inductive CallbackThread (p : Option Bool) : List Op → Prop
  | callback {j i step key} : CallbackThread p [.callback j i step key, .itemDone j true, .endTry j]
  | rest {f c e} (hf : Finishing p true f) (hc : c = [] ∨ c = [.condDone true] ∨ ∃ j, c = [.itemDone j true])
      (he : e = [] ∨ ∃ j, e = [.endTry j]) : CallbackThread p (f ++ (c ++ e))

/-- The threads of a request. -/
structure Threaded (s : Serving) : Prop where
  main : ∃ ops, s.request.threads[0]? = some ops ∧ MainThread s.request.promise ops
  parsed : s.request.promise = some true → s.request.threads[0]? = some [] ∨ s.request.cond ≤ 0
  callbacks : ∀ t ops, s.request.threads[t + 1]? = some ops → CallbackThread s.request.promise ops

/-! ## The finishing operations -/

section Finishing

variable {p : Option Bool} {sendRpc : Bool} {op : Op} {f rest : List Op}

theorem finishing_nil (p : Option Bool) (sendRpc : Bool) : Finishing p sendRpc [] :=
  ⟨List.nil_suffix, fun _ => Or.inl rfl, by simp⟩

theorem finishing_finishOps (hp : sendRpc = true ∨ p ≠ some true) : Finishing p sendRpc (finishOps p sendRpc) := by
  refine ⟨List.suffix_refl _, ?_, ?_⟩
  · rintro rfl
    cases sendRpc <;> exact Or.inr (by decide)
  · intro h
    rcases p with _ | _ | _
    · cases sendRpc <;> simp [finishOps] at h
    · rfl
    · rcases hp with rfl | hp
      · simp [finishOps] at h
      · exact absurd rfl hp

/-- What is left after each of them. -/
theorem Finishing.cons (h : Finishing p sendRpc (op :: f)) :
    (op = .mergeCacheData ∧ (.parseCachedData ∈ f → sendRpc = false)) ∨
    (op = .parseCachedData ∧ p = some false ∧ sendRpc = false ∧ f = [.wait, .processResponse, .runOutputNodes]) ∨
    (op = .wait ∧ f = [.processResponse, .runOutputNodes]) ∨
    (op = .processResponse ∧ f = [.runOutputNodes]) ∨ (op = .runOutputNodes ∧ f = []) := by
  have hs := h.suffix
  have hp := h.parses
  unfold finishOps at hs
  cases p with
  | none =>
    simp [List.suffix_cons_iff] at hs
    grind
  | some done =>
    cases sendRpc <;> simp [List.suffix_cons_iff] at hs <;> grind

/-- A finisher still has to run the output nodes. -/
theorem Finishing.output (h : Finishing p sendRpc (op :: f)) : .runOutputNodes ∈ op :: f := by
  have hs := h.suffix
  unfold finishOps at hs
  cases p with
  | none =>
    simp [List.suffix_cons_iff] at hs
    grind
  | some done =>
    cases sendRpc <;> simp [List.suffix_cons_iff] at hs <;> grind

theorem Finishing.tail_suffix (h : Finishing p sendRpc (op :: f)) : f <:+ finishOps p sendRpc :=
  (List.suffix_cons op f).trans h.suffix

theorem Finishing.parse (h : Finishing p sendRpc (.parseCachedData :: f)) : Finishing (some true) sendRpc f := by
  obtain ⟨hne, -⟩ | ⟨-, hp, hb, hf⟩ | ⟨hne, -⟩ | ⟨hne, -⟩ | ⟨hne, -⟩ := h.cons
  any_goals exact absurd hne (by decide)
  subst hp hb hf
  exact ⟨h.tail_suffix, by simp, by simp⟩

theorem Finishing.wait (h : Finishing p sendRpc (.wait :: f)) (hp : p ≠ some false) : Finishing p sendRpc f := by
  refine ⟨h.tail_suffix, fun h' => absurd h' hp, fun hparse => h.parses (List.mem_cons_of_mem _ hparse)⟩

/-- The other ones do not concern the promise. -/
theorem Finishing.other (h : Finishing p sendRpc (op :: f)) (hparse : op ≠ .parseCachedData) (hwait : op ≠ .wait) :
    Finishing p sendRpc f := by
  refine ⟨h.tail_suffix, fun hp => Or.inr ?_, fun hparse => h.parses (List.mem_cons_of_mem _ hparse)⟩
  rcases List.mem_cons.1 ((h.waits hp).resolve_left (List.cons_ne_nil _ _)) with hop | hop
  · cases sendRpc
    · exact absurd hop.symm hparse
    · exact absurd hop.symm hwait
  · exact hop

/-- A callback thread does not set the promise, but it may see it set. -/
theorem Finishing.promise_set (h : Finishing (some false) true f) : Finishing (some true) true f := by
  refine ⟨h.suffix, by simp, fun hparse => ?_⟩
  have := h.suffix.subset hparse
  simp [finishOps] at this

end Finishing

/-! ## One step of a thread -/

section Steps

variable {ρ : Type*} {env : RedisEnv ρ} {s s' : Serving} {p : Option Bool} {t : ℕ} {op : Op} {rest : List Op}

theorem Act.promise (h : Act env s t rest op s') :
    s'.request.promise = s.request.promise ∨ (op = .parseCachedData ∧ s'.request.promise = some true) := by
  cases h with
  | parseCached => exact Or.inr ⟨rfl, rfl⟩
  | _ => exact Or.inl rfl

/-- How thread `0` begins. -/
theorem MainThread.cons (h : MainThread p (op :: rest)) :
    (op = .parseCachedData ∧ rest = [] ∧ p = some false) ∨
    ∃ f m e, (∀ op ∈ m, op.isMain = true) ∧ (e = [.cachedTail] ∨ (e = [] ∧ p ≠ some false)) ∧
      ((f = [] ∧ op.isMain = true ∧ rest = m ++ e) ∨ (f = [] ∧ op = .cachedTail ∧ rest = []) ∨
        (Finishing p false (op :: f) ∧ rest = f ++ (m ++ e))) := by
  generalize hops : op :: rest = ops at h
  cases h with
  | tail hp => simp only [List.cons.injEq] at hops; exact Or.inl ⟨hops.1, hops.2, hp⟩
  | @loop f m e hf hm he =>
    right
    cases f with
    | cons x f =>
      simp only [List.cons_append, List.cons.injEq] at hops
      obtain ⟨rfl, rfl⟩ := hops
      exact ⟨f, m, e, hm, he, Or.inr (Or.inr ⟨hf, rfl⟩)⟩
    | nil =>
      cases m with
      | cons x m =>
        simp only [List.nil_append, List.cons_append, List.cons.injEq] at hops
        obtain ⟨rfl, rfl⟩ := hops
        exact ⟨[], m, e, fun op hop => hm op (List.mem_cons_of_mem _ hop), he,
          Or.inl ⟨rfl, hm _ List.mem_cons_self, rfl⟩⟩
      | nil =>
        rcases he with rfl | ⟨rfl, -⟩
        · simp only [List.nil_append, List.cons.injEq] at hops
          exact ⟨[], [], _, by simp, Or.inl rfl, Or.inr (Or.inl ⟨rfl, hops.1, hops.2⟩)⟩
        · simp at hops

theorem mainThread_loop {m e push : List Op} (hm : ∀ op ∈ m, op.isMain = true)
    (he : e = [.cachedTail] ∨ (e = [] ∧ p ≠ some false)) (hpush : ∀ op ∈ push, op.isMain = true) :
    MainThread p (push ++ (m ++ e)) := by
  have : MainThread p ([] ++ ((push ++ m) ++ e)) := .loop (finishing_nil p false)
    (fun op hop => (List.mem_append.1 hop).elim (hpush op) (hm op)) he
  simpa using this

/-- **A step of thread `0`.** -/
theorem MainThread.step (h : MainThread s.request.promise (op :: rest)) (hact : Act env s t rest op s')
    (hs : s.request.promise = some false ↔ s.request.cacheDataVec ≠ [])
    (hparsed : s.request.promise = some true → s.request.cond ≤ 0) :
    ∃ ops new, s'.request.threads = s.request.threads.set t ops ++ new ∧ MainThread s'.request.promise ops ∧
      ∀ x ∈ new, CallbackThread s'.request.promise x := by
  have hkeep : ∀ {m e : List Op}, (∀ op ∈ m, op.isMain = true) →
      (e = [.cachedTail] ∨ (e = [] ∧ s.request.promise ≠ some false)) → ∀ push,
      (∀ op ∈ push, op.isMain = true) → MainThread s.request.promise (push ++ (m ++ e)) :=
    fun hm he push => mainThread_loop hm he
  have hnew : ∀ p, ∀ x ∈ ([] : List (List Op)), CallbackThread p x := by simp
  -- at the parse of the cached values, in the loop, at its tail, or finishing
  rcases h.cons with ⟨rfl, rfl, hp⟩ | ⟨f, m, e, hm, he, ⟨rfl, hop, rfl⟩ | ⟨rfl, rfl, rfl⟩ | ⟨hf, rfl⟩⟩
  · cases hact
    exact ⟨_, _, rfl, .loop (f := []) (m := []) (finishing_nil _ _) (by simp) (Or.inr ⟨rfl, by simp⟩), hnew _⟩
  · cases hact with
    | skipInfo => exact ⟨_, _, rfl, hkeep hm he [_] (by simp [Op.isMain]), hnew _⟩
    | openInfo => exact ⟨_, _, rfl, hkeep hm he [_] (by simp [Op.isMain]), hnew _⟩
    | roundsEnd => exact ⟨_, _, rfl, hkeep hm he [] (by simp), hnew _⟩
    | accept => exact ⟨_, _, rfl, hkeep hm he [_] (by simp [Op.isMain]), by simpa using .callback⟩
    | refuse => exact ⟨_, _, rfl, hkeep hm he [_, _] (by simp [Op.isMain]), hnew _⟩
    | itemDone => exact ⟨_, _, rfl, hkeep hm he [] (by simp), hnew _⟩
    | lastItemDone => exact ⟨_, _, rfl, hkeep hm he [_] (by simpa [Op.isMain] using hop), hnew _⟩
    | condDone => exact ⟨_, _, rfl, hkeep hm he [] (by simp), hnew _⟩
    | @lastCondDone sendRpc hc =>
      obtain rfl : sendRpc = false := by simpa [Op.isMain] using hop
      -- `parse_cached_data` has not run before: the last decrement is only now
      have hp : s.request.promise ≠ some true := fun hp => by have := hparsed hp; omega
      exact ⟨_, _, rfl, .loop (finishing_finishOps (Or.inr hp)) hm he, hnew _⟩
    | _ => simp [Op.isMain] at hop
  · cases hact
    refine ⟨_, _, rfl, ?_, hnew _⟩
    by_cases hc : s.request.cacheDataVec = []
    · have hp : s.request.promise ≠ some false := fun hp => hs.1 hp hc
      simp only [if_pos hc]
      exact hkeep (m := []) (by simp) (Or.inr ⟨rfl, hp⟩) [] (by simp)
    · simp only [if_neg hc]
      exact .tail (hs.2 hc)
  · cases hact with
    | merge => exact ⟨_, _, rfl, .loop (hf.other (by simp) (by simp)) hm he, hnew _⟩
    | parseCached =>
      exact ⟨_, _, rfl, .loop hf.parse hm (he.imp id fun h => ⟨h.1, by simp⟩), hnew _⟩
    | wait hp => exact ⟨_, _, rfl, .loop (hf.wait hp) hm he, hnew _⟩
    | process => exact ⟨_, _, rfl, .loop (hf.other (by simp) (by simp)) hm he, hnew _⟩
    | output => exact ⟨_, _, rfl, .loop (hf.other (by simp) (by simp)) hm he, hnew _⟩
    | _ => rcases hf.cons with h | h | h | h | h <;> cases h.1

/-- How another thread begins. -/
theorem CallbackThread.cons (h : CallbackThread p (op :: rest)) :
    (∃ j i step key, op = .callback j i step key ∧ rest = [.itemDone j true, .endTry j]) ∨
    ∃ f e, (e = [] ∨ ∃ j, e = [.endTry j]) ∧
      ((f = [] ∧ (op = .condDone true ∨ (∃ j, op = .itemDone j true) ∨ ∃ j, op = .endTry j) ∧
          (rest = e ∨ rest = [])) ∨
        ∃ c, (c = [] ∨ c = [.condDone true] ∨ ∃ j, c = [.itemDone j true]) ∧ Finishing p true (op :: f) ∧
          rest = f ++ (c ++ e)) := by
  generalize hops : op :: rest = ops at h
  cases h with
  | @callback j i step key =>
    simp only [List.cons.injEq] at hops
    exact Or.inl ⟨j, i, step, key, hops.1, hops.2⟩
  | @rest f c e hf hc he =>
    right
    cases f with
    | cons x f =>
      simp only [List.cons_append, List.cons.injEq] at hops
      obtain ⟨rfl, rfl⟩ := hops
      exact ⟨f, e, he, Or.inr ⟨c, hc, hf, rfl⟩⟩
    | nil =>
      refine ⟨[], e, he, Or.inl ⟨rfl, ?_⟩⟩
      rcases hc with rfl | rfl | ⟨j, rfl⟩
      · rcases he with rfl | ⟨j, rfl⟩
        · simp at hops
        · simp only [List.nil_append, List.cons.injEq] at hops
          exact ⟨Or.inr (Or.inr ⟨j, hops.1⟩), Or.inr hops.2⟩
      · simp only [List.nil_append, List.cons_append, List.cons.injEq] at hops
        exact ⟨Or.inl hops.1, Or.inl hops.2⟩
      · simp only [List.nil_append, List.cons_append, List.cons.injEq] at hops
        exact ⟨Or.inr (Or.inl ⟨j, hops.1⟩), Or.inl hops.2⟩

/-- **A step of a callback.** -/
theorem CallbackThread.step (h : CallbackThread s.request.promise (op :: rest)) (hact : Act env s t rest op s') :
    op ≠ .parseCachedData ∧
    ∃ ops, s'.request.threads = s.request.threads.set t ops ∧ CallbackThread s.request.promise ops := by
  have hrest : ∀ {e : List Op}, (e = [] ∨ ∃ j, e = [.endTry j]) → ∀ c,
      (c = [] ∨ c = [.condDone true] ∨ ∃ j, c = [.itemDone j true]) →
      CallbackThread s.request.promise (c ++ e) :=
    fun he c hc => .rest (finishing_nil _ _) hc he
  -- at the callback itself, at a completion, or finishing
  rcases h.cons with ⟨j, i, step, key, rfl, rfl⟩ | ⟨f, e, he, ⟨rfl, hop, hr⟩ | ⟨c, hc, hf, rfl⟩⟩
  · refine ⟨by simp, ?_⟩
    cases hact with
    | callback _ _ _ _ _ htail =>
      refine ⟨_, List.append_nil _, hrest (htail.symm.imp id fun h => ⟨j, h⟩) [_] (Or.inr (Or.inr ⟨j, rfl⟩))⟩
  · have he' : rest = [] ∨ ∃ j, rest = [.endTry j] := by
      rcases hr with rfl | rfl
      · exact he
      · exact Or.inl rfl
    rcases hop with rfl | ⟨j, rfl⟩ | ⟨j, rfl⟩
    · refine ⟨by simp, ?_⟩
      cases hact with
      | condDone => exact ⟨_, List.append_nil _, hrest he' [] (Or.inl rfl)⟩
      | lastCondDone =>
        exact ⟨_, List.append_nil _, .rest (c := []) (finishing_finishOps (Or.inl rfl)) (Or.inl rfl) he'⟩
    · refine ⟨by simp, ?_⟩
      cases hact with
      | itemDone => exact ⟨_, List.append_nil _, hrest he' [] (Or.inl rfl)⟩
      | lastItemDone => exact ⟨_, List.append_nil _, hrest he' [_] (Or.inr (Or.inl rfl))⟩
    · refine ⟨by simp, ?_⟩
      cases hact
      exact ⟨_, List.append_nil _, hrest he' [] (Or.inl rfl)⟩
  · rcases hf.cons with ⟨rfl, -⟩ | ⟨-, -, hb, -⟩ | ⟨rfl, -⟩ | ⟨rfl, -⟩ | ⟨rfl, -⟩
    · refine ⟨by simp, ?_⟩
      cases hact
      exact ⟨_, List.append_nil _, .rest (hf.other (by simp) (by simp)) hc he⟩
    · simp at hb
    · refine ⟨by simp, ?_⟩
      cases hact with
      | wait hp => exact ⟨_, List.append_nil _, .rest (hf.wait hp) hc he⟩
    · refine ⟨by simp, ?_⟩
      cases hact
      exact ⟨_, List.append_nil _, .rest (hf.other (by simp) (by simp)) hc he⟩
    · refine ⟨by simp, ?_⟩
      cases hact
      exact ⟨_, List.append_nil _, .rest (hf.other (by simp) (by simp)) hc he⟩

/-! ## All threads -/

theorem Act.cond_le (h : Act env s t rest op s') : s'.request.cond ≤ s.request.cond := by
  cases h with
  | condDone => simp
  | lastCondDone hc => simp [hc]
  | _ => exact le_rfl

theorem MainThread.parses (h : MainThread p (.parseCachedData :: rest)) :
    p = some false ∧ (rest = [] ∨ .runOutputNodes ∈ rest) := by
  rcases h.cons with ⟨-, hr, hp⟩ | ⟨f, m, e, -, -, ⟨-, hop, -⟩ | ⟨-, hop, -⟩ | ⟨hf, rfl⟩⟩
  · exact ⟨hp, Or.inl hr⟩
  · simp [Op.isMain] at hop
  · simp at hop
  · refine ⟨hf.parses List.mem_cons_self, Or.inr (List.mem_append_left _ ?_)⟩
    exact (List.mem_cons.1 hf.output).resolve_left (by simp)

theorem CallbackThread.promise_set {ops : List Op} (h : CallbackThread (some false) ops) :
    CallbackThread (some true) ops := by
  cases h with
  | callback => exact .callback
  | rest hf hc he => exact .rest hf.promise_set hc he

/-- **Every step keeps the picture.** -/
theorem Threaded.step (hth : Threaded s) (hs : Shape env s) (ht : s.request.threads[t]? = some (op :: rest))
    (hact : Act env s t rest op s') (hfin : 0 < s.request.cond → ∀ ops ∈ s.request.threads, .runOutputNodes ∉ ops) :
    Threaded s' := by
  have hle := hact.cond_le
  obtain ⟨ops₀, h0, hmain⟩ := hth.main
  cases t with
  | zero =>
    obtain rfl : ops₀ = op :: rest := Option.some.inj (h0.symm.trans ht)
    have hcond : s.request.promise = some true → s.request.cond ≤ 0 := fun hp =>
      (hth.parsed hp).resolve_left (by rw [ht]; simp)
    obtain ⟨ops, new, hths, hops, hnew⟩ := hmain.step hact hs.promise hcond
    refine ⟨⟨ops, ?_, hops⟩, ?_, ?_⟩
    · rw [hths, Threads.getElem?_self ht]
    · intro hp
      -- the promise was set before, or by this step, at the end of the thread or with the output still ahead
      rcases hact.promise with hsame | ⟨rfl, -⟩
      · exact Or.inr (le_trans hle (hcond (hsame ▸ hp)))
      · rcases hmain.parses.2 with rfl | hout
        · cases hact
          exact Or.inl (Threads.getElem?_self ht)
        · right
          by_contra hpos
          exact hfin (by omega) _ (List.mem_of_getElem? ht) (List.mem_cons_of_mem _ hout)
    · intro u x hx
      rw [hths] at hx
      rcases Threads.getElem?_set_append hx with ⟨h, -⟩ | ⟨-, hx⟩ | hx
      · exact absurd h (by omega)
      · have hcb := hth.callbacks u x hx
        rcases hact.promise with hsame | ⟨rfl, hsome⟩
        · rwa [hsame]
        · rw [hmain.parses.1] at hcb
          rw [hsome]
          exact hcb.promise_set
      · exact hnew x hx
  | succ t =>
    obtain ⟨hne, ops, hths, hops⟩ := (hth.callbacks t _ ht).step hact
    have hsame : s'.request.promise = s.request.promise := hact.promise.resolve_right fun h => hne h.1
    have h0' : s'.request.threads[0]? = some ops₀ := by
      rw [hths, List.getElem?_set_ne (by omega), h0]
    refine ⟨⟨ops₀, h0', by rwa [hsame]⟩, ?_, ?_⟩
    · intro hp
      rcases hth.parsed (hsame ▸ hp) with h | h
      · exact Or.inl (by rw [h0', ← h0, h])
      · exact Or.inr (le_trans hle h)
    · intro u x hx
      rw [hsame]
      rw [hths, ← List.append_nil (s.request.threads.set (t + 1) ops)] at hx
      rcases Threads.getElem?_set_append hx with ⟨-, rfl⟩ | ⟨-, hx⟩ | hx
      · exact hops
      · exact hth.callbacks u x hx
      · simp at hx

/-- Only thread `0` parses the cached values. -/
theorem Threaded.parses (hth : Threaded s) (ht : s.request.threads[t]? = some (.parseCachedData :: rest)) :
    t = 0 ∧ s.request.promise = some false := by
  cases t with
  | zero =>
    obtain ⟨ops, h0, hmain⟩ := hth.main
    obtain rfl := Option.some.inj (h0.symm.trans ht)
    exact ⟨rfl, hmain.parses.1⟩
  | succ t =>
    rcases (hth.callbacks t _ ht).cons with ⟨j, i, step, key, h, -⟩ | ⟨f, e, -, ⟨-, hcb, -⟩ | ⟨c, -, hf, -⟩⟩
    · cases h
    · rcases hcb with h | ⟨j, h⟩ | ⟨j, h⟩ <;> cases h
    · rcases hf.cons with h | h | h | h | h
      any_goals cases h.1
      cases h.2.2.1

end Steps

end Graphize
