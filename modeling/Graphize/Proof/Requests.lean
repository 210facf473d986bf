import Graphize.Proof.Runs

/-!
# Runs compute the sequential evaluation

When every node reads only the contexts of its ancestors and its own, the contexts at
the end of a run are those of evaluating the nodes one after the other.

* `Settled`: in every state, the context of each node is what the sequential evaluation
  gives it at the point its own work has reached.
* `request_evalSeq`: every request of a process that serves any number of requests at
  once ends with the contexts of its own sequential evaluation.
-/

namespace Graphize

open EdgeList Dispatch

variable {ρ C : Type*} {g : Graph} {h : Heap} {es : List (NodePtr × NodePtr)} {r : NodePtr}
  {B : Behaviour ρ C} {req : ρ} {s s' s₀ : RunState C}

/-- Two context vectors agree on what `n` may read. -/
def Agree (h : Heap) (es : List (NodePtr × NodePtr)) (n : NodePtr) (vec vec' : List (Option C)) : Prop :=
  ∀ m, m = n ∨ Anc es m n → vec[(h m).id]? = vec'[(h m).id]?

/-- The discipline of `GET_OWN_CONTEXT` and `get_const_context`: a node reads the
request, its own context and those of its ancestors. -/
structure Disciplined (g : Graph) (h : Heap) (es : List (NodePtr × NodePtr)) (B : Behaviour ρ C) : Prop where
  skip : ∀ n ∈ g.allNodes, ∀ req vec vec', Agree h es n vec vec' → B.skip n req vec = B.skip n req vec'
  doService : ∀ n ∈ g.allNodes, ∀ req, ∀ f ∈ B.doService n req, ∀ vec vec', Agree h es n vec vec' →
    f vec = f vec'

/-! ## Writes of one node -/

theorem writeVec_ne {vec : List (Option C)} {id i : ℕ} (o : Option C) (hi : id ≠ i) :
    (writeVec vec id o)[i]? = vec[i]? := by
  cases o with
  | none => rfl
  | some c => exact List.getElem?_set_ne hi

theorem writeVec_congr {vec vec' : List (Option C)} {id : ℕ} (o : Option C) (hv : vec[id]? = vec'[id]?) :
    (writeVec vec id o)[id]? = (writeVec vec' id o)[id]? := by
  cases o with
  | none => exact hv
  | some c =>
    unfold writeVec
    rw [List.getElem?_set, List.getElem?_set, if_pos rfl, if_pos rfl]
    by_cases hlt : id < vec.length
    · rw [List.getElem?_eq_getElem hlt] at hv
      rw [if_pos hlt, if_pos (List.getElem?_eq_some_iff.1 hv.symm).1]
    · rw [List.getElem?_eq_none_iff.2 (by omega)] at hv
      rw [if_neg hlt, if_neg (by have := List.getElem?_eq_none_iff.1 hv.symm; omega)]

/-- The contexts after `skip` and the first `k` steps of `do_service` of `n`. -/
def partialNode (h : Heap) (B : Behaviour ρ C) (req : ρ) (vec : List (Option C)) (n : NodePtr) (k : ℕ) :
    List (Option C) :=
  ((B.doService n req).take k).foldl (fun vec f => writeVec vec (h n).id (f vec))
    (writeVec vec (h n).id (B.skip n req vec).2)

theorem evalNode_eq (vec : List (Option C)) (n : NodePtr) :
    evalNode h B req vec n = partialNode h B req vec n
      (if (B.skip n req vec).1 then 0 else (B.doService n req).length) := by
  unfold evalNode partialNode
  simp only
  by_cases hs : (B.skip n req vec).1 = true
  · rw [if_pos hs, if_pos hs]; rfl
  · rw [if_neg hs, if_neg hs, List.take_length]

theorem foldl_writeVec_ne {id i : ℕ} (hi : id ≠ i) :
    ∀ (fs : List (List (Option C) → Option C)) (vec : List (Option C)),
      (fs.foldl (fun vec f => writeVec vec id (f vec)) vec)[i]? = vec[i]? := by
  intro fs
  induction fs with
  | nil => intro vec; rfl
  | cons f fs ih => intro vec; rw [List.foldl_cons, ih, writeVec_ne _ hi]

/-- A node writes only its own context. -/
theorem partialNode_ne (vec : List (Option C)) {n : NodePtr} (k : ℕ) {i : ℕ} (hi : (h n).id ≠ i) :
    (partialNode h B req vec n k)[i]? = vec[i]? := by
  unfold partialNode
  rw [foldl_writeVec_ne hi, writeVec_ne _ hi]

theorem partialNode_succ (vec : List (Option C)) (n : NodePtr) {k : ℕ} {f : List (Option C) → Option C}
    (hf : (B.doService n req)[k]? = some f) :
    partialNode h B req vec n (k + 1) =
      writeVec (partialNode h B req vec n k) (h n).id (f (partialNode h B req vec n k)) := by
  unfold partialNode
  rw [List.take_add_one, hf]
  simp

theorem foldl_evalNode_ne {i : ℕ} : ∀ (l : List NodePtr) (vec : List (Option C)),
    (∀ n ∈ l, (h n).id ≠ i) → (l.foldl (evalNode h B req) vec)[i]? = vec[i]? := by
  intro l
  induction l with
  | nil => intro vec _; rfl
  | cons n l ih =>
    intro vec hl
    rw [List.foldl_cons, ih _ fun m hm => hl m (List.mem_cons_of_mem _ hm), evalNode_eq,
      partialNode_ne _ _ (hl n List.mem_cons_self)]

/-! ## The invariant of a request -/

/-- The sequential evaluation of the nodes before `v` in `order`. -/
def Graph.evalBefore (g : Graph) (h : Heap) (B : Behaviour ρ C) (req : ρ) (order : List NodePtr)
    (v : NodePtr) : List (Option C) :=
  (order.takeWhile (· ≠ v)).foldl (evalNode h B req) (g.createContexts h B)

/-- An evaluation order. -/
structure Order (g : Graph) (es : List (NodePtr × NodePtr)) (order : List NodePtr) : Prop where
  perm : order.Perm g.allNodes
  topo : Topo es order

variable {order : List NodePtr}

/-- Where `v` stands in the order. -/
theorem Order.split (ho : Order g es order) (hnd : g.allNodes.Nodup) {v : NodePtr} (hv : v ∈ g.allNodes) :
    ∃ post, order = order.takeWhile (· ≠ v) ++ v :: post ∧ v ∉ post ∧
      (∀ m ∈ order.takeWhile (· ≠ v), m ∉ post) := by
  obtain ⟨pre, post, hsplit, hpre⟩ := List.eq_append_cons_of_mem (ho.perm.mem_iff.2 hv)
  have htake : order.takeWhile (· ≠ v) = pre := by rw [hsplit, takeWhile_ne hpre]
  have hnd' : (pre ++ v :: post).Nodup := by rw [← hsplit]; exact ho.perm.nodup_iff.2 hnd
  obtain ⟨-, h2, h3⟩ := List.nodup_append.1 hnd'
  refine ⟨post, by rw [htake]; exact hsplit, (List.nodup_cons.1 h2).1, fun m hm hmp => ?_⟩
  rw [htake] at hm
  exact h3 m hm m (List.mem_cons_of_mem _ hmp) rfl

/-- A node's final context is the one its own evaluation leaves. -/
theorem Order.final_own (ho : Order g es order) (hnd : g.allNodes.Nodup) (hid : IdsOK g h) {v : NodePtr}
    (hv : v ∈ g.allNodes) :
    (g.evalSeq h B req order)[(h v).id]? =
      (evalNode h B req (g.evalBefore h B req order v) v)[(h v).id]? := by
  obtain ⟨post, hsplit, hvp, -⟩ := ho.split hnd hv
  have heq : g.evalSeq h B req order =
      post.foldl (evalNode h B req) (evalNode h B req (g.evalBefore h B req order v) v) := by
    unfold Graph.evalSeq Graph.evalBefore
    conv_lhs => rw [hsplit]
    rw [List.foldl_append, List.foldl_cons]
    rfl
  rw [heq]
  refine foldl_evalNode_ne post _ fun n hn he => hvp ?_
  have hn' : n ∈ g.allNodes := ho.perm.mem_iff.1 (by rw [hsplit]; simp [hn])
  rwa [hid.inj n hn' v hv he] at hn

/-- What `v` may read is, just before `v` is evaluated, already final; its own context
is as created. -/
theorem Order.before (ho : Order g es order) (hnd : g.allNodes.Nodup) (hid : IdsOK g h)
    (B : Behaviour ρ C) (req : ρ) {v : NodePtr} (hv : v ∈ g.allNodes) :
    (g.evalBefore h B req order v)[(h v).id]? = (g.createContexts h B)[(h v).id]? ∧
      ∀ m, Anc es m v → m ≠ v ∧ m ∈ g.allNodes ∧
        (g.evalBefore h B req order v)[(h m).id]? = (g.evalSeq h B req order)[(h m).id]? := by
  obtain ⟨post, hsplit, hvp, hpost⟩ := ho.split hnd hv
  have hmem : ∀ n ∈ order, n ∈ g.allNodes := fun n hn => ho.perm.mem_iff.1 hn
  have hvt : v ∉ order.takeWhile (· ≠ v) := by
    intro hm
    simpa using List.mem_takeWhile_imp hm
  constructor
  · refine foldl_evalNode_ne _ _ fun n hn he => hvt ?_
    rwa [hid.inj n (hmem n (List.takeWhile_subset _ hn)) v hv he] at hn
  · intro m hm
    obtain ⟨hmo, hlt⟩ := ho.topo.anc_mem (ho.perm.mem_iff.2 hv) hm
    have hmv : m ≠ v := by rintro rfl; omega
    refine ⟨hmv, hmem m hmo, ?_⟩
    have hpre : m ∈ order.takeWhile (· ≠ v) := by
      rw [hsplit, List.idxOf_append_of_notMem hvt] at hlt
      by_contra hnot
      rw [List.idxOf_append_of_notMem hnot, List.idxOf_cons_self, List.idxOf_cons_ne _ hmv.symm] at hlt
      omega
    have heq : g.evalSeq h B req order =
        (v :: post).foldl (evalNode h B req) (g.evalBefore h B req order v) := by
      unfold Graph.evalSeq Graph.evalBefore
      conv_lhs => rw [hsplit]
      rw [List.foldl_append]
      rfl
    rw [heq, foldl_evalNode_ne]
    intro n hn he
    have hn' : n ∈ g.allNodes := hmem n (by rw [hsplit]; exact List.mem_append_right _ hn)
    have hnm := hid.inj n hn' m (hmem m hmo) he
    subst hnm
    rcases List.mem_cons.1 hn with h1 | h1
    · exact hmv h1
    · exact hpost n hpre h1

/-- What the sequential evaluation says of the context of `v`, by how far `v` is. -/
def SettledAt (g : Graph) (h : Heap) (B : Behaviour ρ C) (req : ρ) (order : List NodePtr)
    (vec : List (Option C)) (v : NodePtr) : Phase Work NodePtr → Prop
  | .running (.service k) => (B.skip v req (g.evalBefore h B req order v)).1 = false ∧
      vec[(h v).id]? = (partialNode h B req (g.evalBefore h B req order v) v k)[(h v).id]?
  | .running .callback => vec[(h v).id]? = (g.evalSeq h B req order)[(h v).id]?
  | .releasing _ _ => vec[(h v).id]? = (g.evalSeq h B req order)[(h v).id]?
  | .done => vec[(h v).id]? = (g.evalSeq h B req order)[(h v).id]?
  | _ => vec[(h v).id]? = (g.createContexts h B)[(h v).id]?

/-- The contexts of a run against the sequential evaluation. -/
structure Settled (g : Graph) (h : Heap) (B : Behaviour ρ C) (req : ρ) (order : List NodePtr)
    (vec : List (Option C)) (ph : NodePtr → Phase Work NodePtr) : Prop where
  node : ∀ v ∈ g.allNodes, SettledAt g h B req order vec v (ph v)
  other : ∀ i, (∀ v ∈ g.allNodes, (h v).id ≠ i) → vec[i]? = (g.createContexts h B)[i]?

variable {vec vec' : List (Option C)} {ph ph' : NodePtr → Phase Work NodePtr}

theorem settledAt_fresh {v : NodePtr} {p : Phase Work NodePtr} (hp : ¬p.Started) :
    SettledAt g h B req order vec v p ↔ vec[(h v).id]? = (g.createContexts h B)[(h v).id]? := by
  cases p with
  | running w => exact absurd trivial hp
  | releasing i l => exact absurd trivial hp
  | done => exact absurd trivial hp
  | waiting => rfl
  | held => rfl
  | queued => rfl

theorem settledAt_served {v : NodePtr} {p : Phase Work NodePtr} (hp : p = .running .callback ∨ p.Released) :
    SettledAt g h B req order vec v p ↔ vec[(h v).id]? = (g.evalSeq h B req order)[(h v).id]? := by
  rcases hp with rfl | hp
  · rfl
  · cases p with
    | releasing i l => rfl
    | done => rfl
    | running w => exact absurd hp id
    | waiting => exact absurd hp id
    | held => exact absurd hp id
    | queued => exact absurd hp id

/-- The context of a node depends on nothing else. -/
theorem SettledAt.congr {v : NodePtr} {p : Phase Work NodePtr} (hs : SettledAt g h B req order vec v p)
    (he : vec'[(h v).id]? = vec[(h v).id]?) : SettledAt g h B req order vec' v p := by
  unfold SettledAt at hs ⊢
  rw [he]
  exact hs

/-- The context of a node whose own work is over is final. -/
theorem SettledAt.final (ho : Order g es order) (hnd : g.allNodes.Nodup) (hid : IdsOK g h) {v : NodePtr}
    (hv : v ∈ g.allNodes) {p : Phase Work NodePtr} (hs : SettledAt g h B req order vec v p)
    (hp : Complete B req v p) : vec[(h v).id]? = (g.evalSeq h B req order)[(h v).id]? := by
  cases p with
  | running w =>
    cases w with
    | service k =>
      obtain ⟨hsk, hvec⟩ := hs
      rw [hvec, ho.final_own hnd hid hv, evalNode_eq, hsk]
      unfold partialNode
      rw [List.take_of_length_le hp]
      simp
    | callback => exact hs
  | releasing i l => exact hs
  | done => exact hs
  | waiting => exact absurd hp id
  | held => exact absurd hp id
  | queued => exact absurd hp id

/-- What a node at work reads is what its sequential evaluation reads. -/
theorem Settled.agree (hset : Settled g h B req order vec ph) (ho : Order g es order)
    (hA : Accepted g h es r) (hid : IdsOK g h) (hi : Dispatch.Inv g.nodes h.outs ph) {u : NodePtr}
    (hu : u ∈ g.allNodes) (hw : ph u ≠ .waiting) {vec' : List (Option C)}
    (hown : vec[(h u).id]? = vec'[(h u).id]?)
    (hother : ∀ i, (h u).id ≠ i → vec'[i]? = (g.evalBefore h B req order u)[i]?) :
    Agree h es u vec vec' := by
  obtain ⟨-, hbef⟩ := ho.before hA.nodup hid B req hu
  rintro m (rfl | hm)
  · exact hown
  · obtain ⟨hmu, hmm, hme⟩ := hbef m hm
    rw [hother _ (fun he => hmu (hid.inj u hu m hmm he).symm), hme]
    have hur := (hA.mem u).1 hu
    -- the ancestors of `u` lie in the graph
    have htrans : Relation.TransGen (fun x y => x ∈ g.nodes ∧ y ∈ g.nodes ∧ y ∈ h.outs x) m u := by
      clear hmu hmm hme hw hown hother hbef
      induction hm with
      | single he =>
        exact .single ⟨mem_nodes.2 ((hA.mem _).2 (hA.accepts.closed _ _ he hur)), mem_nodes.2 hu,
          hA.edge_iff.2 he⟩
      | tail _ he ih =>
        have hb := hA.accepts.closed _ _ he hur
        exact (ih ((hA.mem _).2 hb) hb).tail ⟨mem_nodes.2 ((hA.mem _).2 hb), mem_nodes.2 hu, hA.edge_iff.2 he⟩
    have hrel := hi.released_of_anc htrans hw
    exact (settledAt_served (Or.inr hrel)).1 (hset.node m hmm)

/-- **Every step keeps the contexts settled.** -/
theorem Settled.step (hset : Settled g h B req order vec ph) (hB : Disciplined g h es B)
    (ho : Order g es order) (hA : Accepted g h es r) (hid : IdsOK g h)
    (hi : Dispatch.Inv g.nodes h.outs ph) (he : Effect g h B req ph ph' vec vec') :
    Settled g h B req order vec' ph' := by
  -- a write of `u` leaves the other contexts settled
  have hframe : ∀ {u : NodePtr} {o : Option C}, u ∈ g.allNodes → vec' = writeVec vec (h u).id o →
      (∀ w, w ≠ u → ph' w = ph w) → SettledAt g h B req order vec' u (ph' u) →
      Settled g h B req order vec' ph' := by
    intro u o hu hvec hne hown
    refine ⟨fun v hv => ?_, fun i hi' => ?_⟩
    · by_cases hvu : v = u
      · subst hvu; exact hown
      · rw [hne v hvu]
        refine (hset.node v hv).congr ?_
        rw [hvec, writeVec_ne _ fun heq => hvu (hid.inj u hu v hv heq).symm]
    · rw [hvec, writeVec_ne _ (hi' u hu)]
      exact hset.other i hi'
  cases he with
  | skip u hu hph hne hph' hvec =>
    obtain ⟨hbown, -⟩ := ho.before hA.nodup hid B req hu
    have hfresh := hset.node u hu
    rw [hph] at hfresh
    have hown : vec[(h u).id]? = (g.evalBefore h B req order u)[(h u).id]? := by rw [hbown]; exact hfresh
    have hag := hset.agree ho hA hid hi hu (by rw [hph]; simp) hown (fun _ _ => rfl)
    have hskip := hB.skip u hu req _ _ hag
    refine hframe hu hvec hne ?_
    rw [hph']
    have hwr := writeVec_congr (B.skip u req vec).2 hown
    by_cases hsk : (B.skip u req vec).1 = true
    · rw [if_pos hsk]
      show vec'[(h u).id]? = _
      rw [ho.final_own hA.nodup hid hu, evalNode_eq, ← hskip, if_pos hsk, hvec, hwr]
      unfold partialNode
      rw [← hskip]
      simp
    · rw [if_neg hsk]
      refine ⟨by rw [← hskip]; simpa using hsk, ?_⟩
      rw [hvec, hwr]
      unfold partialNode
      rw [← hskip]
      simp
  | write u k f hu hph hf hne hph' hvec =>
    have hat := hset.node u hu
    rw [hph] at hat
    obtain ⟨hsk, hown⟩ := hat
    have hag := hset.agree ho hA hid hi hu (by rw [hph]; simp) hown
      (fun i hi' => partialNode_ne _ _ hi')
    have hfe := hB.doService u hu req f (List.mem_of_getElem? hf) _ _ hag
    refine hframe hu hvec hne ?_
    rw [hph']
    refine ⟨hsk, ?_⟩
    rw [partialNode_succ _ _ hf, ← hfe, hvec]
    exact writeVec_congr _ hown
  | quiet hq hvec =>
    subst hvec
    refine ⟨fun v hv => ?_, hset.other⟩
    have hat := hset.node v hv
    rcases hq v hv with h1 | ⟨h1, h2⟩ | ⟨h1, h2⟩
    · rw [h1]; exact hat
    · exact (settledAt_fresh h2).2 ((settledAt_fresh h1).1 hat)
    · exact (settledAt_served h2).2 (hat.final ho hA.nodup hid hv h1)

/-- When every node is done the contexts are those of the sequential evaluation. -/
theorem Settled.done (hset : Settled g h B req order vec ph) (ho : Order g es order)
    (hdone : ∀ v ∈ g.allNodes, ph v = .done) : vec = g.evalSeq h B req order := by
  apply List.ext_getElem?
  intro i
  by_cases hi : ∃ v ∈ g.allNodes, (h v).id = i
  · obtain ⟨v, hv, rfl⟩ := hi
    have hat := hset.node v hv
    rw [hdone v hv] at hat
    exact hat
  · push Not at hi
    rw [hset.other i hi]
    exact (foldl_evalNode_ne order _ fun n hn => hi n (ho.perm.mem_iff.1 hn)).symm

/-! ## Many requests at once -/

/-- The invariant of one request of the process. -/
def RequestInv (g : Graph) (h : Heap) (B : Behaviour ρ C) (order : List NodePtr) (q : ρ × RunState C) :
    Prop :=
  ∃ ph, Behind g h q.2 ph ∧ Settled g h B q.1 order q.2.ctx.nodeServiceContextVec ph

theorem requestInv_run (hA : Accepted g h es r) (hid : IdsOK g h) (h0 : g.run h B = some s₀) :
    RequestInv g h B order (req, s₀) := by
  obtain ⟨s₁, h1, hvec, hsim⟩ := sim_run (B := B) hA hid
  rw [h0, Option.some.injEq] at h1
  subst h1
  refine ⟨_, ⟨hA.inv_init, hsim⟩, fun v _ => ?_, fun i _ => by rw [hvec]⟩
  refine (settledAt_fresh ?_).2 (by rw [hvec])
  by_cases hv : v = r <;> simp [hv, Phase.Started]

theorem requestInv_step (hB : Disciplined g h es B) (ho : Order g es order) (hA : Accepted g h es r)
    (hid : IdsOK g h) (hq : RequestInv g h B order (req, s)) {k : ℕ} (hstep : s.step h B req k = some s') :
    RequestInv g h B order (req, s') := by
  obtain ⟨ph, hb, hset⟩ := hq
  obtain ⟨ph', hd, hs', he⟩ := sim_step hb.sim hA hid hb.inv hstep
  exact ⟨ph', ⟨hb.inv.step hA.outs_closed hd, hs'⟩, hset.step hB ho hA hid hb.inv he⟩

/-- Each step of the process is a step of one request. -/
theorem world_step {W W' : World ρ C} {c : Choice ρ} (hB : Disciplined g h es B) (ho : Order g es order)
    (hA : Accepted g h es r) (hid : IdsOK g h) (hW : ∀ q ∈ W, RequestInv g h B order q)
    (hstep : W.step g h B c = some W') : ∀ q ∈ W', RequestInv g h B order q := by
  cases c with
  | begin req =>
    obtain ⟨s₀, h0, rfl⟩ := Option.map_eq_some_iff.1 hstep
    intro q hq
    rcases List.mem_append.1 hq with hq | hq
    · exact hW q hq
    · rw [List.mem_singleton.1 hq]
      exact requestInv_run hA hid h0
  | exec j k =>
    cases hj : W[j]? with
    | none => simp [World.step, hj] at hstep
    | some q =>
      obtain ⟨req, s⟩ := q
      simp only [World.step, hj] at hstep
      obtain ⟨s', hs', rfl⟩ := Option.map_eq_some_iff.1 hstep
      intro q hq
      rcases List.mem_or_eq_of_mem_set hq with hq | rfl
      · exact hW q hq
      · exact requestInv_step hB ho hA hid (hW _ (List.mem_of_getElem? hj)) hs'

/-- **Every request ends as if it were evaluated alone and sequentially.** Any number
of requests run interleaved on one accepted graph whose nodes keep to the discipline;
a request with nothing left to execute has the service contexts that evaluating the
nodes in any topological order gives. -/
theorem request_evalSeq {h₀ : Heap} {fuel : ℕ} {g₀ : Graph} {name : Str} (hf : ∀ p, (h₀ p).Fresh)
    (hinit : g₀.init fuel (h₀.wire es) (some r) name = some (.ok (0, g, h))) (hid : IdsOK g h)
    (hB : Disciplined g h es B) {as : List (Choice ρ)} {W : World ρ C}
    (hrun : Machine.run (World.step g h B) [] as = some W) {j : ℕ} (hj : W[j]? = some (req, s))
    (hs : s.tasks = []) (order : List NodePtr) (hperm : order.Perm g.allNodes) (htopo : Topo es order) :
    s.fault = none ∧ s.ctx.nodeServiceContextVec = g.evalSeq h B req order := by
  have hA := accepted_of_init (wired_wire hf es) hinit
  have ho : Order g es order := ⟨hperm, htopo⟩
  have hinv := Machine.run_inv (fun W : World ρ C => ∀ q ∈ W, RequestInv g h B order q)
    (fun W c W' hW hstep => world_step hB ho hA hid hW hstep) as [] W (by simp) hrun
  obtain ⟨ph, hb, hset⟩ := hinv _ (List.mem_of_getElem? hj)
  exact ⟨hb.sim.fault, hset.done ho (hb.all_done hA hs)⟩

/-- Each node adds what its parents have written to the request; node `1` is skipped if the
root has written 7. -/
def gather : Behaviour ℕ ℕ where
  createContext _ := 0
  skip n _ vec := (decide (n = 1 ∧ vec[0]? = some (some 7)), none)
  doService n req :=
    [fun vec => some (req + ((diamond.filter fun e => e.2 = n).map fun e => (vec[e.1]?.join).getD 0).sum)]

/-- Parents are ancestors. -/
theorem gather_disciplined (hid : ∀ e ∈ diamond, (h e.1).id = e.1) : Disciplined g h diamond gather := by
  have hparent : ∀ {n : NodePtr} {vec vec' : List (Option ℕ)}, Agree h diamond n vec vec' →
      ∀ e ∈ diamond, e.2 = n → vec[e.1]? = vec'[e.1]? := by
    intro n vec vec' hagree e he hn
    have hedge : Edge diamond e.1 n := by
      rw [← hn]
      exact he
    have hsame := hagree e.1 (Or.inr (.single hedge))
    rwa [hid e he] at hsame
  refine ⟨fun n _ req vec vec' hagree => ?_, fun n _ req f hf vec vec' hagree => ?_⟩
  · by_cases hn : n = 1
    · simp only [gather, hparent hagree (0, 1) (by decide) hn.symm]
    · simp only [gather, hn, false_and]
  · rw [List.mem_singleton.1 hf]
    dsimp only
    congr 3
    refine List.map_congr_left fun e he => ?_
    rw [hparent hagree e (List.mem_filter.1 he).1 (by simpa using (List.mem_filter.1 he).2)]

/-- Two requests on the diamond, the first of them complete. -/
theorem diamond_world :
    ∃ g h, Graph.init 9 { maxNodeId := 4 } (Heap.wire (fun p => { id := p }) diamond) (some 0) [] =
        some (.ok (0, g, h)) ∧ IdsOK g h ∧ [0, 2, 1, 3].Perm g.allNodes ∧ (∀ e ∈ diamond, (h e.1).id = e.1) ∧
      ∃ W s q, Machine.run (World.step g h gather) []
          ([.begin 7, .begin 1, .exec 1 0] ++ List.replicate 18 (.exec 0 0)) = some W ∧
        W = [(7, s), q] ∧ s.tasks = [] ∧ s.ctx.nodeServiceContextVec = [some 7, some 0, some 14, some 21, none] :=
  ⟨_, _, rfl, ⟨by decide, by decide, by decide⟩, by decide, by decide, _, _, _, rfl, rfl, rfl, rfl⟩

theorem request_evalSeq_diamond :
    ∃ g h, Graph.init 9 { maxNodeId := 4 } (Heap.wire (fun p => { id := p }) diamond) (some 0) [] =
        some (.ok (0, g, h)) ∧
      ∃ W s q, (∃ as, Machine.run (World.step g h gather) [] as = some W) ∧ W = [(7, s), q] ∧
        s.ctx.nodeServiceContextVec = [some 7, some 0, some 14, some 21, none] ∧
        s.ctx.nodeServiceContextVec = g.evalSeq h gather 7 [0, 2, 1, 3] := by
  obtain ⟨g, h, hinit, hid, hperm, hids, W, s, q, hrun, rfl, hs, hvec⟩ := diamond_world
  exact ⟨g, h, hinit, _, s, q, ⟨_, hrun⟩, rfl, hvec, (request_evalSeq (fun _ => ⟨rfl, rfl, rfl⟩) hinit hid
    (gather_disciplined hids) hrun (j := 0) rfl hs _ hperm (by decide)).2⟩

end Graphize
