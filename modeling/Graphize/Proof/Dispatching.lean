import Graphize.Spec.Run
import Graphize.Proof.Init
import Graphize.Lib.Dispatch

/-!
# A run dispatches the graph

The tasks, counters and log of a run are those of the abstract dispatch
(`Dispatch.Step`) over the nodes of `all_nodes`:

* `sim_run`: `Graph::run` starts where the dispatch starts, with only the root queued.
* `sim_step`: each step of a task is one step of the dispatch, so every state of a run has a
  dispatch state behind it.
-/

namespace Graphize

open EdgeList Dispatch Function

variable {ρ C : Type*}

/-- A graph that `Graph::init` has accepted, with the edges its nodes were wired by. -/
structure Accepted (g : Graph) (h : Heap) (es : List (NodePtr × NodePtr)) (r : NodePtr) : Prop where
  root : g.rootNode = some r
  nodup : g.allNodes.Nodup
  mem : ∀ v, v ∈ g.allNodes ↔ Reach es r v
  out : ∀ p, (h p).outNodes = succs es p
  inputNum : ∀ p, (h p).inputNum = indeg es p
  accepts : Accepts es r

/-- The node ids are distinct and index the two vectors of a `GraphContext`. -/
structure IdsOK (g : Graph) (h : Heap) : Prop where
  inj : ∀ a ∈ g.allNodes, ∀ b ∈ g.allNodes, (h a).id = (h b).id → a = b
  range : ∀ a ∈ g.allNodes, (h a).id < g.allNodes.length
  context : ∀ a ∈ g.allNodes, (h a).id ≤ g.maxNodeId

theorem accepted_of_init {h₀ h : Heap} {es : List (NodePtr × NodePtr)} {r : NodePtr} {fuel : ℕ}
    {g₀ g : Graph} {name : Str} (hw : Wired h₀ es)
    (hrun : g₀.init fuel h₀ (some r) name = some (.ok (0, g, h))) : Accepted g h es r := by
  obtain ⟨hroot, -, hnd, hmem, hsame, hret⟩ := init_sound hw hrun
  refine ⟨hroot, hnd, hmem, fun p => ?_, fun p => ?_, ?_⟩
  · rw [hsame p]; exact hw.out p
  · rw [hsame p]; exact hw.inputNum p
  · rcases hret with ⟨-, hA⟩ | ⟨h1, -⟩
    · exact hA
    · omega

/-! ## The dispatch behind a run -/

/-- Where a node's own work stands. -/
inductive Work
  | service (k : ℕ)
  | callback
  deriving DecidableEq

@[simp] def Task.node : Task → NodePtr
  | .run n => n
  | .service n _ => n
  | .callback n => n
  | .output n _ _ => n

@[simp] def Task.phase : Task → Phase Work NodePtr
  | .run _ => .queued
  | .service _ k => .running (.service k)
  | .callback _ => .running .callback
  | .output _ i last => .releasing i last

/-- A task is its node and its phase. -/
theorem Task.ext_phase {t u : Task} (h1 : t.node = u.node) (h2 : t.phase = u.phase) : t = u := by
  cases t <;> cases u <;> simp_all [Task.node, Task.phase]

theorem exists_task {p : Phase Work NodePtr} (n : NodePtr) (h : p.Active) :
    ∃ t : Task, t.node = n ∧ t.phase = p := by
  cases p with
  | queued => exact ⟨.run n, rfl, rfl⟩
  | running w =>
    cases w with
    | service k => exact ⟨.service n k, rfl, rfl⟩
    | callback => exact ⟨.callback n, rfl, rfl⟩
  | releasing i last => exact ⟨.output n i last, rfl, rfl⟩
  | waiting => exact absurd h id
  | held => exact absurd h id
  | done => exact absurd h id

/-- The nodes and outputs a run dispatches. -/
def Graph.nodes (g : Graph) : Finset NodePtr := g.allNodes.toFinset

def Heap.outs (h : Heap) (p : NodePtr) : List NodePtr := (h p).outNodes

/-- The steps left in a node's own work. -/
def workRank (B : Behaviour ρ C) (req : ρ) (n : NodePtr) : Work → ℕ
  | .service k => (B.doService n req).length - k + 1
  | .callback => 0

def workTop (B : Behaviour ρ C) (req : ρ) (n : NodePtr) : ℕ := (B.doService n req).length + 1

abbrev Dispatches (g : Graph) (h : Heap) (B : Behaviour ρ C) (req : ρ) :=
  Dispatch.Step g.nodes h.outs (workRank B req) (workTop B req)

/-- How often the log says that a node in this phase was started. -/
@[simp] def startCount : Phase Work NodePtr → ℕ
  | .running _ => 1
  | .releasing _ _ => 1
  | .done => 1
  | _ => 0

/-- How often the log says that a node in this phase was skipped or served. -/
@[simp] def finishCount : Phase Work NodePtr → ℕ
  | .releasing _ _ => 1
  | .done => 1
  | _ => 0

@[simp] def RunEvent.node : RunEvent → NodePtr
  | .start n => n
  | .skipped n => n
  | .served n => n
  | .notify n _ => n

/-- The run state `s` shows the dispatch state `ph`. -/
structure Sim (g : Graph) (h : Heap) (s : RunState C) (ph : NodePtr → Phase Work NodePtr) : Prop where
  fault : s.fault = none
  nodup : s.tasks.Nodup
  tasks : ∀ t, t ∈ s.tasks ↔ t.node ∈ g.allNodes ∧ ph t.node = t.phase
  length : s.ctx.nodeInputNumMap.length = g.allNodes.length
  counter : ∀ v ∈ g.allNodes,
    s.ctx.nodeInputNumMap[(h v).id]? = some (some (remaining g.nodes h.outs ph v : ℤ))
  own : ∀ v ∈ g.allNodes, ∃ c, s.ctx.nodeServiceContextVec[(h v).id]? = some (some c)
  start : ∀ v ∈ g.allNodes, s.log.count (.start v) = startCount (ph v)
  finish : ∀ v ∈ g.allNodes, s.log.count (.skipped v) + s.log.count (.served v) = finishCount (ph v)
  events : ∀ e ∈ s.log, e.node ∈ g.allNodes
  notify : ∀ v ∈ g.allNodes, ∀ i, s.log.count (.notify v i) = if i < sent h.outs ph v then 1 else 0

variable {g : Graph} {h : Heap} {es : List (NodePtr × NodePtr)} {r : NodePtr}
  {B : Behaviour ρ C} {req : ρ} {s s' : RunState C} {ph : NodePtr → Phase Work NodePtr}

theorem mem_nodes {v : NodePtr} : v ∈ g.nodes ↔ v ∈ g.allNodes := List.mem_toFinset

theorem Accepted.edge_iff (hA : Accepted g h es r) {u v : NodePtr} : v ∈ h.outs u ↔ Edge es u v := by
  unfold Heap.outs
  rw [hA.out]; exact mem_succs

theorem Accepted.outs_closed (hA : Accepted g h es r) : ∀ u ∈ g.nodes, ∀ v ∈ h.outs u, v ∈ g.nodes := by
  intro u hu v hv
  rw [mem_nodes, hA.mem] at hu ⊢
  exact hu.edge (hA.edge_iff.1 hv)

theorem Accepted.root_mem (hA : Accepted g h es r) : r ∈ g.allNodes :=
  (hA.mem r).2 Relation.ReflTransGen.refl

/-- The dispatch starts in its invariant. -/
theorem Accepted.inv_init (hA : Accepted g h es r) :
    Dispatch.Inv g.nodes h.outs (ω := Work) (fun v => if v = r then .queued else .waiting) := by
  apply Dispatch.inv_init
  · intro u _ hr
    exact hA.accepts.root u (hA.edge_iff.1 hr)
  · intro v hv hne
    rw [mem_nodes, hA.mem] at hv
    rcases hv.cases_tail with h0 | ⟨u, hu, he⟩
    · exact absurd h0 hne
    · exact ⟨u, mem_nodes.2 ((hA.mem u).2 hu), hA.edge_iff.2 he⟩

/-- Before anything is announced a node waits for all its inputs. -/
theorem Accepted.remaining_init (hA : Accepted g h es r) {v : NodePtr} (hv : v ∈ g.allNodes) :
    (remaining g.nodes h.outs (ω := Work) (fun v => if v = r then .queued else .waiting) v : ℤ) =
      (h v).inputNum := by
  have hsent : ∀ u, sent h.outs (ω := Work) (fun v => if v = r then .queued else .waiting) u = 0 := by
    intro u; unfold sent; by_cases hu : u = r <;> simp [hu]
  unfold remaining Graph.nodes
  rw [List.sum_toFinset _ hA.nodup, hA.inputNum v, ← indeg_eq_sum hA.nodup
    (fun a ha => (hA.mem a).2 (hA.accepts.closed a v ha ((hA.mem v).1 hv)))]
  congr 2
  apply List.map_congr_left
  intro u _
  rw [hsent u, List.drop_zero]
  unfold Heap.outs
  rw [hA.out]

/-! ## `Graph::run` -/

/-- Writing each node's entry, in any order, leaves each node's own entry. -/
theorem getElem?_foldl_set {β : Type*} {f : NodePtr → ℕ} {e : NodePtr → β} :
    ∀ (l : List NodePtr) (vec : List β), (∀ n ∈ l, f n < vec.length) →
      (∀ a ∈ l, ∀ b ∈ l, f a = f b → a = b) → ∀ v,
      (v ∈ l → (l.foldl (fun vec n => vec.set (f n) (e n)) vec)[f v]? = some (e v)) ∧
      ((∀ n ∈ l, f n ≠ f v) → (l.foldl (fun vec n => vec.set (f n) (e n)) vec)[f v]? = vec[f v]?) := by
  intro l
  induction l with
  | nil => intro vec _ _ v; simp
  | cons n l ih =>
    intro vec hlt hinj v
    obtain ⟨ih1, ih2⟩ := ih (vec.set (f n) (e n))
      (fun m hm => by rw [List.length_set]; exact hlt m (List.mem_cons_of_mem _ hm))
      (fun a ha b hb => hinj a (List.mem_cons_of_mem _ ha) b (List.mem_cons_of_mem _ hb)) v
    rw [List.foldl_cons]
    refine ⟨fun hv => ?_, fun hne => ?_⟩
    · by_cases hvl : v ∈ l
      · exact ih1 hvl
      · have hvn : v = n := (List.mem_cons.1 hv).resolve_right hvl
        subst hvn
        rw [ih2 fun m hm he =>
          hvl (hinj m (List.mem_cons_of_mem _ hm) v List.mem_cons_self he ▸ hm)]
        exact List.getElem?_set_self (hlt v List.mem_cons_self)
    · rw [ih2 fun m hm => hne m (List.mem_cons_of_mem _ hm)]
      exact List.getElem?_set_ne (hne n List.mem_cons_self)

theorem length_foldl_set {β : Type*} {f : NodePtr → ℕ} {e : NodePtr → β} :
    ∀ (l : List NodePtr) (vec : List β), (l.foldl (fun vec n => vec.set (f n) (e n)) vec).length = vec.length := by
  intro l
  induction l with
  | nil => intro vec; rfl
  | cons n l ih => intro vec; rw [List.foldl_cons, ih, List.length_set]

/-- The loop of `Graph::run` fills both vectors when the ids are in range. -/
theorem enter_foldl : ∀ (l : List NodePtr) (s : RunState C),
    (∀ n ∈ l, (h n).id < s.ctx.nodeInputNumMap.length ∧ (h n).id < s.ctx.nodeServiceContextVec.length) →
    l.foldl (RunState.enter h B) s = { s with ctx := {
      nodeInputNumMap := l.foldl (fun vec n => vec.set (h n).id (some (h n).inputNum)) s.ctx.nodeInputNumMap
      nodeServiceContextVec :=
        l.foldl (fun vec n => vec.set (h n).id (some (B.createContext n))) s.ctx.nodeServiceContextVec } } := by
  intro l
  induction l with
  | nil => intro s _; rfl
  | cons n l ih =>
    intro s hlt
    have hn : s.enter h B n = { s with ctx := {
        nodeInputNumMap := s.ctx.nodeInputNumMap.set (h n).id (some (h n).inputNum)
        nodeServiceContextVec := s.ctx.nodeServiceContextVec.set (h n).id (some (B.createContext n)) } } := by
      unfold RunState.enter
      rw [if_pos (hlt n List.mem_cons_self)]
    rw [List.foldl_cons, hn, ih]
    · rfl
    · intro m hm
      simp only [List.length_set]
      exact hlt m (List.mem_cons_of_mem _ hm)

/-- The contexts that `Graph::run` creates. -/
def Graph.createContexts (g : Graph) (h : Heap) (B : Behaviour ρ C) : List (Option C) :=
  g.allNodes.foldl (fun vec n => vec.set (h n).id (some (B.createContext n)))
    (List.replicate (g.maxNodeId + 1) none)

theorem IdsOK.createContexts (hid : IdsOK g h) {v : NodePtr} (hv : v ∈ g.allNodes) :
    (g.createContexts h B)[(h v).id]? = some (some (B.createContext v)) := by
  refine (getElem?_foldl_set (f := fun n => (h n).id) g.allNodes _ (fun n hn => ?_) hid.inj v).1 hv
  rw [List.length_replicate]
  exact Nat.lt_succ_of_le (hid.context n hn)

/-- **`Graph::run` starts the dispatch**: only the root is queued. -/
theorem sim_run (hA : Accepted g h es r) (hid : IdsOK g h) :
    ∃ s, g.run h B = some s ∧ s.ctx.nodeServiceContextVec = g.createContexts h B ∧
      Sim g h s (fun v => if v = r then .queued else .waiting) := by
  have hrun := enter_foldl (h := h) (B := B) g.allNodes
    ⟨⟨List.replicate g.allNodes.length none, List.replicate (g.maxNodeId + 1) none⟩, [], [], none⟩
    (fun n hn => by
      simp only [List.length_replicate]
      exact ⟨hid.range n hn, Nat.lt_succ_of_le (hid.context n hn)⟩)
  unfold Graph.run
  rw [hA.root]
  simp only [hrun]
  refine ⟨_, rfl, rfl, rfl, List.nodup_singleton _, ?_, ?_, ?_, ?_, ?_, ?_, by simp, ?_⟩
  -- the only task is the entry of the root
  · intro t
    simp only [List.mem_singleton]
    constructor
    · rintro rfl
      exact ⟨hA.root_mem, by simp [Task.node, Task.phase]⟩
    · rintro ⟨-, hp⟩
      by_cases hr : t.node = r
      · rw [if_pos hr] at hp
        exact Task.ext_phase (by rw [hr]; rfl) (by rw [← hp]; rfl)
      · rw [if_neg hr] at hp
        cases t <;> simp [Task.phase] at hp
  · simp only [length_foldl_set, List.length_replicate]
  · intro v hv
    rw [hA.remaining_init hv]
    refine (getElem?_foldl_set (f := fun n => (h n).id) (e := fun n => some (h n).inputNum)
      g.allNodes _ (fun n hn => ?_) hid.inj v).1 hv
    rw [List.length_replicate]
    exact hid.range n hn
  · intro v hv
    exact ⟨_, hid.createContexts (B := B) hv⟩
  · intro v _
    by_cases hr : v = r <;> simp [hr, startCount]
  · intro v _
    by_cases hr : v = r <;> simp [hr, finishCount]
  · intro v _ i
    by_cases hr : v = r <;> simp [hr, sent]

/-! ## One step -/

theorem Task.active (t : Task) : t.phase.Active := by
  cases t <;> trivial

/-- Events of one node are none of another's. -/
theorem count_event {evs : List RunEvent} {u v : NodePtr} (hev : ∀ e ∈ evs, e.node = u) (hv : v ≠ u)
    {e : RunEvent} (he : e.node = v) : evs.count e = 0 :=
  List.count_eq_zero.2 fun hm => hv (by rw [← he]; exact hev e hm)

/-- A step of node `u`: the counts move for `u` as `evs` says, and the tasks of the
nodes whose phase moves are replaced by `new`. -/
theorem Sim.advance (hs : Sim g h s ph) {u : NodePtr} (hu : u ∈ g.allNodes) {k : ℕ} {t : Task}
    (ht : s.tasks[k]? = some t) (htu : t.node = u) (ph' : NodePtr → Phase Work NodePtr) (new : List Task)
    (evs : List RunEvent) (ctx : GraphContext C)
    (hnd : new.Nodup)
    (hnew : ∀ x ∈ new, x.node ∈ g.allNodes ∧ ph' x.node = x.phase ∧ (x.node = u ∨ ¬(ph x.node).Active))
    (hch : ∀ w ∈ g.allNodes, (w ≠ u ∧ ph' w = ph w) ∨
      ((w = u ∨ ¬(ph w).Active) ∧ ∀ x : Task, x.node = w → ph' w = x.phase → x ∈ new))
    (hlen : ctx.nodeInputNumMap.length = g.allNodes.length)
    (hcount : ∀ v ∈ g.allNodes,
      ctx.nodeInputNumMap[(h v).id]? = some (some (remaining g.nodes h.outs ph' v : ℤ)))
    (hown : ∀ v ∈ g.allNodes, ∃ c, ctx.nodeServiceContextVec[(h v).id]? = some (some c))
    (hev : ∀ e ∈ evs, e.node = u)
    (hstart : startCount (ph' u) = startCount (ph u) + evs.count (.start u))
    (hfin : finishCount (ph' u) = finishCount (ph u) + (evs.count (.skipped u) + evs.count (.served u)))
    (hnot : ∀ i, (if i < sent h.outs ph' u then 1 else 0) =
      (if i < sent h.outs ph u then 1 else 0) + evs.count (.notify u i))
    (hother : ∀ w ∈ g.allNodes, w ≠ u → startCount (ph' w) = startCount (ph w) ∧
      finishCount (ph' w) = finishCount (ph w) ∧ sent h.outs ph' w = sent h.outs ph w) :
    Sim g h ⟨ctx, s.tasks.eraseIdx k ++ new, s.log ++ evs, s.fault⟩ ph' := by
  obtain ⟨hk, hget⟩ := List.getElem?_eq_some_iff.1 ht
  have hperm : (t :: s.tasks.eraseIdx k).Perm s.tasks := by
    rw [← hget]; exact List.getElem_cons_eraseIdx_perm hk
  obtain ⟨htrest, hrestnd⟩ := List.nodup_cons.1 (hperm.nodup_iff.2 hs.nodup)
  -- the tasks that stay are those of the other nodes
  have hrest : ∀ x, x ∈ s.tasks.eraseIdx k ↔ x.node ∈ g.allNodes ∧ ph x.node = x.phase ∧ x.node ≠ u := by
    intro x
    have hx : x ∈ s.tasks ↔ x = t ∨ x ∈ s.tasks.eraseIdx k := by rw [← hperm.mem_iff, List.mem_cons]
    have htm := (hs.tasks t).1 (List.mem_of_getElem? ht)
    constructor
    · intro hm
      obtain ⟨h1, h2⟩ := (hs.tasks x).1 (hx.2 (Or.inr hm))
      refine ⟨h1, h2, fun hxu => htrest ?_⟩
      have : x = t := Task.ext_phase (by rw [hxu, htu]) (by rw [← h2, ← htm.2, hxu, htu])
      rwa [← this]
    · rintro ⟨h1, h2, h3⟩
      rcases hx.1 ((hs.tasks x).2 ⟨h1, h2⟩) with rfl | hm
      · exact absurd htu h3
      · exact hm
  refine ⟨hs.fault, ?_, ?_, hlen, hcount, hown, ?_, ?_, ?_, ?_⟩
  · refine List.nodup_append.2 ⟨hrestnd, hnd, ?_⟩
    rintro x hx y hy rfl
    obtain ⟨-, h2, h3⟩ := (hrest x).1 hx
    rcases (hnew x hy).2.2 with h4 | h4
    · exact h3 h4
    · exact h4 (by rw [h2]; exact x.active)
  · intro x
    simp only [List.mem_append]
    constructor
    · rintro (hx | hx)
      · obtain ⟨h1, h2, h3⟩ := (hrest x).1 hx
        refine ⟨h1, ?_⟩
        rcases hch x.node h1 with ⟨-, h4⟩ | ⟨h4 | h4, -⟩
        · rw [h4, h2]
        · exact absurd h4 h3
        · exact absurd (by rw [h2]; exact x.active) h4
      · exact ⟨(hnew x hx).1, (hnew x hx).2.1⟩
    · rintro ⟨h1, h2⟩
      rcases hch x.node h1 with ⟨h3, h4⟩ | ⟨-, h4⟩
      · exact Or.inl ((hrest x).2 ⟨h1, by rw [← h4, h2], h3⟩)
      · exact Or.inr (h4 x rfl h2)
  · intro v hv
    simp only [List.count_append]
    rw [hs.start v hv]
    by_cases hvu : v = u
    · subst hvu; rw [hstart]
    · rw [count_event hev hvu rfl, (hother v hv hvu).1]; rfl
  · intro v hv
    simp only [List.count_append]
    have := hs.finish v hv
    by_cases hvu : v = u
    · subst hvu; rw [hfin]; omega
    · rw [count_event hev hvu rfl, count_event hev hvu rfl, (hother v hv hvu).2.1]; omega
  · intro e he
    rcases List.mem_append.1 he with he | he
    · exact hs.events e he
    · rw [hev e he]; exact hu
  · intro v hv i
    simp only [List.count_append]
    rw [hs.notify v hv i]
    by_cases hvu : v = u
    · subst hvu; rw [hnot]
    · rw [count_event hev hvu rfl, (hother v hv hvu).2.2]; rfl

/-- The own work of a node in this phase is over. -/
def Complete (B : Behaviour ρ C) (req : ρ) (n : NodePtr) : Phase Work NodePtr → Prop
  | .running (.service k) => (B.doService n req).length ≤ k
  | .running .callback => True
  | .releasing _ _ => True
  | .done => True
  | _ => False

/-- What a step does to the service contexts: `skip` and the steps of `do_service`
write the node's own one, nothing else writes. -/
inductive Effect (g : Graph) (h : Heap) (B : Behaviour ρ C) (req : ρ)
    (ph ph' : NodePtr → Phase Work NodePtr) (vec vec' : List (Option C)) : Prop
  | skip (u : NodePtr) : u ∈ g.allNodes → ph u = .queued → (∀ w, w ≠ u → ph' w = ph w) →
      ph' u = (if (B.skip u req vec).1 then .releasing 0 none else .running (.service 0)) →
      vec' = writeVec vec (h u).id (B.skip u req vec).2 → Effect g h B req ph ph' vec vec'
  | write (u : NodePtr) (k : ℕ) (f : List (Option C) → Option C) : u ∈ g.allNodes →
      ph u = .running (.service k) → (B.doService u req)[k]? = some f → (∀ w, w ≠ u → ph' w = ph w) →
      ph' u = .running (.service (k + 1)) → vec' = writeVec vec (h u).id (f vec) →
      Effect g h B req ph ph' vec vec'
  | quiet : (∀ v ∈ g.allNodes, ph' v = ph v ∨ (¬(ph v).Started ∧ ¬(ph' v).Started) ∨
      (Complete B req v (ph v) ∧ (ph' v = .running .callback ∨ (ph' v).Released))) → vec' = vec → Effect g h B req ph ph' vec vec'

/-- The step from `s` to `s'` is one step of the dispatch behind `s`. -/
def Follows (g : Graph) (h : Heap) (B : Behaviour ρ C) (req : ρ) (ph : NodePtr → Phase Work NodePtr)
    (s s' : RunState C) : Prop :=
  ∃ ph', Dispatches g h B req ph ph' ∧ Sim g h s' ph' ∧
    Effect g h B req ph ph' s.ctx.nodeServiceContextVec s'.ctx.nodeServiceContextVec

/-- A write to an existing context. -/
theorem write_eq {id : ℕ} {c : C} (hc : s.ctx.nodeServiceContextVec[id]? = some (some c)) (o : Option C) :
    s.write id o = { s with ctx := { s.ctx with
      nodeServiceContextVec := writeVec s.ctx.nodeServiceContextVec id o } } := by
  cases o with
  | none => rfl
  | some c' =>
    unfold RunState.write
    simp only [hc]
    rfl

theorem writeVec_own {vec : List (Option C)} (id : ℕ) (o : Option C) {i : ℕ}
    (hi : ∃ c, vec[i]? = some (some c)) : ∃ c, (writeVec vec id o)[i]? = some (some c) := by
  cases o with
  | none => exact hi
  | some c' =>
    obtain ⟨c, hc⟩ := hi
    unfold writeVec
    by_cases hid : id = i
    · subst hid
      exact ⟨c', List.getElem?_set_self (List.getElem?_eq_some_iff.1 hc).1⟩
    · exact ⟨c, by rw [List.getElem?_set_ne hid]; exact hc⟩

/-- A step of a node's own work, seen by the dispatch. -/
theorem Sim.own_step (hs : Sim g h s ph) {u : NodePtr} {k : ℕ} {t : Task} (ht : s.tasks[k]? = some t)
    (t' : Task) (evs : List RunEvent) (vec : List (Option C)) (htu : t.node = u) (htu' : t'.node = u)
    (h0 : ∀ i last, t.phase = .releasing i last → i = 0)
    (h1 : ∀ i last, t'.phase = .releasing i last → i = 0)
    (hown : ∀ v ∈ g.allNodes, ∃ c, vec[(h v).id]? = some (some c))
    (hev : ∀ e ∈ evs, e.node = u)
    (hstart : startCount t'.phase = startCount t.phase + evs.count (.start u))
    (hfin : finishCount t'.phase = finishCount t.phase + (evs.count (.skipped u) + evs.count (.served u)))
    (hnot : ∀ i, evs.count (.notify u i) = 0) :
    Sim g h ⟨{ s.ctx with nodeServiceContextVec := vec }, s.tasks.eraseIdx k ++ [t'], s.log ++ evs, s.fault⟩
      (update ph u t'.phase) := by
  obtain ⟨hu, hph⟩ := (hs.tasks t).1 (List.mem_of_getElem? ht)
  rw [htu] at hu hph
  have hzero : ∀ {q : NodePtr → Phase Work NodePtr} {x : Task}, q u = x.phase →
      (∀ i last, x.phase = .releasing i last → i = 0) → sent h.outs q u = 0 := by
    intro q x hq hx
    unfold sent
    rw [hq]
    cases x with
    | output n i last => exact hx i last rfl
    | run n => rfl
    | service n k => rfl
    | callback n => rfl
  -- nothing has been notified by `u` before this step or in it
  have hsent : ∀ w, sent h.outs (update ph u t'.phase) w = sent h.outs ph w := by
    intro w
    by_cases hw : w = u
    · subst hw; rw [hzero hph h0, hzero (update_self _ _ _) h1]
    · exact sent_eq (update_of_ne hw _ _)
  refine hs.advance hu ht htu _ _ _ _ (List.nodup_singleton _) ?_ ?_ hs.length ?_ hown hev ?_ ?_ ?_ ?_
  · intro x hx
    rw [List.mem_singleton] at hx
    subst hx
    rw [htu']
    exact ⟨hu, update_self _ _ _, Or.inl rfl⟩
  · intro w _
    by_cases hw : w = u
    · subst hw
      refine Or.inr ⟨Or.inl rfl, fun x hx hp => ?_⟩
      rw [update_self] at hp
      rw [List.mem_singleton]
      exact Task.ext_phase (by rw [hx, htu']) hp.symm
    · exact Or.inl ⟨hw, update_of_ne hw _ _⟩
  · intro v hv
    rw [remaining_congr (fun w _ => hsent w)]
    exact hs.counter v hv
  · rw [update_self, hph]; exact hstart
  · rw [update_self, hph]; exact hfin
  · intro i; rw [hsent u, hnot]; omega
  · intro w _ hw
    rw [hsent w, update_of_ne hw]
    exact ⟨rfl, rfl, rfl⟩

theorem Sim.of_task (hs : Sim g h s ph) {k : ℕ} {t : Task} (ht : s.tasks[k]? = some t) :
    t.node ∈ g.allNodes ∧ ph t.node = t.phase :=
  (hs.tasks t).1 (List.mem_of_getElem? ht)

/-- Entering `Node::run`. -/
theorem Sim.step_run (hs : Sim g h s ph) {u : NodePtr} {k : ℕ} (ht : s.tasks[k]? = some (.run u)) :
    Follows g h B req ph s (Task.exec h B req { s with tasks := s.tasks.eraseIdx k } (.run u)) := by
  obtain ⟨hu, hph⟩ := hs.of_task ht
  simp only [Task.node, Task.phase] at hu hph
  obtain ⟨c, hc⟩ := hs.own u hu
  have hown := fun v hv => writeVec_own (h u).id (B.skip u req s.ctx.nodeServiceContextVec).2 (hs.own v hv)
  unfold Task.exec
  simp only
  rw [write_eq (c := c) (s := { s with tasks := s.tasks.eraseIdx k }) hc]
  by_cases hsk : (B.skip u req s.ctx.nodeServiceContextVec).1 = true
  · rw [if_pos hsk]
    refine ⟨update ph u (.releasing 0 none), .skip (mem_nodes.2 hu) hph, ?_, ?_⟩
    · simpa using hs.own_step ht (.output u 0 none) [.start u, .skipped u] _ rfl rfl
        (by simp) (by simp) hown (by simp)
        (by simp) (by simp) (by simp)
    · refine .skip u hu hph (fun w hw => update_of_ne hw _ _) ?_ rfl
      rw [update_self, if_pos hsk]
  · rw [if_neg hsk]
    refine ⟨update ph u (.running (.service 0)),
      .start (mem_nodes.2 hu) hph (by simp [workRank, workTop]), ?_, ?_⟩
    · simpa using hs.own_step ht (.service u 0) [.start u] _ rfl rfl
        (by simp) (by simp) hown (by simp)
        (by simp) (by simp) (by simp)
    · refine .skip u hu hph (fun w hw => update_of_ne hw _ _) ?_ rfl
      rw [update_self, if_neg hsk]

/-- Leaving a node's own work without a write. -/
theorem Effect.complete {u : NodePtr} {p : Phase Work NodePtr} {vec : List (Option C)}
    (h1 : Complete B req u (ph u)) (h2 : p = .running .callback ∨ p.Released) :
    Effect g h B req ph (update ph u p) vec vec := by
  refine .quiet (fun v _ => ?_) rfl
  by_cases hv : v = u
  · subst hv
    rw [update_self]
    exact Or.inr (Or.inr ⟨h1, h2⟩)
  · exact Or.inl (update_of_ne hv _ _)

/-- A step of `do_service`. -/
theorem Sim.step_service (hs : Sim g h s ph) {u : NodePtr} {j k : ℕ}
    (ht : s.tasks[k]? = some (.service u j)) :
    Follows g h B req ph s (Task.exec h B req { s with tasks := s.tasks.eraseIdx k } (.service u j)) := by
  obtain ⟨hu, hph⟩ := hs.of_task ht
  simp only [Task.node, Task.phase] at hu hph
  obtain ⟨c, hc⟩ := hs.own u hu
  unfold Task.exec
  cases hf : (B.doService u req)[j]? with
  | some f =>
    simp only [hf]
    have hown := fun v hv => writeVec_own (h u).id (f s.ctx.nodeServiceContextVec) (hs.own v hv)
    have hlt := (List.getElem?_eq_some_iff.1 hf).1
    rw [write_eq (c := c) (s := { s with tasks := s.tasks.eraseIdx k }) hc]
    refine ⟨update ph u (.running (.service (j + 1))),
      .work (mem_nodes.2 hu) hph (by simp only [workRank]; omega), ?_, ?_⟩
    · simpa using hs.own_step ht (.service u (j + 1)) [] _ rfl rfl
        (by simp) (by simp) hown (by simp)
        (by simp) (by simp) (by simp)
    · exact .write u j f hu hph hf (fun w hw => update_of_ne hw _ _) (update_self _ _ _) rfl
  | none =>
    simp only [hf]
    have hle := List.getElem?_eq_none_iff.1 hf
    have hcomp : Complete B req u (ph u) := by rw [hph]; exact hle
    -- a cpu node notifies its outputs itself, an io node leaves this to its callback
    cases (h u).type with
    | cpu =>
      refine ⟨update ph u (.releasing 0 none), .release (mem_nodes.2 hu) hph, ?_, Effect.complete hcomp (Or.inr trivial)⟩
      simpa using hs.own_step ht (.output u 0 none) [.served u]
        s.ctx.nodeServiceContextVec rfl rfl
        (by simp) (by simp) hs.own (by simp)
        (by simp) (by simp) (by simp)
    | io =>
      refine ⟨update ph u (.running .callback), .work (mem_nodes.2 hu) hph (by simp [workRank]), ?_,
        Effect.complete hcomp (Or.inl rfl)⟩
      simpa using hs.own_step ht (.callback u) []
        s.ctx.nodeServiceContextVec rfl rfl
        (by simp) (by simp) hs.own (by simp)
        (by simp) (by simp) (by simp)

/-- An io node calls `run_output_nodes_if_ready`. -/
theorem Sim.step_callback (hs : Sim g h s ph) {u : NodePtr} {k : ℕ} (ht : s.tasks[k]? = some (.callback u)) :
    Follows g h B req ph s (Task.exec h B req { s with tasks := s.tasks.eraseIdx k } (.callback u)) := by
  obtain ⟨hu, hph⟩ := hs.of_task ht
  simp only [Task.node, Task.phase] at hu hph
  refine ⟨update ph u (.releasing 0 none), .release (mem_nodes.2 hu) hph, ?_,
    Effect.complete (by rw [hph]; trivial) (Or.inr trivial)⟩
  simpa [Task.exec] using hs.own_step ht (.output u 0 none) [.served u]
        s.ctx.nodeServiceContextVec rfl rfl
    (by simp) (by simp) hs.own (by simp)
    (by simp) (by simp) (by simp)

/-! ### The notification loop -/

/-- The tasks that a held node's dispatch adds. -/
theorem mem_spawn {last : Option NodePtr} {x : Task} : x ∈ spawn last ↔ ∃ m, last = some m ∧ x = .run m := by
  cases last with
  | none => simp [spawn]
  | some m => simp [spawn]

theorem spawn_nodup (last : Option NodePtr) : (spawn last).Nodup := by
  cases last <;> simp [spawn]

/-- The context after `fetch_sub` on the counter of `v`. -/
def notified (g : Graph) (h : Heap) (c : GraphContext C) (ph : NodePtr → Phase Work NodePtr)
    (v : NodePtr) : GraphContext C :=
  { c with nodeInputNumMap :=
      c.nodeInputNumMap.set (h v).id (some ((remaining g.nodes h.outs ph v : ℤ) - 1)) }

theorem Sim.notify_eq (hs : Sim g h s ph) {v : NodePtr} (hv : v ∈ g.allNodes) :
    s.ctx.notify (h v).id =
      .ok (some (decide (remaining g.nodes h.outs ph v = 1), notified g h s.ctx ph v)) := by
  unfold GraphContext.notify notified
  rw [hs.counter v hv]
  simp only [Nat.cast_eq_one]

theorem Sim.length_notified (hs : Sim g h s ph) (v : NodePtr) :
    (notified g h s.ctx ph v).nodeInputNumMap.length = g.allNodes.length := by
  unfold notified
  rw [List.length_set, hs.length]

theorem Sim.counter_notified (hs : Sim g h s ph) (hid : IdsOK g h) {v : NodePtr} (hv : v ∈ g.allNodes)
    {ph' : NodePtr → Phase Work NodePtr}
    (hrem : ∀ w, remaining g.nodes h.outs ph w = remaining g.nodes h.outs ph' w + if v = w then 1 else 0) :
    ∀ w ∈ g.allNodes, (notified g h s.ctx ph v).nodeInputNumMap[(h w).id]? =
      some (some (remaining g.nodes h.outs ph' w : ℤ)) := by
  intro w hw
  have hlt : (h v).id < s.ctx.nodeInputNumMap.length := (List.getElem?_eq_some_iff.1 (hs.counter v hv)).1
  have hr := hrem w
  unfold notified
  by_cases hvw : v = w
  · subst hvw
    rw [if_pos rfl] at hr
    simp only [List.getElem?_set_self hlt]
    rw [hr]
    simp
  · rw [if_neg hvw, Nat.add_zero] at hr
    simp only [List.getElem?_set_ne (fun he => hvw (hid.inj v hv w hw he))]
    rw [← hr]
    exact hs.counter w hw

/-- The notify events count the edges announced. -/
theorem count_notify {u : NodePtr} {i j : ℕ} :
    (if j < i + 1 then 1 else 0) = (if j < i then 1 else 0) + [RunEvent.notify u i].count (.notify u j) := by
  by_cases hj : j = i
  · subst hj; simp
  · have : j < i + 1 ↔ j < i := by omega
    simp [this, Ne.symm hj]

/-- What the invariant says of the node kept in `last_ready_node`. -/
theorem held_last (hi : Dispatch.Inv g.nodes h.outs ph) {u : NodePtr} (hu : u ∈ g.allNodes) {i : ℕ}
    {last : Option NodePtr} (hph : ph u = .releasing i last) :
    ∀ m, last = some m → m ∈ g.allNodes ∧ ph m = .held ∧ m ≠ u := by
  rintro m rfl
  obtain ⟨h1, h2⟩ := hi.held u (mem_nodes.2 hu) i m hph
  refine ⟨mem_nodes.1 h1, h2, ?_⟩
  rintro rfl
  rw [hph] at h2
  simp at h2

/-- The loop ends with `last_ready_node->run(context)`. -/
theorem Sim.step_finish (hs : Sim g h s ph) (hi : Dispatch.Inv g.nodes h.outs ph) {u : NodePtr} {i k : ℕ}
    {last : Option NodePtr} (ht : s.tasks[k]? = some (.output u i last))
    (hout : (h u).outNodes[i]? = none) :
    Follows g h B req ph s { s with tasks := s.tasks.eraseIdx k ++ spawn last } := by
  obtain ⟨hu, hph⟩ := hs.of_task ht
  simp only [Task.node, Task.phase] at hu hph
  have huV := mem_nodes.2 hu
  have hlast := held_last hi hu hph
  set ph' := update (requeue ph last) u .done with hph'
  have hsent : ∀ w, sent h.outs ph' w = sent h.outs ph w := hi.sent_finish huV hph hout
  have hself : ph' u = .done := update_self _ _ _
  -- besides `u` only the node kept moves, and it had not started
  have hmoved : ∀ w, w ≠ u → (last = some w ∧ ph' w = .queued ∧ ph w = .held) ∨ last ≠ some w ∧ ph' w = ph w := by
    intro w hwu
    rw [hph', update_of_ne hwu, requeue_apply]
    by_cases hwl : last = some w
    · rw [if_pos hwl]; exact Or.inl ⟨hwl, rfl, (hlast w hwl).2.1⟩
    · rw [if_neg hwl]; exact Or.inr ⟨hwl, rfl⟩
  refine ⟨ph', .finish huV hph hout, ?_, ?_⟩
  · have := hs.advance hu ht rfl ph' (spawn last) [] s.ctx
      (spawn_nodup _) ?_ ?_ hs.length ?_ hs.own (by simp) ?_ ?_ ?_ ?_
    · simpa using this
    · intro x hx
      obtain ⟨m, hlm, rfl⟩ := mem_spawn.1 hx
      obtain ⟨h1, h2, h3⟩ := hlast m hlm
      rcases hmoved m h3 with ⟨-, h4, -⟩ | ⟨h4, -⟩
      · exact ⟨h1, h4, Or.inr (by rw [Task.node, h2]; exact id)⟩
      · exact absurd hlm h4
    · intro w _
      by_cases hwu : w = u
      · subst hwu
        exact Or.inr ⟨Or.inl rfl, fun x hx hp => absurd x.active (by rw [← hp, hself]; exact id)⟩
      · rcases hmoved w hwu with ⟨hl, h1, h2⟩ | ⟨-, h1⟩
        · refine Or.inr ⟨Or.inr (by rw [h2]; exact id), fun x hx hp => mem_spawn.2 ⟨w, hl, ?_⟩⟩
          exact Task.ext_phase hx (by rw [← hp, h1]; rfl)
        · exact Or.inl ⟨hwu, h1⟩
    · intro v hv
      rw [remaining_congr (fun w _ => hsent w)]
      exact hs.counter v hv
    · rw [hself, hph]; simp
    · rw [hself, hph]; simp
    · intro j; rw [hsent u]; simp
    · intro w _ hwu
      rw [hsent w]
      rcases hmoved w hwu with ⟨-, h1, h2⟩ | ⟨-, h1⟩
      · rw [h1, h2]; exact ⟨rfl, rfl, rfl⟩
      · rw [h1]; exact ⟨rfl, rfl, rfl⟩
  · refine .quiet (fun w _ => ?_) rfl
    by_cases hwu : w = u
    · subst hwu
      exact Or.inr (Or.inr ⟨by rw [hph]; trivial, Or.inr (by rw [hself]; trivial)⟩)
    · rcases hmoved w hwu with ⟨-, h1, h2⟩ | ⟨-, h1⟩
      · exact Or.inr (Or.inl ⟨by rw [h2]; exact id, by rw [h1]; exact id⟩)
      · exact Or.inl h1

/-- The node notified still waits. -/
theorem Sim.step_pass (hs : Sim g h s ph) (hid : IdsOK g h) {u v : NodePtr} {i k : ℕ}
    {last : Option NodePtr} (ht : s.tasks[k]? = some (.output u i last))
    (hout : (h u).outNodes[i]? = some v) (hv : v ∈ g.allNodes) (hr : remaining g.nodes h.outs ph v ≠ 1) :
    Follows g h B req ph s
      { s with ctx := notified g h s.ctx ph v, tasks := s.tasks.eraseIdx k ++ [Task.output u (i + 1) last],
               log := s.log ++ [RunEvent.notify u i] } := by
  obtain ⟨hu, hph⟩ := hs.of_task ht
  simp only [Task.node, Task.phase] at hu hph
  have huV := mem_nodes.2 hu
  set ph' := update ph u (.releasing (i + 1) last) with hph'
  have hsent : ∀ w, sent h.outs ph' w = if w = u then i + 1 else sent h.outs ph w := sent_pass
  have hself : ph' u = .releasing (i + 1) last := update_self _ _ _
  have hne : ∀ w, w ≠ u → ph' w = ph w := fun w hw => update_of_ne hw _ _
  refine ⟨ph', .pass huV hph hout hr, ?_, ?_⟩
  · refine hs.advance hu ht rfl ph' _ _ _ (List.nodup_singleton _) ?_ ?_ (hs.length_notified v)
      (hs.counter_notified hid hv (remaining_of_sent huV hph hout hsent)) hs.own (by simp) ?_ ?_ ?_ ?_
    · intro x hx
      rw [List.mem_singleton.1 hx]
      exact ⟨hu, hself, Or.inl rfl⟩
    · intro w _
      by_cases hwu : w = u
      · subst hwu
        refine Or.inr ⟨Or.inl rfl, fun x hx hp => List.mem_singleton.2 ?_⟩
        exact Task.ext_phase hx (by rw [← hp, hself]; rfl)
      · exact Or.inl ⟨hwu, hne w hwu⟩
    · rw [hself, hph]; simp
    · rw [hself, hph]; simp
    -- one more notification of `u` is logged, none of another node
    · intro j
      rw [hsent u, if_pos rfl, sent_releasing hph]
      exact count_notify
    · intro w _ hwu
      rw [hsent w, if_neg hwu, hne w hwu]
      exact ⟨rfl, rfl, rfl⟩
  · refine .quiet (fun w _ => ?_) rfl
    by_cases hwu : w = u
    · subst hwu
      exact Or.inr (Or.inr ⟨by rw [hph]; trivial, Or.inr (by rw [hself]; trivial)⟩)
    · exact Or.inl (hne w hwu)

/-- The node notified becomes ready and is kept; the node kept before gets its bthread. -/
theorem Sim.step_ready (hs : Sim g h s ph) (hid : IdsOK g h) (hi : Dispatch.Inv g.nodes h.outs ph)
    {u v : NodePtr} {i k : ℕ} {last : Option NodePtr} (ht : s.tasks[k]? = some (.output u i last))
    (hout : (h u).outNodes[i]? = some v) (hv : v ∈ g.allNodes) (hr : remaining g.nodes h.outs ph v = 1) :
    Follows g h B req ph s
      { s with ctx := notified g h s.ctx ph v,
               tasks := s.tasks.eraseIdx k ++ (spawn last ++ [Task.output u (i + 1) (some v)]),
               log := s.log ++ [RunEvent.notify u i] } := by
  obtain ⟨hu, hph⟩ := hs.of_task ht
  simp only [Task.node, Task.phase] at hu hph
  have huV := mem_nodes.2 hu
  have hlast := held_last hi hu hph
  set ph' := update (update (requeue ph last) v .held) u (.releasing (i + 1) (some v)) with hph'
  have hvw : ph v = .waiting := (hi.waiting v (mem_nodes.2 hv)).2 (by omega)
  have hvu : v ≠ u := by rintro rfl; rw [hph] at hvw; simp at hvw
  have hsent : ∀ w, sent h.outs ph' w = if w = u then i + 1 else sent h.outs ph w :=
    hi.sent_ready huV hph (mem_nodes.2 hv) hr
  have hself : ph' u = .releasing (i + 1) (some v) := update_self _ _ _
  -- besides `u` only `v` and the node kept move, and they had not started
  have hmoved : ∀ w, w ≠ u → (last = some w ∧ ph' w = .queued ∧ ph w = .held) ∨
      last ≠ some w ∧ (ph' w = ph w ∨ (ph' w = .held ∧ ph w = .waiting)) := by
    intro w hwu
    by_cases hwl : last = some w
    · have hwh := (hlast w hwl).2.1
      have hwv : w ≠ v := by rintro rfl; rw [hvw] at hwh; simp at hwh
      refine Or.inl ⟨hwl, ?_, hwh⟩
      rw [hph', update_of_ne hwu, update_of_ne hwv, requeue_apply, if_pos hwl]
    · refine Or.inr ⟨hwl, ?_⟩
      by_cases hwv : w = v
      · subst hwv
        exact Or.inr ⟨by rw [hph', update_of_ne hwu, update_self], hvw⟩
      · exact Or.inl (by rw [hph', update_of_ne hwu, update_of_ne hwv, requeue_apply, if_neg hwl])
  refine ⟨ph', .ready huV hph hout hr, ?_, ?_⟩
  · refine hs.advance hu ht rfl ph' _ _ _ ?_ ?_ ?_ (hs.length_notified v)
      (hs.counter_notified hid hv (remaining_of_sent huV hph hout hsent)) hs.own (by simp) ?_ ?_ ?_ ?_
    · refine List.nodup_append.2 ⟨spawn_nodup _, List.nodup_singleton _, ?_⟩
      intro x hx y hy
      obtain ⟨m, -, rfl⟩ := mem_spawn.1 hx
      rw [List.mem_singleton.1 hy]
      simp
    · intro x hx
      rcases List.mem_append.1 hx with hx | hx
      · obtain ⟨m, hlm, rfl⟩ := mem_spawn.1 hx
        obtain ⟨h1, h2, h3⟩ := hlast m hlm
        rcases hmoved m h3 with ⟨-, h4, -⟩ | ⟨h4, -⟩
        · exact ⟨h1, h4, Or.inr (by rw [Task.node, h2]; exact id)⟩
        · exact absurd hlm h4
      · rw [List.mem_singleton.1 hx]
        exact ⟨hu, hself, Or.inl rfl⟩
    · intro w _
      by_cases hwu : w = u
      · subst hwu
        refine Or.inr ⟨Or.inl rfl, fun x hx hp => List.mem_append_right _ (List.mem_singleton.2 ?_)⟩
        exact Task.ext_phase hx (by rw [← hp, hself]; rfl)
      · rcases hmoved w hwu with ⟨hl, h1, h2⟩ | ⟨-, h1 | ⟨h1, h2⟩⟩
        · refine Or.inr ⟨Or.inr (by rw [h2]; exact id), fun x hx hp => List.mem_append_left _ ?_⟩
          exact mem_spawn.2 ⟨w, hl, Task.ext_phase hx (by rw [← hp, h1]; rfl)⟩
        · exact Or.inl ⟨hwu, h1⟩
        · exact Or.inr ⟨Or.inr (by rw [h2]; exact id),
            fun x _ hp => absurd x.active (by rw [← hp, h1]; exact id)⟩
    · rw [hself, hph]; simp
    · rw [hself, hph]; simp
    · intro j
      rw [hsent u, if_pos rfl, sent_releasing hph]
      exact count_notify
    · intro w _ hwu
      rw [hsent w, if_neg hwu]
      rcases hmoved w hwu with ⟨-, h1, h2⟩ | ⟨-, h1 | ⟨h1, h2⟩⟩
      · rw [h1, h2]; exact ⟨rfl, rfl, rfl⟩
      · rw [h1]; exact ⟨rfl, rfl, rfl⟩
      · rw [h1, h2]; exact ⟨rfl, rfl, rfl⟩
  · refine .quiet (fun w _ => ?_) rfl
    by_cases hwu : w = u
    · subst hwu
      exact Or.inr (Or.inr ⟨by rw [hph]; trivial, Or.inr (by rw [hself]; trivial)⟩)
    · rcases hmoved w hwu with ⟨-, h1, h2⟩ | ⟨-, h1 | ⟨h1, h2⟩⟩
      · exact Or.inr (Or.inl ⟨by rw [h2]; exact id, by rw [h1]; exact id⟩)
      · exact Or.inl h1
      · exact Or.inr (Or.inl ⟨by rw [h2]; exact id, by rw [h1]; exact id⟩)

/-- One round of the loop in `run_output_nodes_if_ready`, or its end. -/
theorem Sim.step_output (hs : Sim g h s ph) (hA : Accepted g h es r) (hid : IdsOK g h)
    (hi : Dispatch.Inv g.nodes h.outs ph) {u : NodePtr} {i k : ℕ} {last : Option NodePtr}
    (ht : s.tasks[k]? = some (.output u i last)) :
    Follows g h B req ph s (Task.exec h B req { s with tasks := s.tasks.eraseIdx k } (.output u i last)) := by
  obtain ⟨hu, -⟩ := hs.of_task ht
  unfold Task.exec
  cases hout : (h u).outNodes[i]? with
  | none =>
    simp only [hout]
    exact hs.step_finish hi ht hout
  | some v =>
    have hv : v ∈ g.allNodes :=
      mem_nodes.1 (hA.outs_closed u (mem_nodes.2 hu) v (List.mem_of_getElem? hout))
    simp only [hout, hs.notify_eq hv]
    by_cases hr : remaining g.nodes h.outs ph v = 1
    · rw [if_pos (by simpa using hr), List.append_assoc]
      exact hs.step_ready hid hi ht hout hv hr
    · rw [if_neg (by simpa using hr)]
      exact hs.step_pass hid ht hout hv hr

/-- **Each step of a run is one step of the dispatch.** -/
theorem sim_step (hs : Sim g h s ph) (hA : Accepted g h es r) (hid : IdsOK g h)
    (hi : Dispatch.Inv g.nodes h.outs ph) {k : ℕ} (hstep : s.step h B req k = some s') :
    Follows g h B req ph s s' := by
  unfold RunState.step at hstep
  rw [hs.fault] at hstep
  simp only [Option.isSome_none, Bool.false_eq_true, if_false] at hstep
  cases ht : s.tasks[k]? with
  | none => rw [ht] at hstep; simp at hstep
  | some t =>
    rw [ht] at hstep
    simp only [Option.some.injEq] at hstep
    subst hstep
    have hfault := hs.fault
    cases t with
    | run u => have : Follows g h B req ph s _ := hs.step_run ht; rwa [hfault] at this
    | service u j => have : Follows g h B req ph s _ := hs.step_service ht; rwa [hfault] at this
    | callback u => have : Follows g h B req ph s _ := hs.step_callback ht; rwa [hfault] at this
    | output u i last =>
      have : Follows g h B req ph s _ := hs.step_output hA hid hi ht
      rwa [hfault] at this

end Graphize
