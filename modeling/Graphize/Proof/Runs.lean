import Graphize.Proof.Dispatching
import Graphize.Lib.Machine

/-!
# Every run of an accepted graph

For every schedule of a run on a graph that `Graph::init` has accepted:

* `run_once`: the run is finite, and when nothing is left to execute every node has
  run once, every edge has been notified once and every counter is zero.
* `run_ordered`: in every state no node has been started twice, no counter is
  negative, and all ancestors of a started node have finished.
-/

namespace Graphize

open EdgeList Dispatch

variable {ρ C : Type*} {g : Graph} {h : Heap} {es : List (NodePtr × NodePtr)} {r : NodePtr}
  {B : Behaviour ρ C} {req : ρ} {s s' s₀ : RunState C}

/-- The dispatch state behind a run state, in its invariant. -/
structure Behind (g : Graph) (h : Heap) (s : RunState C) (ph : NodePtr → Phase Work NodePtr) : Prop where
  inv : Dispatch.Inv g.nodes h.outs ph
  sim : Sim g h s ph

theorem behind_step (hA : Accepted g h es r) (hid : IdsOK g h) {ph : NodePtr → Phase Work NodePtr}
    (hb : Behind g h s ph) {k : ℕ} (hstep : s.step h B req k = some s') :
    ∃ ph', Behind g h s' ph' ∧ Dispatches g h B req ph ph' := by
  obtain ⟨ph', hd, hs', -⟩ := sim_step hb.sim hA hid hb.inv hstep
  exact ⟨ph', ⟨hb.inv.step hA.outs_closed hd, hs'⟩, hd⟩

/-- **Every state of a run** has a dispatch state behind it, and the run is no longer
than the work at its start. -/
theorem behind_run (req : ρ) (hA : Accepted g h es r) (hid : IdsOK g h) (h0 : g.run h B = some s₀) :
    ∃ N, ∀ as s, Machine.run (RunState.step h B req) s₀ as = some s →
      as.length ≤ N ∧ ∃ ph, Behind g h s ph := by
  obtain ⟨s₁, h1, -, hsim⟩ := sim_run (B := B) hA hid
  rw [h0, Option.some.injEq] at h1
  subst h1
  refine ⟨Dispatch.cost g.nodes h.outs (workRank B req) (workTop B req)
    (fun v => if v = r then .queued else .waiting), fun as s hrun => ?_⟩
  obtain ⟨ph, hb, hle⟩ := Machine.run_ghost (Behind g h)
    (Dispatch.cost g.nodes h.outs (workRank B req) (workTop B req))
    (fun s k s' ph hb hstep => by
      obtain ⟨ph', hb', hd⟩ := behind_step hA hid hb hstep
      exact ⟨ph', hb', hd.cost_lt hb.inv hA.outs_closed⟩)
    as s₀ s _ ⟨hA.inv_init, hsim⟩ hrun
  exact ⟨le_trans (Nat.le_add_right _ _) hle, ph, hb⟩

/-- When nothing can be executed no task is left. -/
theorem Sim.tasks_nil {ph : NodePtr → Phase Work NodePtr} (hs : Sim g h s ph)
    (hst : Machine.Stuck (RunState.step h B req) s) : s.tasks = [] := by
  have h0 := hst 0
  unfold RunState.step at h0
  rw [hs.fault] at h0
  cases ht : s.tasks with
  | nil => rfl
  | cons t ts => rw [ht] at h0; simp at h0

/-- When no task is left every node is done. -/
theorem Behind.all_done (hA : Accepted g h es r) {ph : NodePtr → Phase Work NodePtr} (hb : Behind g h s ph)
    (ht : s.tasks = []) : ∀ v ∈ g.allNodes, ph v = .done := by
  have hdone := hb.inv.all_done (fun v hv hact => ?_) (fun S hS hne => ?_)
  · exact fun v hv => hdone v (mem_nodes.2 hv)
  · obtain ⟨t, rfl, htp⟩ := exists_task v hact
    have := (hb.sim.tasks t).2 ⟨mem_nodes.1 hv, htp.symm⟩
    rw [ht] at this
    simp at this
  · obtain ⟨m, hm, hmin⟩ := exists_minimal hA.accepts.acyclic S
      (fun v hv => (hA.mem v).1 (mem_nodes.1 (hS hv))) hne
    exact ⟨m, hm, fun a ha he => hmin a ha (hA.edge_iff.1 he)⟩

/-- Every index of `node_input_num_map` is the id of a node. -/
theorem IdsOK.exists_node (hid : IdsOK g h) (hnd : g.allNodes.Nodup) {j : ℕ} (hj : j < g.allNodes.length) :
    ∃ v ∈ g.allNodes, (h v).id = j := by
  have hnd' : (g.allNodes.map fun v => (h v).id).Nodup :=
    List.Nodup.map_on (fun a ha b hb => hid.inj a ha b hb) hnd
  have hsub : (g.allNodes.map fun v => (h v).id) ⊆ List.range g.allNodes.length := by
    intro x hx
    obtain ⟨v, hv, rfl⟩ := List.mem_map.1 hx
    exact List.mem_range.2 (hid.range v hv)
  have hperm := (hnd'.subperm hsub).perm_of_length_le (by simp)
  obtain ⟨v, hv, he⟩ := List.mem_map.1 (hperm.mem_iff.2 (List.mem_range.2 hj))
  exact ⟨v, hv, he⟩

/-- The counters are those of the nodes. -/
theorem Sim.counters {ph : NodePtr → Phase Work NodePtr} (hs : Sim g h s ph) (hA : Accepted g h es r)
    (hid : IdsOK g h) : ∀ x ∈ s.ctx.nodeInputNumMap, ∃ v ∈ g.allNodes,
      x = some (remaining g.nodes h.outs ph v : ℤ) := by
  intro x hx
  obtain ⟨j, hj, rfl⟩ := List.mem_iff_getElem.1 hx
  rw [hs.length] at hj
  obtain ⟨v, hv, rfl⟩ := hid.exists_node hA.nodup hj
  have := hs.counter v hv
  rw [List.getElem?_eq_getElem (by rw [hs.length]; exact hj), Option.some.injEq] at this
  exact ⟨v, hv, this⟩

theorem Sim.count_start_le {ph : NodePtr → Phase Work NodePtr} (hs : Sim g h s ph) (v : NodePtr) :
    s.log.count (.start v) ≤ 1 := by
  by_cases hv : v ∈ g.allNodes
  · rw [hs.start v hv]
    cases ph v <;> simp
  · rw [List.count_eq_zero.2 fun hm => hv (hs.events (.start v) hm)]
    exact Nat.zero_le _

/-- The edges `0 → 1, 2 → 3`. -/
def diamond : List (NodePtr × NodePtr) := [(0, 1), (0, 2), (1, 3), (2, 3)]

/-- Each node writes its address; node `1` is skipped. -/
def echo : Behaviour Unit NodePtr where
  createContext _ := 0
  skip n _ _ := (n = 1, none)
  doService n _ := [fun _ => some n]

/-- **A run of an accepted graph runs every node once.** Under every schedule the run
is finite; when nothing is left to execute, every node of `all_nodes` has been run
once, every edge has been notified once, and every counter is zero. -/
theorem run_once {h₀ : Heap} {fuel : ℕ} {g₀ : Graph} {name : Str} (hf : ∀ p, (h₀ p).Fresh)
    (hinit : g₀.init fuel (h₀.wire es) (some r) name = some (.ok (0, g, h))) (hid : IdsOK g h)
    (B : Behaviour ρ C) (req : ρ) :
    ∃ s₀, g.run h B = some s₀ ∧
      ∃ N, ∀ as s, Machine.run (RunState.step h B req) s₀ as = some s → as.length ≤ N ∧
        (Machine.Stuck (RunState.step h B req) s →
          s.fault = none ∧ s.tasks = [] ∧
          (∀ v ∈ g.allNodes, s.log.count (.start v) = 1 ∧
            ∀ i, s.log.count (.notify v i) = if i < (h v).outNodes.length then 1 else 0) ∧
          s.ctx.nodeInputNumMap.length = g.allNodes.length ∧ ∀ x ∈ s.ctx.nodeInputNumMap, x = some 0) := by
  have hA := accepted_of_init (wired_wire hf es) hinit
  obtain ⟨s₀, h0, -, -⟩ := sim_run (B := B) hA hid
  obtain ⟨N, hN⟩ := behind_run req hA hid h0
  refine ⟨s₀, h0, N, fun as s hrun => ?_⟩
  obtain ⟨hle, ph, hb⟩ := hN as s hrun
  refine ⟨hle, fun hst => ?_⟩
  have ht := hb.sim.tasks_nil hst
  have hdone := hb.all_done hA ht
  have hsent : ∀ v ∈ g.allNodes, sent h.outs ph v = (h v).outNodes.length := by
    intro v hv
    unfold sent
    rw [hdone v hv]
    rfl
  refine ⟨hb.sim.fault, ht, fun v hv => ⟨?_, fun i => ?_⟩, hb.sim.length, fun x hx => ?_⟩
  · rw [hb.sim.start v hv, hdone v hv]; rfl
  · rw [hb.sim.notify v hv i, hsent v hv]
  · obtain ⟨v, hv, rfl⟩ := hb.sim.counters hA hid x hx
    rw [hb.inv.remaining_zero (mem_nodes.2 hv) (by rw [hdone v hv]; simp)]
    rfl

/-- `Graph::init` accepts it, and node `3` starts in some run. -/
theorem diamond_runs :
    ∃ g h, Graph.init 9 { maxNodeId := 4 } (Heap.wire (fun p => { id := p }) diamond) (some 0) [] =
        some (.ok (0, g, h)) ∧ IdsOK g h ∧ 3 ∈ g.allNodes ∧
      ∃ s₀ s, g.run h echo = some s₀ ∧
        Machine.run (RunState.step h echo ()) s₀ [0, 0, 0, 0, 0, 0, 0, 0, 0, 0, 0, 0, 0, 0, 0] = some s ∧
        .start 3 ∈ s.log :=
  ⟨_, _, rfl, ⟨by decide, by decide, by decide⟩, by decide, _, _, rfl, rfl, by decide⟩

theorem run_once_diamond :
    ∃ g h, Graph.init 9 { maxNodeId := 4 } (Heap.wire (fun p => { id := p }) diamond) (some 0) [] =
        some (.ok (0, g, h)) ∧
      ∃ s₀, g.run h echo = some s₀ ∧
        ∃ N, ∀ as s, Machine.run (RunState.step h echo ()) s₀ as = some s → as.length ≤ N ∧
          (Machine.Stuck (RunState.step h echo ()) s → s.log.count (.start 3) = 1) := by
  obtain ⟨g, h, hinit, hid, h3, -⟩ := diamond_runs
  obtain ⟨s₀, h0, N, hN⟩ := run_once (fun _ => ⟨rfl, rfl, rfl⟩) hinit hid echo ()
  refine ⟨g, h, hinit, s₀, h0, N, fun as s hrun => ?_⟩
  obtain ⟨hle, hstuck⟩ := hN as s hrun
  exact ⟨hle, fun hst => ((hstuck hst).2.2.1 3 h3).1⟩

/-- **No node starts early or twice.** In every state of every run of an accepted
graph. -/
theorem run_ordered {h₀ : Heap} {fuel : ℕ} {g₀ : Graph} {name : Str} (hf : ∀ p, (h₀ p).Fresh)
    (hinit : g₀.init fuel (h₀.wire es) (some r) name = some (.ok (0, g, h))) (hid : IdsOK g h)
    (B : Behaviour ρ C) (req : ρ) (h0 : g.run h B = some s₀) {as : List ℕ}
    (hrun : Machine.run (RunState.step h B req) s₀ as = some s) :
    (∀ v, s.log.count (.start v) ≤ 1) ∧
      (∀ x ∈ s.ctx.nodeInputNumMap, ∃ n : ℤ, x = some n ∧ 0 ≤ n) ∧
      ∀ v, .start v ∈ s.log → ∀ a, Anc es a v → .skipped a ∈ s.log ∨ .served a ∈ s.log := by
  have hA := accepted_of_init (wired_wire hf es) hinit
  obtain ⟨N, hN⟩ := behind_run req hA hid h0
  obtain ⟨-, ph, hb⟩ := hN as s hrun
  refine ⟨hb.sim.count_start_le, fun x hx => ?_, fun v hv a ha => ?_⟩
  · obtain ⟨v, -, rfl⟩ := hb.sim.counters hA hid x hx
    exact ⟨_, rfl, Int.natCast_nonneg _⟩
  · have hvm : v ∈ g.allNodes := hb.sim.events _ hv
    have hvr := (hA.mem v).1 hvm
    have hstart := hb.sim.start v hvm
    have hpos := List.count_pos_iff.2 hv
    have hne : ph v ≠ .waiting := by
      intro hw
      rw [hw] at hstart
      simp only [startCount] at hstart
      omega
    -- the ancestors of a node of `all_nodes` are in `all_nodes`
    have hanc : ∀ {x y : NodePtr}, Reach es r y → Edge es x y → x ∈ g.allNodes :=
      fun hy he => (hA.mem _).2 (hA.accepts.closed _ _ he hy)
    have hrel : (ph a).Released := by
      refine hb.inv.released_of_anc ?_ hne
      clear hstart hpos hne hv
      induction ha with
      | single he =>
        exact .single ⟨mem_nodes.2 (hanc hvr he), mem_nodes.2 hvm, hA.edge_iff.2 he⟩
      | tail _ he ih =>
        have hb' := hanc hvr he
        exact (ih hb' ((hA.mem _).1 hb')).tail ⟨mem_nodes.2 hb', mem_nodes.2 hvm, hA.edge_iff.2 he⟩
    have ham := (hA.mem a).2 (hA.accepts.closed.anc hvr ha)
    have hfin := hb.sim.finish a ham
    cases hp : ph a with
    | releasing i last =>
      rw [hp] at hfin
      simp only [finishCount] at hfin
      by_cases hs : 0 < s.log.count (.skipped a)
      · exact Or.inl (List.count_pos_iff.1 hs)
      · exact Or.inr (List.count_pos_iff.1 (by omega))
    | done =>
      rw [hp] at hfin
      simp only [finishCount] at hfin
      by_cases hs : 0 < s.log.count (.skipped a)
      · exact Or.inl (List.count_pos_iff.1 hs)
      · exact Or.inr (List.count_pos_iff.1 (by omega))
    | waiting => rw [hp] at hrel; exact absurd hrel id
    | held => rw [hp] at hrel; exact absurd hrel id
    | queued => rw [hp] at hrel; exact absurd hrel id
    | running w => rw [hp] at hrel; exact absurd hrel id

theorem run_ordered_diamond :
    ∃ g h, Graph.init 9 { maxNodeId := 4 } (Heap.wire (fun p => { id := p }) diamond) (some 0) [] =
        some (.ok (0, g, h)) ∧
      ∃ s₀ s, g.run h echo = some s₀ ∧
        (∃ as, Machine.run (RunState.step h echo ()) s₀ as = some s) ∧ .start 3 ∈ s.log ∧
        (∀ v, s.log.count (.start v) ≤ 1) ∧ (.skipped 1 ∈ s.log ∨ .served 1 ∈ s.log) := by
  obtain ⟨g, h, hinit, hid, -, s₀, s, h0, hrun, h3⟩ := diamond_runs
  obtain ⟨h1, -, h2⟩ := run_ordered (fun _ => ⟨rfl, rfl, rfl⟩) hinit hid echo () h0 hrun
  exact ⟨g, h, hinit, s₀, s, h0, ⟨_, hrun⟩, h3, h1, h2 3 h3 1 (.single (by decide))⟩

end Graphize
