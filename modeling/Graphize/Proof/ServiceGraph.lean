import Graphize.Proof.ServiceClasses

/-!
# Graphs of the repository's services

The classes of `service/base` put into a graph that `Graph::init` has accepted. Each class
hands over at most once (`ServiceClass.Sound`), with the cache shared by all nodes:

* `service_graph_refines`: every run is a run of the graph of `Spec/Run`.
* `service_graph_ordered`: so no node starts twice or before its ancestors have handed over.
* `service_graph_exact`: it comes to rest, and what has been run is decided by the classes
  that never hand over.
* `service_graph_completes`: when there are none, every node is run once.
-/

namespace Graphize

open EdgeList Dispatch Handover Threads

universe u

variable {ρ : Type u} {C : Type*} {g : Graph} {h : Heap} {es : List (NodePtr × NodePtr)} {r : NodePtr}
  {B : Behaviour ρ C} {req : ρ} {downstreamMap : DownstreamMap} {classOf : NodePtr → ServiceClass ρ}
  {s₀ : RunState C} {cache : Cache} {s : System C Cache (ServiceState ρ)}

/-- The run behind every state of a graph of services. -/
theorem exists_shownBy (hc : ∀ n, (classOf n).Sound downstreamMap req) {as : List SystemChoice}
    (hrun : Machine.run (System.step h B (serviceClasses downstreamMap classOf) req)
      { run := s₀, shared := cache } as = some s) :
    ∃ bs a cs, Machine.run (RunState.step h B req) s₀ bs = some a ∧
      ShownBy (serviceClasses downstreamMap classOf) req s a cs := by
  obtain ⟨bs, a, cs, ha, hs, -, -⟩ := shownBy_run (N := fun n => (classOf n).bound req)
    (fun n c => promises_class n (hc n) c) as _ s s₀ [] [] rfl (shownBy_init _ req s₀ cache) hrun
  exact ⟨bs, a, cs, ha, hs⟩

/-- **A graph of services is a run of the graph**: whatever the threads of its services do,
in whatever order, the contexts, the counters and the log are those of a run in which every
`io` node hands over at some moment, and the services that have not are its callbacks. -/
theorem service_graph_refines (hc : ∀ n, (classOf n).Sound downstreamMap req) {as : List SystemChoice}
    (hrun : Machine.run (System.step h B (serviceClasses downstreamMap classOf) req)
      { run := s₀, shared := cache } as = some s) :
    ∃ bs a, Machine.run (RunState.step h B req) s₀ bs = some a ∧ a.ctx = s.run.ctx ∧ a.log = s.run.log ∧
      a.fault = s.run.fault ∧
      a.tasks.Perm (s.run.tasks ++ pending (serviceClasses downstreamMap classOf) s.services) := by
  obtain ⟨bs, a, cs, ha, hs⟩ := exists_shownBy hc hrun
  exact ⟨bs, a, ha, hs.ctx, hs.log, hs.fault, hs.tasks⟩

/-- Four `io` nodes, none of which is skipped. -/
def ioHeap : Heap := fun p => { id := p, type := .io }

def unskipped : Behaviour Unit NodePtr where
  createContext _ := 0
  skip _ _ _ := (false, none)
  doService _ _ := []

/-- A single channel. -/
def oneTransport : DownstreamMap := [("transport".toList, {})]

/-- A service without slices, one that fetches keys, and three that call a channel. -/
def mixedClasses : NodePtr → ServiceClass Unit
  | 1 => .concurrent fun _ => 0
  | 2 => .redis sampleEnv [sampleInfo] fun _ => sampleBackend
  | _ => .brpc "transport".toList fun _ => callMethod true

theorem mixedClasses_sound (n : NodePtr) : (mixedClasses n).Sound oneTransport () := by
  have hredis : Answerable sampleEnv [sampleInfo] () sampleBackend := by
    refine ⟨sampleEnv_noThrow.cachedNoThrow, sampleEnv_batchSize, fun _ _ _ => by simp [sampleBackend], ?_, ?_⟩
    · intro c j i info hb
      have hlen : 0 < (info.batch sampleEnv i).length := by
        unfold FetchInfo.batch
        rw [List.length_take, List.length_drop]
        have := hb.2.2.2
        have hstep := info.step_pos sampleEnv_batchSize hb.2.1.keys
        omega
      exact hlen
    · exact fun _ _ _ _ _ => rfl
  unfold mixedClasses
  split
  · exact (by decide : (0 : ℕ) < 2 ^ 31)
  · exact hredis
  · exact fun _ => le_rfl

/-- How the threads of a run of `ioHeap` along `diamond` take turns until nothing can go on. -/
def mixedRun : List SystemChoice :=
  List.replicate 3 (.task 0) ++ List.replicate 3 (.service 0 0) ++ List.replicate 2 (.service 0 1) ++
    List.replicate 9 (.task 0) ++ List.replicate 2 (.service 1 0) ++ List.replicate 5 (.service 2 0) ++
    List.replicate 3 (.service 2 1) ++ List.replicate 6 (.service 2 2) ++ [.task 0, .task 0, .service 2 2]

theorem mixed_runs :
    ∃ g h, Graph.init 9 { maxNodeId := 4 } (Heap.wire ioHeap diamond) (some 0) [] = some (.ok (0, g, h)) ∧
      IdsOK g h ∧ g.allNodes = [0, 1, 2, 3] ∧ ∃ s₀ s, g.run h unskipped = some s₀ ∧
        Machine.run (System.step h unskipped (serviceClasses oneTransport mixedClasses) ())
          { run := s₀, shared := fun _ => none } mixedRun = some s ∧
        Machine.Stuck (System.step h unskipped (serviceClasses oneTransport mixedClasses) ()) s ∧
        .start 2 ∈ s.run.log ∧ .notify 2 0 ∈ s.run.log ∧ ∃ x, (1, x) ∈ s.services := by
  refine ⟨_, _, rfl, ⟨by decide, by decide, by decide⟩, rfl, _, _, rfl, rfl, fun choice => ?_, by decide, by decide,
    _, List.mem_cons_of_mem _ List.mem_cons_self⟩
  rcases choice with k | ⟨j, t⟩
  · rfl
  · rcases j with _ | _ | _ | j
    · rcases t with _ | _ | t <;> rfl
    · rcases t with _ | t <;> rfl
    · rcases t with _ | _ | _ | t <;> rfl
    · rfl

/-- The run behind the run to the end. -/
theorem service_graph_refines_mixed :
    ∃ g h, Graph.init 9 { maxNodeId := 4 } (Heap.wire ioHeap diamond) (some 0) [] = some (.ok (0, g, h)) ∧
      ∃ s₀ bs a, g.run h unskipped = some s₀ ∧ Machine.run (RunState.step h unskipped ()) s₀ bs = some a ∧
        .notify 2 0 ∈ a.log := by
  obtain ⟨g, h, hinit, -, -, s₀, s, h0, hrun, -, -, hn, -⟩ := mixed_runs
  obtain ⟨bs, a, ha, -, hlog, -⟩ := service_graph_refines mixedClasses_sound hrun
  exact ⟨g, h, hinit, s₀, bs, a, h0, ha, by rw [hlog]; exact hn⟩

/-- No service has crashed. -/
theorem crashed_of_run (hc : ∀ n, (classOf n).Sound downstreamMap req) {as : List SystemChoice}
    (hrun : Machine.run (System.step h B (serviceClasses downstreamMap classOf) req)
      { run := s₀, shared := cache } as = some s) : ∀ p ∈ s.services, p.2.crashed = false := by
  intro p hp
  obtain ⟨bs, a, cs, -, hs⟩ := exists_shownBy hc hrun
  obtain ⟨j, hj⟩ := List.getElem?_of_mem hp
  obtain ⟨c, -, hstarted⟩ := hs.service hj
  exact hstarted.failed fun cache => promises_class p.1 (hc p.1) cache

/-- No node of a graph of services starts early or twice. -/
theorem ordered_of_accepted (hA : Accepted g h es r) (hid : IdsOK g h) (hc : ∀ n, (classOf n).Sound downstreamMap req)
    (h0 : g.run h B = some s₀) {as : List SystemChoice}
    (hrun : Machine.run (System.step h B (serviceClasses downstreamMap classOf) req)
      { run := s₀, shared := cache } as = some s) :
    s.run.fault = none ∧ (∀ p ∈ s.services, p.2.crashed = false) ∧ (∀ v, s.run.log.count (.start v) ≤ 1) ∧
      (∀ x ∈ s.run.ctx.nodeInputNumMap, ∃ n : ℤ, x = some n ∧ 0 ≤ n) ∧
      ∀ v, .start v ∈ s.run.log → ∀ a, Anc es a v → .skipped a ∈ s.run.log ∨ .served a ∈ s.run.log := by
  obtain ⟨bs, a, cs, ha, hs⟩ := exists_shownBy hc hrun
  obtain ⟨N, hN⟩ := behind_run req hA hid h0
  obtain ⟨-, ph, hb⟩ := hN bs a ha
  rw [← hs.fault, ← hs.ctx, ← hs.log]
  refine ⟨hb.sim.fault, crashed_of_run hc hrun, hb.sim.count_start_le, fun x hx => ?_, fun v hv b hbv => ?_⟩
  · obtain ⟨v, -, rfl⟩ := hb.sim.counters hA hid x hx
    exact ⟨_, rfl, Int.natCast_nonneg _⟩
  · have hvm : v ∈ g.allNodes := hb.sim.events _ hv
    have hstart := hb.sim.start v hvm
    have hpos := List.count_pos_iff.2 hv
    have hne : ph v ≠ .waiting := by
      intro hw
      rw [hw] at hstart
      simp only [startCount] at hstart
      omega
    have hrel := hb.released_of_anc hA hvm hne hbv
    have hbm : b ∈ g.allNodes := (hA.mem b).2 (hA.accepts.closed.anc ((hA.mem v).1 hvm) hbv)
    have hfin := hb.sim.finish b hbm
    have hone : finishCount (ph b) = 1 := by
      cases hp : ph b <;> rw [hp] at hrel <;> first | rfl | exact absurd hrel id
    rw [hone] at hfin
    by_cases hskip : 0 < a.log.count (.skipped b)
    · exact Or.inl (List.count_pos_iff.1 hskip)
    · exact Or.inr (List.count_pos_iff.1 (by omega))

/-- **No node of a graph of services starts early or twice**, and nothing has crashed. -/
theorem service_graph_ordered {h₀ : Heap} {fuel : ℕ} {g₀ : Graph} {name : Str} (hf : ∀ p, (h₀ p).Fresh)
    (hinit : g₀.init fuel (h₀.wire es) (some r) name = some (.ok (0, g, h))) (hid : IdsOK g h)
    (hc : ∀ n, (classOf n).Sound downstreamMap req) (h0 : g.run h B = some s₀) {as : List SystemChoice}
    (hrun : Machine.run (System.step h B (serviceClasses downstreamMap classOf) req)
      { run := s₀, shared := cache } as = some s) :
    s.run.fault = none ∧ (∀ p ∈ s.services, p.2.crashed = false) ∧ (∀ v, s.run.log.count (.start v) ≤ 1) ∧
      (∀ x ∈ s.run.ctx.nodeInputNumMap, ∃ n : ℤ, x = some n ∧ 0 ≤ n) ∧
      ∀ v, .start v ∈ s.run.log → ∀ a, Anc es a v → .skipped a ∈ s.run.log ∨ .served a ∈ s.run.log :=
  ordered_of_accepted (accepted_of_init (wired_wire hf es) hinit) hid hc h0 hrun

theorem service_graph_ordered_mixed :
    ∃ g h, Graph.init 9 { maxNodeId := 4 } (Heap.wire ioHeap diamond) (some 0) [] = some (.ok (0, g, h)) ∧
      ∃ s₀ s, g.run h unskipped = some s₀ ∧
        Machine.run (System.step h unskipped (serviceClasses oneTransport mixedClasses) ())
          { run := s₀, shared := fun _ => none } mixedRun = some s ∧
        .start 2 ∈ s.run.log ∧ (.skipped 0 ∈ s.run.log ∨ .served 0 ∈ s.run.log) := by
  obtain ⟨g, h, hinit, hid, -, s₀, s, h0, hrun, -, h2, -, -⟩ := mixed_runs
  obtain ⟨-, -, -, -, hanc⟩ := service_graph_ordered (fun _ => ⟨rfl, rfl, rfl⟩) hinit hid mixedClasses_sound h0 hrun
  exact ⟨g, h, hinit, s₀, s, h0, hrun, h2, hanc 2 h2 0 (.single (by decide))⟩

/-- **What a graph of services runs.** Every run is finite. Where nothing can go on, a
service has handed over exactly if its class does for this request, and every node is run
once that has no ancestor whose service has not; the others are not run. -/
theorem service_graph_exact {h₀ : Heap} {fuel : ℕ} {g₀ : Graph} {name : Str} (hf : ∀ p, (h₀ p).Fresh)
    (hinit : g₀.init fuel (h₀.wire es) (some r) name = some (.ok (0, g, h))) (hid : IdsOK g h)
    (hc : ∀ n, (classOf n).Sound downstreamMap req) (B : Behaviour ρ C) (cache : Cache) :
    ∃ s₀, g.runServices h B cache = some s₀ ∧
      ∃ M, ∀ as s, Machine.run (System.step h B (serviceClasses downstreamMap classOf) req) s₀ as = some s →
        as.length ≤ M ∧
        (Machine.Stuck (System.step h B (serviceClasses downstreamMap classOf) req) s →
          AtRest g es (serviceClasses downstreamMap classOf) s ∧
          ∀ n x, (n, x) ∈ s.services →
            x.outputs ≤ 1 ∧ (x.outputs = 1 ↔ (classOf n).Replies downstreamMap req)) := by
  have hP := fun n c => promises_class n (hc n) c
  have hA := accepted_of_init (wired_wire hf es) hinit
  obtain ⟨s₀, h0, M, hM⟩ := services_exact hA hid (N := fun n => (classOf n).bound req) hP B cache
  refine ⟨s₀, h0, M, fun as s hrun => ?_⟩
  obtain ⟨hlen, hrest⟩ := hM as s hrun
  refine ⟨hlen, fun hst => ⟨hrest hst, fun n x hx => ?_⟩⟩
  obtain ⟨a₀, -, rfl⟩ := Option.map_eq_some_iff.1 h0
  obtain ⟨bs, a, cs, -, hs⟩ := exists_shownBy hc hrun
  obtain ⟨j, hj⟩ := List.getElem?_of_mem hx
  obtain ⟨c, -, hstarted⟩ := hs.service hj
  have hknown := known_started hc hstarted
  exact ⟨(hknown.sound (classOf n) (hc n)).1,
    hknown.rest (classOf n) (hc n) ((hs.tasks_nil hP (hrest hst).fault hst).2 (n, x) hx)⟩

/-- Node `1` never hands over, and node `3` is not run. -/
theorem service_graph_exact_mixed :
    ∃ g h, Graph.init 9 { maxNodeId := 4 } (Heap.wire ioHeap diamond) (some 0) [] = some (.ok (0, g, h)) ∧
      ∃ s₀ s, g.runServices h unskipped (fun _ => none) = some s₀ ∧
        Machine.run (System.step h unskipped (serviceClasses oneTransport mixedClasses) ()) s₀ mixedRun = some s ∧
        s.run.log.count (.start 3) = 0 := by
  obtain ⟨g, h, hinit, hid, hall, a₀, s, ha₀, hrun, hst, -, -, x, hx⟩ := mixed_runs
  obtain ⟨s₀, h0, M, hM⟩ := service_graph_exact (fun _ => ⟨rfl, rfl, rfl⟩) hinit hid mixedClasses_sound unskipped
    (fun _ => none)
  obtain rfl : { run := a₀, shared := fun _ => none } = s₀ := by
    unfold Graph.runServices at h0
    rw [ha₀] at h0
    exact Option.some.inj h0
  obtain ⟨-, hrest⟩ := hM _ s hrun
  obtain ⟨hrest, hcalls⟩ := hrest hst
  obtain ⟨hle, hiff⟩ := hcalls 1 x hx
  have hzero : x.outputs = 0 := by
    have hno : x.outputs ≠ 1 := fun h1 => hiff.1 h1 rfl
    omega
  refine ⟨g, h, hinit, _, s, h0, hrun, ?_⟩
  exact hrest.cut 3 (by rw [hall]; decide) ⟨1, ⟨x, hx, hzero⟩, .single (by decide)⟩

/-- The nodes of a graph of services that all hand over. -/
theorem completes_of_accepted (hA : Accepted g h es r) (hid : IdsOK g h)
    (hc : ∀ n, (classOf n).Sound downstreamMap req) (hreply : ∀ n, (classOf n).Replies downstreamMap req)
    (B : Behaviour ρ C) (cache : Cache) :
    ∃ s₀, g.runServices h B cache = some s₀ ∧
      ∃ M, ∀ as s, Machine.run (System.step h B (serviceClasses downstreamMap classOf) req) s₀ as = some s →
        as.length ≤ M ∧
        (Machine.Stuck (System.step h B (serviceClasses downstreamMap classOf) req) s →
          s.run.fault = none ∧ s.run.tasks = [] ∧
          (∀ v ∈ g.allNodes, s.run.log.count (.start v) = 1 ∧
            ∀ i, s.run.log.count (.notify v i) = if i < (h v).outNodes.length then 1 else 0) ∧
          ∀ x ∈ s.run.ctx.nodeInputNumMap, x = some 0) := by
  have hP := fun n c => promises_class n (hc n) c
  obtain ⟨s₀, h0, M, hM⟩ := services_exact hA hid (N := fun n => (classOf n).bound req) hP B cache
  refine ⟨s₀, h0, M, fun as s hrun => ?_⟩
  obtain ⟨hlen, hrest⟩ := hM as s hrun
  refine ⟨hlen, fun hst => ?_⟩
  obtain ⟨a₀, ha₀, rfl⟩ := Option.map_eq_some_iff.1 h0
  obtain ⟨bs, a, cs, ha, hs⟩ := exists_shownBy hc hrun
  obtain ⟨N, hN⟩ := behind_run req hA hid ha₀
  obtain ⟨-, ph, hb⟩ := hN bs a ha
  have hatRest := hrest hst
  -- every service has handed over, so the run behind has nothing left
  have hnil : a.tasks = [] := by
    have hperm := hs.tasks
    rw [hatRest.tasks, List.nil_append] at hperm
    refine List.eq_nil_iff_forall_not_mem.2 fun t ht => ?_
    obtain ⟨n, x, hx, hcalls, -⟩ := mem_pending.1 (hperm.mem_iff.1 ht)
    obtain ⟨j, hj⟩ := List.getElem?_of_mem hx
    obtain ⟨c, -, hstarted⟩ := hs.service hj
    have hone := ((known_started hc hstarted).rest (classOf n) (hc n)
      ((hs.tasks_nil hP hatRest.fault hst).2 (n, x) hx)).2 (hreply n)
    have hzero : x.outputs = 0 := hcalls
    dsimp only at hone
    omega
  have hdone := hb.all_done hA hnil
  have hsent : ∀ v ∈ g.allNodes, sent h.outs ph v = (h v).outNodes.length := by
    intro v hv
    unfold sent
    rw [hdone v hv]
    rfl
  rw [← hs.log, ← hs.ctx]
  refine ⟨hatRest.fault, hatRest.tasks, fun v hv => ⟨?_, fun i => ?_⟩, fun x hx => ?_⟩
  · rw [hb.sim.start v hv, hdone v hv]; rfl
  · rw [hb.sim.notify v hv i, hsent v hv]
  · obtain ⟨v, hv, rfl⟩ := hb.sim.counters hA hid x hx
    rw [hb.inv.remaining_zero (mem_nodes.2 hv) (by rw [hdone v hv]; simp)]
    rfl

/-- **A graph of services that all hand over runs every node once**, notifies every edge
once and leaves every counter at 0. -/
theorem service_graph_completes {h₀ : Heap} {fuel : ℕ} {g₀ : Graph} {name : Str} (hf : ∀ p, (h₀ p).Fresh)
    (hinit : g₀.init fuel (h₀.wire es) (some r) name = some (.ok (0, g, h))) (hid : IdsOK g h)
    (hc : ∀ n, (classOf n).Sound downstreamMap req) (hreply : ∀ n, (classOf n).Replies downstreamMap req)
    (B : Behaviour ρ C) (cache : Cache) :
    ∃ s₀, g.runServices h B cache = some s₀ ∧
      ∃ M, ∀ as s, Machine.run (System.step h B (serviceClasses downstreamMap classOf) req) s₀ as = some s →
        as.length ≤ M ∧
        (Machine.Stuck (System.step h B (serviceClasses downstreamMap classOf) req) s →
          s.run.fault = none ∧ s.run.tasks = [] ∧
          (∀ v ∈ g.allNodes, s.run.log.count (.start v) = 1 ∧
            ∀ i, s.run.log.count (.notify v i) = if i < (h v).outNodes.length then 1 else 0) ∧
          ∀ x ∈ s.run.ctx.nodeInputNumMap, x = some 0) :=
  completes_of_accepted (accepted_of_init (wired_wire hf es) hinit) hid hc hreply B cache

/-- Two slices for node `1`, and a transport that is missing for the others. -/
def replyingClasses : NodePtr → ServiceClass Unit
  | 1 => .concurrent fun _ => 2
  | 2 => .redis sampleEnv [sampleInfo] fun _ => sampleBackend
  | _ => .http "missing".toList

theorem replyingClasses_sound (n : NodePtr) : (replyingClasses n).Sound oneTransport () := by
  have hredis := mixedClasses_sound 2
  unfold replyingClasses
  split
  · exact (by decide : (2 : ℕ) < 2 ^ 31)
  · exact hredis
  · trivial

theorem service_graph_completes_mixed :
    ∃ g h, Graph.init 9 { maxNodeId := 4 } (Heap.wire ioHeap diamond) (some 0) [] = some (.ok (0, g, h)) ∧
      ∃ s₀, g.runServices h unskipped (fun _ => none) = some s₀ ∧
        ∃ M, ∀ as s,
          Machine.run (System.step h unskipped (serviceClasses oneTransport replyingClasses) ()) s₀ as = some s →
          as.length ≤ M ∧
          (Machine.Stuck (System.step h unskipped (serviceClasses oneTransport replyingClasses) ()) s →
            s.run.log.count (.start 3) = 1) := by
  obtain ⟨g, h, hinit, hid, hall, -⟩ := mixed_runs
  obtain ⟨s₀, h0, M, hM⟩ := service_graph_completes (fun _ => ⟨rfl, rfl, rfl⟩) hinit hid replyingClasses_sound
    (fun n => by
      unfold replyingClasses
      split
      · exact (by decide : (2 : ℕ) ≠ 0)
      · trivial
      · trivial) unskipped (fun _ => none)
  refine ⟨g, h, hinit, s₀, h0, M, fun as s hrun => ?_⟩
  obtain ⟨hlen, hrest⟩ := hM as s hrun
  exact ⟨hlen, fun hst => ((hrest hst).2.2.1 3 (by rw [hall]; decide)).1⟩

end Graphize
