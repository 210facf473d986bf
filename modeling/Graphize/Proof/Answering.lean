import Graphize.Proof.Services
import Graphize.Proof.Runs

/-!
# Which nodes a graph of services runs

A service that comes to rest without having handed over is silent. In a graph that
`Graph::init` has accepted, whose services each hand over at most once:

* `Sim.silent`: when no task is left, a node is done, silent, or waits for a silent ancestor.
* `services_exact`: a run is finite, and ends with every node run once that has no silent
  ancestor, and no other.
-/

namespace Graphize

open EdgeList Dispatch Handover Threads

variable {ρ C γ σ : Type*} {g : Graph} {h : Heap} {es : List (NodePtr × NodePtr)} {r : NodePtr}
  {B : Behaviour ρ C} {req : ρ} {S : Services ρ γ σ}

/-- The service of `n` has been called and has not handed over. -/
def Silent (S : Services ρ γ σ) (s : System C γ σ) (n : NodePtr) : Prop :=
  ∃ x, (n, x) ∈ s.services ∧ S.calls x = 0

theorem mem_pending {services : List (NodePtr × σ)} {t : Task} :
    t ∈ pending S services ↔ ∃ n x, (n, x) ∈ services ∧ S.calls x = 0 ∧ t = .callback n := by
  unfold pending
  rw [List.mem_flatMap]
  constructor
  · rintro ⟨⟨n, x⟩, hp, ht⟩
    dsimp only at ht
    split at ht
    · rename_i h0
      exact ⟨n, x, hp, h0, List.mem_singleton.1 ht⟩
    · simp at ht
  · rintro ⟨n, x, hp, h0, rfl⟩
    exact ⟨(n, x), hp, by rw [if_pos h0]; exact List.mem_singleton_self _⟩

/-- A system in which every task can be done has none left when it cannot move. -/
theorem ShownBy.tasks_nil {N : NodePtr → ℕ} (hP : ∀ n g, Promises S.toService (N n) (S.doService req n g))
    {s : System C γ σ} {a : RunState C} {cs : List (List (γ × ℕ))} (hs : ShownBy S req s a cs)
    (hf : s.run.fault = none) (hst : Machine.Stuck (System.step h B S req) s) :
    s.run.tasks = [] ∧ ∀ p ∈ s.services, ∀ t, S.step s.shared p.2 t = none := by
  have hok : ¬(s.run.fault.isSome ∨ s.services.any (fun p => S.failed p.2)) := by
    rw [hf]
    rintro (h0 | h0)
    · cases h0
    · obtain ⟨p, hp, hbad⟩ := List.any_eq_true.1 h0
      obtain ⟨j, hj⟩ := List.getElem?_of_mem hp
      obtain ⟨c, -, hc⟩ := hs.service hj
      rw [hc.failed (hP p.1)] at hbad
      cases hbad
  constructor
  · have h0 := hst (.task 0)
    unfold System.step at h0
    rw [if_neg hok] at h0
    cases ht : s.run.tasks with
    | nil => rfl
    | cons t ts =>
      exfalso
      have hrun : (s.run.step h B req 0).isSome := by
        unfold RunState.step
        rw [if_neg (by rw [hf]; simp), ht]
        rfl
      dsimp only at h0
      split at h0
      · cases h0
      · rw [Option.map_eq_none_iff] at h0
        rw [h0] at hrun
        cases hrun
  · rintro ⟨n, x⟩ hp t
    obtain ⟨j, hj⟩ := List.getElem?_of_mem hp
    have h0 := hst (.service j t)
    unfold System.step at h0
    rw [if_neg hok] at h0
    simpa [hj] using h0

/-- **When no task is left**, what is silent is at its own work, and every other node is done
or waits for a silent ancestor. -/
theorem Sim.silent (hA : Accepted g h es r) {a : RunState C} {ph : NodePtr → Phase Work NodePtr}
    (hb : Behind g h a ph) {s : System C γ σ} (htasks : a.tasks.Perm (s.run.tasks ++ pending S s.services))
    (hnil : s.run.tasks = []) {v : NodePtr} (hv : v ∈ g.allNodes) :
    (Silent S s v → ph v = .running .callback) ∧
      (ph v = .done ∨ Silent S s v ∨ (ph v = .waiting ∧ ∃ a, Silent S s a ∧ Anc es a v)) := by
  rw [hnil, List.nil_append] at htasks
  have hcallback : ∀ n, Silent S s n → n ∈ g.allNodes ∧ ph n = .running .callback := by
    rintro n ⟨x, hx, h0⟩
    exact (hb.sim.tasks (.callback n)).1 (htasks.mem_iff.2 (mem_pending.2 ⟨n, x, hx, h0, rfl⟩))
  refine ⟨fun hs => (hcallback v hs).2, ?_⟩
  have hstalled := hb.inv.stalled (X := Silent S s) (fun u hu hact => ?_)
    (fun u hu => ⟨_, (hcallback u hu).2⟩) (fun T hT hne => ?_) v (mem_nodes.2 hv)
  · refine hstalled.imp_right (Or.imp_right fun hw => ⟨hw.1, ?_⟩)
    obtain ⟨-, b, hb, hbv⟩ := hw
    exact ⟨b, hb, Relation.TransGen.mono (fun x y hxy => hA.edge_iff.1 hxy.2.2) b v hbv⟩
  · obtain ⟨t, rfl, htp⟩ := exists_task u hact
    have ht := htasks.mem_iff.1 ((hb.sim.tasks t).2 ⟨mem_nodes.1 hu, htp.symm⟩)
    obtain ⟨n, x, hx, h0, rfl⟩ := mem_pending.1 ht
    exact ⟨x, hx, h0⟩
  · obtain ⟨m, hm, hmin⟩ := exists_minimal hA.accepts.acyclic T
      (fun v hv => (hA.mem v).1 (mem_nodes.1 (hT hv))) hne
    exact ⟨m, hm, fun b hb he => hmin b hb (hA.edge_iff.1 he)⟩

/-- An ancestor of a node that has stopped waiting has done its own work. -/
theorem Behind.released_of_anc (hA : Accepted g h es r) {a : RunState C} {ph : NodePtr → Phase Work NodePtr}
    (hb : Behind g h a ph) {u v : NodePtr} (hv : v ∈ g.allNodes) (hne : ph v ≠ .waiting) (hanc : Anc es u v) :
    (ph u).Released := by
  have hmem : ∀ {x y : NodePtr}, y ∈ g.allNodes → Edge es x y → x ∈ g.allNodes :=
    fun hy he => (hA.mem _).2 (hA.accepts.closed _ _ he ((hA.mem _).1 hy))
  refine hb.inv.released_of_anc ?_ hne
  clear hne
  induction hanc with
  | single he => exact .single ⟨mem_nodes.2 (hmem hv he), mem_nodes.2 hv, hA.edge_iff.2 he⟩
  | tail _ he ih =>
    have hb' := hmem hv he
    exact (ih hb').tail ⟨mem_nodes.2 hb', mem_nodes.2 hv, hA.edge_iff.2 he⟩

/-- What is known when a graph of services has come to rest. -/
structure AtRest (g : Graph) (es : List (NodePtr × NodePtr)) (S : Services ρ γ σ) (s : System C γ σ) : Prop where
  fault : s.run.fault = none
  tasks : s.run.tasks = []
  /-- A node that waits for a silent one is not run. -/
  cut : ∀ v ∈ g.allNodes, (∃ a, Silent S s a ∧ Anc es a v) → s.run.log.count (.start v) = 0
  /-- Every other node is run once. -/
  run : ∀ v ∈ g.allNodes, (∀ a, Silent S s a → ¬Anc es a v) → s.run.log.count (.start v) = 1
  /-- It hands over once, unless it is silent itself. -/
  finish : ∀ v ∈ g.allNodes, (∀ a, Silent S s a → ¬Anc es a v) → ¬Silent S s v →
    s.run.log.count (.skipped v) + s.run.log.count (.served v) = 1
  silent : ∀ v, Silent S s v → s.run.log.count (.skipped v) + s.run.log.count (.served v) = 0 ∧
    ∃ x, (v, x) ∈ s.services ∧ S.calls x = 0 ∧ ∀ t, S.step s.shared x t = none

theorem atRest_of_behind (hA : Accepted g h es r) {N : NodePtr → ℕ}
    (hP : ∀ n g, Promises S.toService (N n) (S.doService req n g)) {s : System C γ σ} {a : RunState C}
    {cs : List (List (γ × ℕ))} {ph : NodePtr → Phase Work NodePtr} (hs : ShownBy S req s a cs)
    (hb : Behind g h a ph) (hst : Machine.Stuck (System.step h B S req) s) : AtRest g es S s := by
  have hf : s.run.fault = none := hs.fault ▸ hb.sim.fault
  obtain ⟨hnil, hrest⟩ := hs.tasks_nil hP hf hst
  have hphase := fun {v} hv => Sim.silent (v := v) hA hb hs.tasks hnil hv
  have hmem : ∀ v, Silent S s v → v ∈ g.allNodes := by
    rintro v ⟨x, hx, h0⟩
    have := hs.tasks.mem_iff.2 (List.mem_append_right _ (mem_pending.2 ⟨v, x, hx, h0, rfl⟩))
    exact ((hb.sim.tasks (.callback v)).1 this).1
  -- a silent node has not released, so nothing below it has stopped waiting
  have hcut : ∀ v ∈ g.allNodes, (∃ a, Silent S s a ∧ Anc es a v) → ph v = .waiting := by
    rintro v hv ⟨u, hu, huv⟩
    by_contra hne
    have hrel := hb.released_of_anc hA hv hne huv
    rw [(hphase (hmem u hu)).1 hu] at hrel
    exact hrel
  refine ⟨hf, hnil, fun v hv hex => ?_, fun v hv hno => ?_, fun v hv hno hsil => ?_, fun v hsil => ?_⟩
  · rw [← hs.log, hb.sim.start v hv, hcut v hv hex]
    rfl
  · rw [← hs.log, hb.sim.start v hv]
    rcases (hphase hv).2 with hd | hsil | ⟨-, u, hu, huv⟩
    · rw [hd]; rfl
    · rw [(hphase hv).1 hsil]; rfl
    · exact absurd huv (hno u hu)
  · rw [← hs.log, hb.sim.finish v hv]
    rcases (hphase hv).2 with hd | hs' | ⟨-, u, hu, huv⟩
    · rw [hd]; rfl
    · exact absurd hs' hsil
    · exact absurd huv (hno u hu)
  · constructor
    · rw [← hs.log, hb.sim.finish v (hmem v hsil), (hphase (hmem v hsil)).1 hsil]
      rfl
    · obtain ⟨x, hx, h0⟩ := hsil
      exact ⟨x, hx, h0, hrest (v, x) hx⟩

/-! ## How long a run can be -/

/-- The services are nodes of the graph. -/
def Known (g : Graph) (S : Services ρ γ σ) (h : Heap) (req : ρ) (s : System C γ σ) : Prop :=
  ∃ a cs ph, ShownBy S req s a cs ∧ Behind g h a ph ∧ ∀ p ∈ s.services, p.1 ∈ g.allNodes

theorem Known.step (hA : Accepted g h es r) (hid : IdsOK g h) {N : NodePtr → ℕ}
    (hP : ∀ n g, Promises S.toService (N n) (S.doService req n g)) {s s' : System C γ σ} {choice : SystemChoice}
    (hs : Known g S h req s) (hstep : s.step h B S req choice = some s') : Known g S h req s' := by
  obtain ⟨a, cs, ph, hshow, hb, hmem⟩ := hs
  obtain ⟨bs, a', cs', hrun, hshow', -, -⟩ := shownBy_step hP hshow hstep
  obtain ⟨ph', hb'⟩ := Machine.run_inv (fun a => ∃ ph, Behind g h a ph)
    (fun a k a' ⟨ph, hb⟩ hk => by
      obtain ⟨ph', hb', -⟩ := behind_step hA hid hb hk
      exact ⟨ph', hb'⟩) bs a a' ⟨ph, hb⟩ hrun
  refine ⟨a', cs', ph', hshow', hb', fun p hp => ?_⟩
  -- a service is called by a task, and the tasks are those of nodes
  unfold System.step at hstep
  split at hstep
  · cases hstep
  cases choice with
  | task k =>
    dsimp only at hstep
    split at hstep
    · rename_i n hk
      simp only [Option.some.injEq] at hstep
      subst hstep
      rcases List.mem_append.1 hp with hp | hp
      · exact hmem p hp
      · rw [List.mem_singleton.1 hp]
        have ht := hshow.tasks.mem_iff.2 (List.mem_append_left _ (List.mem_of_getElem? hk))
        exact ((hb.sim.tasks (.callback n)).1 ht).1
    · obtain ⟨run, -, rfl⟩ := Option.map_eq_some_iff.1 hstep
      exact hmem p hp
  | service j t =>
    dsimp only at hstep
    split at hstep
    · cases hstep
    rename_i n x hj
    obtain ⟨⟨shared, x'⟩, -, rfl⟩ := Option.map_eq_some_iff.1 hstep
    rcases List.mem_or_eq_of_mem_set hp with hp | rfl
    · exact hmem p hp
    · exact hmem (n, x) (List.mem_of_getElem? hj)

/-- The steps of services whose nodes are in `l`. -/
theorem total_le_of_started {N : NodePtr → ℕ} (hP : ∀ n g, Promises S.toService (N n) (S.doService req n g))
    {l : List NodePtr} {services : List (NodePtr × σ)} {cs : List (List (γ × ℕ))}
    (hs : List.Forall₂ (Started S.toService (S.doService req)) services cs) (hl : ∀ p ∈ services, p.1 ∈ l) :
    total (fun _ => 1) cs ≤ services.length * (l.map N).sum := by
  induction hs with
  | nil => simp
  | @cons p c services cs h1 _ ih =>
    have hlen := h1.length_le (hP p.1)
    have hle : N p.1 ≤ (l.map N).sum :=
      List.single_le_sum (fun _ _ => Nat.zero_le _) _ (List.mem_map_of_mem (hl p List.mem_cons_self))
    have hone : weight (fun _ : γ × ℕ => 1) c = c.length := by simp [weight]
    have := ih fun p hp => hl p (List.mem_cons_of_mem _ hp)
    rw [total_cons, List.length_cons, Nat.succ_mul, hone]
    omega

/-- **A graph of services comes to rest**, and runs what has no silent ancestor. Whatever
the services promise for themselves, every run is finite; when it cannot go on no task is
left, every node without a silent ancestor has been run once, and no other. -/
theorem services_exact (hA : Accepted g h es r) (hid : IdsOK g h) {N : NodePtr → ℕ}
    (hP : ∀ n g, Promises S.toService (N n) (S.doService req n g)) (B : Behaviour ρ C) (shared : γ) :
    ∃ s₀, g.runServices h B shared = some s₀ ∧
      ∃ M, ∀ as s, Machine.run (System.step h B S req) s₀ as = some s →
        as.length ≤ M ∧ (Machine.Stuck (System.step h B S req) s → AtRest g es S s) := by
  obtain ⟨a₀, h0, -, hsim⟩ := sim_run (B := B) hA hid
  obtain ⟨M, hM⟩ := behind_run req hA hid h0
  refine ⟨{ run := a₀, shared := shared }, by unfold Graph.runServices; rw [h0]; rfl,
    M + M + M * (g.allNodes.map N).sum, fun as s hrun => ?_⟩
  obtain ⟨bs, a, cs, ha, hs, h1, h2⟩ := shownBy_run hP as _ s a₀ [] [] rfl (shownBy_init S req a₀ shared) hrun
  obtain ⟨hlen, ph, hb⟩ := hM bs a ha
  obtain ⟨a', cs', ph', hs', -, hmem⟩ := Machine.run_inv (Known g S h req)
    (fun _ _ _ hk hstep => hk.step hA hid hP hstep) as _ s
    ⟨a₀, [], _, shownBy_init S req a₀ shared, ⟨hA.inv_init, hsim⟩, by simp⟩ hrun
  refine ⟨?_, atRest_of_behind hA hP hs hb⟩
  have htotal := total_le_of_started hP hs.started hmem
  have hroot : a₀.tasks.countP Task.isCallback = 0 := by
    unfold Graph.run at h0
    rw [hA.root] at h0
    simp only [Option.some.injEq] at h0
    rw [← h0]
    rfl
  simp only [List.length_nil, total_nil, hroot] at h1 h2
  have hservices : s.services.length ≤ M := by omega
  have hmul := Nat.mul_le_mul_right (g.allNodes.map N).sum hservices
  omega

end Graphize
