import Graphize.Proof.Wiring
import Mathlib.Data.Finset.Card
import Mathlib.Algebra.BigOperators.Group.Finset.Basic
import Mathlib.Algebra.Order.BigOperators.Group.Finset

/-!
# `Graph::init` accepts exactly the schedulable graphs

* `walk_spec`, `walk_total`: the walk ends, with every node the root reaches listed
  once.
* `visit_foldl`: what deleting one node does to the counters and the queue.
* `kahn_spec`, `kahn_total`: Kahn's deletion ends; a node is deleted when all its
  inputs come from deleted nodes, in topological order.
* `init_sound`, `init_total`: `Graph::init` returns `0` exactly on `Accepts`.
-/

namespace Graphize

open EdgeList Relation

variable {h : Heap} {es : List (NodePtr × NodePtr)} {r : NodePtr}

/-- The root has no input, the part it reaches is acyclic, and nothing outside that
part feeds it. -/
structure Accepts (es : List (NodePtr × NodePtr)) (r : NodePtr) : Prop where
  root : ∀ a, ¬Edge es a r
  acyclic : AcyclicFrom es r
  closed : ClosedFrom es r

/-- The root and every head of an edge: the addresses either loop can meet. -/
def addrs (es : List (NodePtr × NodePtr)) (r : NodePtr) : Finset NodePtr :=
  insert r (es.map Prod.snd).toFinset

theorem root_mem_addrs : r ∈ addrs es r := Finset.mem_insert_self _ _

theorem head_mem_addrs {a b : NodePtr} (he : Edge es a b) : b ∈ addrs es r := by
  unfold addrs Edge at *
  rw [Finset.mem_insert, List.mem_toFinset, List.mem_map]
  exact Or.inr ⟨(a, b), he, rfl⟩

theorem reach_mem_addrs {v : NodePtr} (hv : Reach es r v) : v ∈ addrs es r := by
  rcases hv.cases_tail with h0 | ⟨a, -, he⟩
  · rw [← h0]; exact root_mem_addrs
  · exact head_mem_addrs he

/-! ## The walk -/

/-- The invariant of the walk. -/
structure WalkInv (es : List (NodePtr × NodePtr)) (r : NodePtr) (w : Walk) : Prop where
  set : ∀ v, v ∈ w.set ↔ v ∈ w.allNodes
  nodup : w.allNodes.Nodup
  queue : ∀ v ∈ w.q, Reach es r v
  sound : ∀ v ∈ w.allNodes, Reach es r v
  closed : ∀ v ∈ w.allNodes, ∀ b, Edge es v b → b ∈ w.allNodes ∨ b ∈ w.q
  root : r ∈ w.allNodes ∨ r ∈ w.q

theorem walkInv_init : WalkInv es r ⟨[r], ∅, []⟩ where
  set := by simp
  nodup := List.nodup_nil
  queue := by intro v hv; simp at hv; subst hv; exact ReflTransGen.refl
  sound := by simp
  closed := by simp
  root := by simp

/-- What one round of the walk does. -/
theorem walk_cases {w w' : Walk} (hb : w.body h = some w') :
    ∃ cur q, w.q = cur :: q ∧
      ((cur ∈ w.set ∧ w' = { w with q := q }) ∨
        (cur ∉ w.set ∧ w' = ⟨q ++ (h cur).outNodes, insert cur w.set, w.allNodes ++ [cur]⟩)) := by
  unfold Walk.body at hb
  cases hq : w.q with
  | nil => rw [hq] at hb; simp at hb
  | cons cur q =>
    rw [hq] at hb
    simp only at hb
    refine ⟨cur, q, rfl, ?_⟩
    by_cases hc : cur ∈ w.set
    · rw [if_pos hc] at hb
      exact Or.inl ⟨hc, (Option.some.inj hb).symm⟩
    · rw [if_neg hc] at hb
      exact Or.inr ⟨hc, (Option.some.inj hb).symm⟩

theorem walkInv_step (hw : Wired h es) (w w' : Walk) (hi : WalkInv es r w) (hb : w.body h = some w') :
    WalkInv es r w' := by
  obtain ⟨cur, q, hq, ⟨hc, rfl⟩ | ⟨hc, rfl⟩⟩ := walk_cases hb
  -- a node seen before is dropped: what it led to is in the list or still queued
  · have hcur : cur ∈ w.allNodes := (hi.set cur).1 hc
    refine ⟨hi.set, hi.nodup, fun v hv => hi.queue v (by rw [hq]; exact List.mem_cons_of_mem _ hv),
      hi.sound, ?_, ?_⟩
    · intro v hv b he
      rcases hi.closed v hv b he with hb' | hb'
      · exact Or.inl hb'
      · rw [hq] at hb'
        rcases List.mem_cons.1 hb' with rfl | hb'
        · exact Or.inl hcur
        · exact Or.inr hb'
    · rcases hi.root with h0 | h0
      · exact Or.inl h0
      · rw [hq] at h0
        rcases List.mem_cons.1 h0 with rfl | h0
        · exact Or.inl hcur
        · exact Or.inr h0
  · have hcur : cur ∉ w.allNodes := fun hm => hc ((hi.set cur).2 hm)
    -- a new node is listed and its output nodes are queued
    have hrc : Reach es r cur := hi.queue cur (by rw [hq]; exact List.mem_cons_self)
    refine ⟨?_, ?_, ?_, ?_, ?_, ?_⟩
    · intro v
      rw [Finset.mem_insert, hi.set, List.mem_append, List.mem_singleton]; tauto
    · rw [List.nodup_append]
      refine ⟨hi.nodup, List.nodup_singleton _, ?_⟩
      intro a ha b hb' hab
      rw [List.mem_singleton] at hb'
      subst hb' hab; exact hcur ha
    · intro v hv
      rcases List.mem_append.1 hv with hv | hv
      · exact hi.queue v (by rw [hq]; exact List.mem_cons_of_mem _ hv)
      · rw [hw.out] at hv
        exact hrc.edge (mem_succs.1 hv)
    · intro v hv
      rcases List.mem_append.1 hv with hv | hv
      · exact hi.sound v hv
      · rw [List.mem_singleton] at hv; rw [hv]; exact hrc
    · intro v hv b he
      rcases List.mem_append.1 hv with hv | hv
      · rcases hi.closed v hv b he with hb' | hb'
        · exact Or.inl (List.mem_append_left _ hb')
        · rw [hq] at hb'
          rcases List.mem_cons.1 hb' with rfl | hb'
          · exact Or.inl (List.mem_append_right _ (List.mem_singleton_self _))
          · exact Or.inr (List.mem_append_left _ hb')
      · rw [List.mem_singleton] at hv
        subst hv
        exact Or.inr (List.mem_append_right _ (by rw [hw.out]; exact mem_succs.2 he))
    · rcases hi.root with h0 | h0
      · exact Or.inl (List.mem_append_left _ h0)
      · rw [hq] at h0
        rcases List.mem_cons.1 h0 with rfl | h0
        · exact Or.inl (List.mem_append_right _ (List.mem_singleton_self _))
        · exact Or.inr (List.mem_append_left _ h0)

/-- **The walk lists exactly the nodes reached from the root, each once.** -/
theorem walk_spec (hw : Wired h es) {n : ℕ} {w : Walk}
    (hr : While.run (Walk.body h) n ⟨[r], ∅, []⟩ = some w) :
    w.allNodes.Nodup ∧ ∀ v, v ∈ w.allNodes ↔ Reach es r v := by
  obtain ⟨hi, hb⟩ := While.run_spec (WalkInv es r) (walkInv_step hw) n _ w walkInv_init hr
  have hq : w.q = [] := by
    unfold Walk.body at hb
    cases hq : w.q with
    | nil => rfl
    | cons c q => rw [hq] at hb; simp only at hb; split at hb <;> simp at hb
  refine ⟨hi.nodup, fun v => ⟨hi.sound v, fun hv => ?_⟩⟩
  induction hv with
  | refl =>
    rcases hi.root with h0 | h0
    · exact h0
    · rw [hq] at h0; simp at h0
  | tail _ he ih =>
    rcases hi.closed _ ih _ he with hb' | hb'
    · exact hb'
    · rw [hq] at hb'; simp at hb'

/-- The work left to the walk: each unseen node costs its visit and its output list. -/
def walkCost (h : Heap) (U : Finset NodePtr) (w : Walk) : ℕ :=
  (∑ v ∈ U \ w.set, ((h v).outNodes.length + 1)) + w.q.length

theorem walkCost_lt (w w' : Walk) (hi : WalkInv es r w) (hb : w.body h = some w') :
    walkCost h (addrs es r) w' < walkCost h (addrs es r) w := by
  unfold walkCost
  obtain ⟨cur, q, hq, ⟨hc, rfl⟩ | ⟨hc, rfl⟩⟩ := walk_cases hb
  · rw [hq]; simp
  · have hU : cur ∈ addrs es r \ w.set :=
      Finset.mem_sdiff.2 ⟨reach_mem_addrs (hi.queue cur (by rw [hq]; exact List.mem_cons_self)), hc⟩
    have hsplit := Finset.add_sum_erase _ (fun v => (h v).outNodes.length + 1) hU
    have herase : addrs es r \ insert cur w.set = (addrs es r \ w.set).erase cur := by
      rw [Finset.sdiff_insert]
    rw [herase, ← hsplit, hq]
    simp only [List.length_append, List.length_cons]; omega

/-- The walk ends. -/
theorem walk_total (hw : Wired h es) :
    ∃ F, ∀ n, F ≤ n → ∃ w, While.run (Walk.body h) n ⟨[r], ∅, []⟩ = some w := by
  refine ⟨walkCost h (addrs es r) ⟨[r], ∅, []⟩ + 1, fun n hn => ?_⟩
  exact While.run_total (WalkInv es r) (walkCost h (addrs es r)) (walkInv_step hw) walkCost_lt n _
    walkInv_init (by omega)

/-! ## Kahn's deletion -/

/-- What deleting one node does: every counter drops by the number of edges into it,
and the nodes whose counter reaches `0` are queued, each once. -/
theorem visit_foldl : ∀ (l : List NodePtr) (k : Kahn),
    (l.foldl Kahn.visit k).deleted = k.deleted ∧
    (∀ v, (l.foldl Kahn.visit k).heap v =
      { k.heap v with inputNum4Check := (k.heap v).inputNum4Check - l.count v }) ∧
    ∃ news, (l.foldl Kahn.visit k).zeroInputNode = k.zeroInputNode ++ news ∧ news.Nodup ∧
      ∀ v, v ∈ news ↔ 1 ≤ (k.heap v).inputNum4Check ∧ (k.heap v).inputNum4Check ≤ l.count v := by
  intro l
  induction l with
  | nil =>
    intro k
    refine ⟨rfl, fun v => by simp, [], by simp, List.nodup_nil, fun v => ?_⟩
    simp only [List.not_mem_nil, List.count_nil, Nat.cast_zero, false_iff]
    omega
  | cons n l ih =>
    intro k
    obtain ⟨h1, h2, news, h3, h4, h5⟩ := ih (k.visit n)
    have hheap : ∀ v, (k.visit n).heap v =
        { k.heap v with inputNum4Check := (k.heap v).inputNum4Check - if n = v then 1 else 0 } := by
      intro v
      unfold Kahn.visit
      by_cases hv : v = n
      · subst hv; simp
      · simp [Heap.modify_ne _ _ hv, Ne.symm hv]
    refine ⟨by rw [List.foldl_cons, h1]; rfl, fun v => ?_, ?_⟩
    · rw [List.foldl_cons, h2 v, hheap v]
      by_cases hv : n = v
      · subst hv; simp; omega
      · simp [hv, List.count_cons_of_ne hv]
    · have hz : (k.visit n).zeroInputNode =
          k.zeroInputNode ++ if (k.heap n).inputNum4Check = 1 then [n] else [] := by
        unfold Kahn.visit
        simp only [Heap.modify_self]
        by_cases hc : (k.heap n).inputNum4Check = 1
        · simp [hc]
        · rw [if_neg hc, if_neg (by omega), List.append_nil]
      -- `n` has lost one: it is queued here if it was at 1, so the rest does not queue it
      have h5' : ∀ v, v ∈ news ↔ 1 ≤ (k.heap v).inputNum4Check - (if n = v then 1 else 0) ∧
          (k.heap v).inputNum4Check - (if n = v then 1 else 0) ≤ l.count v := by
        intro v; rw [h5 v, hheap v]
      refine ⟨(if (k.heap n).inputNum4Check = 1 then [n] else []) ++ news, ?_, ?_, fun v => ?_⟩
      · rw [List.foldl_cons, h3, hz, List.append_assoc]
      · by_cases hc : (k.heap n).inputNum4Check = 1
        · rw [if_pos hc, List.singleton_append, List.nodup_cons]
          refine ⟨fun hm => ?_, h4⟩
          have := (h5' n).1 hm
          rw [if_pos rfl] at this; omega
        · rw [if_neg hc]; exact h4
      · rw [List.mem_append, h5' v]
        by_cases hv : n = v
        · subst hv
          by_cases hc : (k.heap n).inputNum4Check = 1
          · simp [hc]
          · simp [hc]; omega
        · by_cases hc : (k.heap n).inputNum4Check = 1
          · simp [hc, hv, Ne.symm hv, List.count_cons_of_ne hv]
          · simp [hc, hv, List.count_cons_of_ne hv]

/-- Two heaps that differ in `input_num_4_check` only. -/
def SameNodes (h h' : Heap) : Prop :=
  ∀ p, h' p = { h p with inputNum4Check := (h' p).inputNum4Check }

/-- The invariant of Kahn's deletion from a root without inputs. -/
structure KahnInv (h : Heap) (es : List (NodePtr × NodePtr)) (r : NodePtr) (k : Kahn) : Prop where
  same : SameNodes h k.heap
  counter : ∀ v, ((k.heap v).inputNum4Check : ℤ) = indeg es v - indegFrom es k.deleted v
  nodup : (k.deleted ++ k.zeroInputNode).Nodup
  mem : ∀ v, v ∈ k.deleted ++ k.zeroInputNode ↔
    v = r ∨ (0 < indeg es v ∧ indegFrom es k.deleted v = indeg es v)
  reach : ∀ v ∈ k.deleted ++ k.zeroInputNode, Reach es r v
  topo : Topo es k.deleted

theorem kahnInv_init (hw : Wired h es) : KahnInv h es r ⟨[r], [], h⟩ where
  same := fun _ => rfl
  counter := by intro v; simp [hw.check v]
  nodup := by simp
  mem := by
    intro v
    simp only [List.nil_append, List.mem_singleton, indegFrom_nil]
    constructor
    · intro hv; exact Or.inl hv
    · rintro (hv | ⟨hp, h0⟩)
      · exact hv
      · omega
  reach := by intro v hv; simp at hv; subst hv; exact ReflTransGen.refl
  topo := by intro pre x post h0; simp at h0

/-- All inputs of a deleted or queued node come from deleted nodes. -/
theorem KahnInv.preds {k : Kahn} (hi : KahnInv h es r k) (hr : indeg es r = 0) {v a : NodePtr}
    (hv : v ∈ k.deleted ++ k.zeroInputNode) (he : Edge es a v) : a ∈ k.deleted := by
  rcases (hi.mem v).1 hv with rfl | ⟨-, heq⟩
  · have := indeg_pos.2 ⟨a, he⟩; omega
  · exact indegFrom_eq_indeg.1 heq a he

/-- What one round of the deletion does. -/
theorem kahn_cases {k k' : Kahn} (hb : k.body = some k') :
    ∃ x zs, k.zeroInputNode = x :: zs ∧ k' = (k.heap x).outNodes.foldl Kahn.visit
      { k with zeroInputNode := zs, deleted := k.deleted ++ [x] } := by
  unfold Kahn.body at hb
  cases hz : k.zeroInputNode with
  | nil => rw [hz] at hb; simp at hb
  | cons x zs =>
    rw [hz] at hb
    exact ⟨x, zs, rfl, (Option.some.inj hb).symm⟩

theorem kahnInv_step (hw : Wired h es) (hr : indeg es r = 0) (k k' : Kahn) (hi : KahnInv h es r k)
    (hb : k.body = some k') : KahnInv h es r k' ∧ k'.deleted.length = k.deleted.length + 1 := by
  obtain ⟨x, zs, hz, rfl⟩ := kahn_cases hb
  have hout : (k.heap x).outNodes = succs es x := by rw [hi.same x]; exact hw.out x
  rw [hout]
  obtain ⟨h1, h2, news, h3, h4, h5⟩ := visit_foldl (succs es x)
    { k with zeroInputNode := zs, deleted := k.deleted ++ [x] }
  simp only at h1 h2 h3 h5
  have hnd := hi.nodup
  rw [hz] at hnd
  have hxD : x ∉ k.deleted := by
    intro hx
    exact (List.nodup_append.1 hnd).2.2 x hx x List.mem_cons_self rfl
  have hfrom : ∀ v, indegFrom es (k.deleted ++ [x]) v = indegFrom es k.deleted v + (succs es x).count v :=
    fun v => indegFrom_concat hxD v
  have hle : ∀ v, indegFrom es (k.deleted ++ [x]) v ≤ indeg es v := fun v => indegFrom_le _ v
  -- a newly queued node has all its inputs deleted only now
  have hnews : ∀ v, v ∈ news ↔
      indegFrom es k.deleted v < indeg es v ∧ indegFrom es (k.deleted ++ [x]) v = indeg es v := by
    intro v
    rw [h5 v, hi.counter v]
    have := hfrom v; have := hle v
    omega
  have hperm : (k.deleted ++ [x]) ++ (zs ++ news) = (k.deleted ++ x :: zs) ++ news := by simp
  have hold : ∀ v, v ∈ k.deleted ++ x :: zs ↔
      v = r ∨ (0 < indeg es v ∧ indegFrom es k.deleted v = indeg es v) := by
    intro v; rw [← hz]; exact hi.mem v
  have hxmem : x ∈ k.deleted ++ k.zeroInputNode := by
    rw [hz]; exact List.mem_append_right _ List.mem_cons_self
  refine ⟨⟨?_, ?_, ?_, ?_, ?_, ?_⟩, by rw [h1]; simp⟩
  · intro p; rw [h2 p]; simp only; rw [hi.same p]
  · intro v
    rw [h1, h2 v, hfrom v]; simp only; rw [hi.counter v]; push_cast; ring
  · rw [h1, h3, hperm, List.nodup_append]
    refine ⟨hnd, h4, ?_⟩
    intro a ha b hb' hab
    subst hab
    obtain ⟨hlt, -⟩ := (hnews a).1 hb'
    rcases (hold a).1 ha with rfl | ⟨-, heq⟩
    · omega
    · omega
  · intro v
    rw [h1, h3, hperm, List.mem_append, hold v, hnews v]
    have := hle v; have := hfrom v
    constructor
    · rintro ((hv | ⟨hp, heq⟩) | ⟨hlt, heq⟩)
      · exact Or.inl hv
      · exact Or.inr ⟨hp, by omega⟩
      · exact Or.inr ⟨by omega, heq⟩
    · rintro (hv | ⟨hp, heq⟩)
      · exact Or.inl (Or.inl hv)
      · by_cases hlt : indegFrom es k.deleted v < indeg es v
        · exact Or.inr ⟨hlt, heq⟩
        · exact Or.inl (Or.inr ⟨hp, by omega⟩)
  · rw [h1, h3, hperm]
    intro v hv
    rcases List.mem_append.1 hv with hv | hv
    · exact hi.reach v (by rw [hz]; exact hv)
    · obtain ⟨hlt, heq⟩ := (hnews v).1 hv
      have hpos : 0 < (succs es x).count v := by have := hfrom v; omega
      exact (hi.reach x hxmem).edge (mem_succs.1 (List.count_pos_iff.1 hpos))
  · rw [h1]
    intro pre y post hL a he
    rcases List.eq_nil_or_concat post with rfl | ⟨post', z, rfl⟩
    · obtain ⟨hpre, hy⟩ := List.append_inj' hL rfl
      simp only [List.cons.injEq, and_true] at hy
      subst hy hpre
      exact hi.preds hr hxmem he
    · rw [List.concat_eq_append, ← List.cons_append, ← List.append_assoc] at hL
      obtain ⟨hD, -⟩ := List.append_inj' hL rfl
      exact hi.topo pre y post' hD a he

/-- Kahn's deletion ends. -/
theorem kahn_total (hw : Wired h es) (hr : indeg es r = 0) :
    ∃ F, ∀ n, F ≤ n → ∃ k, While.run Kahn.body n ⟨[r], [], h⟩ = some k := by
  have hcard : ∀ k, KahnInv h es r k → (k.deleted ++ k.zeroInputNode).length ≤ (addrs es r).card := by
    intro k hi
    rw [← List.toFinset_card_of_nodup hi.nodup]
    apply Finset.card_le_card
    intro v hv
    exact reach_mem_addrs (hi.reach v (List.mem_toFinset.1 hv))
  refine ⟨(addrs es r).card + 1, fun n hn => ?_⟩
  refine While.run_total (KahnInv h es r) (fun k => (addrs es r).card - k.deleted.length)
    (fun k k' hi hb => (kahnInv_step hw hr k k' hi hb).1) ?_ n _ (kahnInv_init hw) (by simp; omega)
  intro k k' hi hb
  obtain ⟨hi', hlen⟩ := kahnInv_step hw hr k k' hi hb
  have := hcard k' hi'
  rw [List.length_append] at this
  omega

/-- **Kahn's deletion covers everything the root reaches exactly on `Accepts`.** -/
theorem kahn_spec (hw : Wired h es) (hr : indeg es r = 0) {n : ℕ} {k : Kahn}
    (hk : While.run Kahn.body n ⟨[r], [], h⟩ = some k) :
    SameNodes h k.heap ∧ ((∀ v, Reach es r v → v ∈ k.deleted) ↔ Accepts es r) := by
  obtain ⟨hi, hb⟩ := While.run_spec (KahnInv h es r)
    (fun k k' hi hb => (kahnInv_step hw hr k k' hi hb).1) n _ k (kahnInv_init hw) hk
  have hz : k.zeroInputNode = [] := by
    unfold Kahn.body at hb
    cases hz : k.zeroInputNode with
    | nil => rfl
    | cons c q => rw [hz] at hb; simp at hb
  have hmem : ∀ v, v ∈ k.deleted ↔ v = r ∨ (0 < indeg es v ∧ indegFrom es k.deleted v = indeg es v) := by
    intro v
    have := hi.mem v
    rwa [hz, List.append_nil] at this
  refine ⟨hi.same, fun hall => ?_, fun hA v hv => ?_⟩
  · refine ⟨fun a he => ?_, acyclicFrom_of_topo hi.topo hall, fun a b he hb' => ?_⟩
    · have := indeg_pos.2 ⟨a, he⟩; omega
    · have hbD := hall b hb'
      have haD := hi.preds hr (List.mem_append_left _ hbD) he
      exact hi.reach a (List.mem_append_left _ haD)
  · by_contra hvD
    classical
    -- a minimal node left over has all its inputs deleted, so it is deleted
    let S := (addrs es r).filter fun v => Reach es r v ∧ v ∉ k.deleted
    have hS : ∀ u ∈ S, Reach es r u := fun u hu => (Finset.mem_filter.1 hu).2.1
    obtain ⟨m, hm, hmin⟩ := exists_minimal hA.acyclic S hS
      ⟨v, Finset.mem_filter.2 ⟨reach_mem_addrs hv, hv, hvD⟩⟩
    obtain ⟨-, hmr, hmD⟩ := Finset.mem_filter.1 hm
    apply hmD
    rw [hmem m]
    rcases hmr.cases_tail with h0 | ⟨a, -, he⟩
    · exact Or.inl h0
    · refine Or.inr ⟨indeg_pos.2 ⟨a, he⟩, indegFrom_eq_indeg.2 fun b hb' => ?_⟩
      by_contra hbD
      have hbr := hA.closed b m hb' hmr
      exact hmin b (Finset.mem_filter.2 ⟨reach_mem_addrs hbr, hbr, hbD⟩) hb'

/-! ## `Graph::init` -/

/-- **What `Graph::init` returns**, on wired nodes and a non-null root. -/
theorem init_sound (hw : Wired h es) {fuel : ℕ} {g g' : Graph} {h' : Heap} {name : Str} {ret : ℤ}
    (hrun : g.init fuel h (some r) name = some (.ok (ret, g', h'))) :
    g'.rootNode = some r ∧ g'.maxNodeId = g.maxNodeId ∧ g'.allNodes.Nodup ∧
      (∀ v, v ∈ g'.allNodes ↔ Reach es r v) ∧ SameNodes h h' ∧
      (ret = 0 ∧ Accepts es r ∨ ret = -1 ∧ ¬Accepts es r) := by
  unfold Graph.init at hrun
  simp only at hrun
  cases hwalk : While.run (Walk.body h) fuel ⟨[r], ∅, []⟩ with
  | none => rw [hwalk] at hrun; simp at hrun
  | some w =>
    obtain ⟨hnd, hmem⟩ := walk_spec hw hwalk
    rw [hwalk] at hrun
    simp only at hrun
    unfold Graph.check at hrun
    simp only at hrun
    by_cases hr : (h r).inputNum4Check = 0
    -- the root has no input, so the deletion starts with it
    · have hr0 : indeg es r = 0 := by have := hw.check r; omega
      rw [if_pos hr] at hrun
      cases hk : While.run Kahn.body fuel ⟨[r], [], h⟩ with
      | none => rw [hk] at hrun; simp at hrun
      | some k =>
        obtain ⟨hsame, hiff⟩ := kahn_spec hw hr0 hk
        have hall : w.allNodes.all (· ∈ k.deleted) = true ↔ Accepts es r := by
          rw [← hiff, List.all_eq_true]
          simp only [decide_eq_true_eq, hmem]
        rw [hk] at hrun
        simp only at hrun
        cases hv : w.allNodes.all (· ∈ k.deleted) with
        | true =>
          rw [hv] at hrun
          simp only [Option.some.injEq, Except.ok.injEq, Prod.mk.injEq] at hrun
          obtain ⟨rfl, rfl, rfl⟩ := hrun
          exact ⟨rfl, by simp only; split <;> rfl, hnd, hmem, hsame, Or.inl ⟨rfl, hall.1 hv⟩⟩
        | false =>
          rw [hv] at hrun
          simp only [Option.some.injEq, Except.ok.injEq, Prod.mk.injEq] at hrun
          obtain ⟨rfl, rfl, rfl⟩ := hrun
          refine ⟨rfl, by simp only; split <;> rfl, hnd, hmem, hsame, Or.inr ⟨rfl, fun hA => ?_⟩⟩
          have := hall.2 hA
          rw [hv] at this; simp at this
    · rw [if_neg hr] at hrun
      simp only [Option.some.injEq, Except.ok.injEq, Prod.mk.injEq] at hrun
      obtain ⟨rfl, rfl, rfl⟩ := hrun
      refine ⟨rfl, by simp only; split <;> rfl, hnd, hmem, fun _ => rfl, Or.inr ⟨rfl, fun hA => ?_⟩⟩
      -- the root has an input: `check` fails at once, and an order from the root would put it first
      have hpos : 0 < indeg es r := by have := hw.check r; omega
      obtain ⟨a, ha⟩ := indeg_pos.1 hpos
      exact hA.root a ha

/-- **`Graph::init` ends** on wired nodes and a non-null root, without a fault. -/
theorem init_total (hw : Wired h es) (r : NodePtr) (g : Graph) (name : Str) :
    ∃ F, ∀ fuel, F ≤ fuel → ∃ ret g' h', g.init fuel h (some r) name = some (.ok (ret, g', h')) := by
  obtain ⟨F₁, h1⟩ := walk_total (r := r) hw
  have hkahn : ∃ F₂, ∀ fuel, F₂ ≤ fuel → (h r).inputNum4Check = 0 →
      ∃ k, While.run Kahn.body fuel ⟨[r], [], h⟩ = some k := by
    by_cases hr : (h r).inputNum4Check = 0
    · obtain ⟨F₂, h2⟩ := kahn_total (r := r) hw (by have := hw.check r; omega)
      exact ⟨F₂, fun fuel hf _ => h2 fuel hf⟩
    · exact ⟨0, fun _ _ h0 => absurd h0 hr⟩
  obtain ⟨F₂, h2⟩ := hkahn
  refine ⟨max F₁ F₂, fun fuel hf => ?_⟩
  obtain ⟨w, hwalk⟩ := h1 fuel (le_trans (le_max_left _ _) hf)
  unfold Graph.init Graph.check
  simp only [hwalk]
  by_cases hr : (h r).inputNum4Check = 0
  · obtain ⟨k, hk⟩ := h2 fuel (le_trans (le_max_right _ _) hf) hr
    rw [if_pos hr, hk]
    simp only
    cases w.allNodes.all (· ∈ k.deleted)
    · exact ⟨_, _, _, rfl⟩
    · exact ⟨_, _, _, rfl⟩
  · rw [if_neg hr]
    exact ⟨_, _, _, rfl⟩

/-- **`Graph::init` decides schedulability.** On nodes wired by any `add_output` calls
it ends, with the nodes the root reaches in `all_nodes`, each once, and returns `0`
exactly if the root has no input, what it reaches is acyclic, and every edge into that
part starts in it; otherwise it returns `-1`. -/
theorem init_accepts (hf : ∀ p, (h p).Fresh) (es : List (NodePtr × NodePtr)) (r : NodePtr) (g : Graph)
    (name : Str) :
    ∃ F, ∀ fuel, F ≤ fuel → ∃ ret g' h', g.init fuel (h.wire es) (some r) name = some (.ok (ret, g', h')) ∧
      (ret = 0 ↔ (∀ a, ¬Edge es a r) ∧ AcyclicFrom es r ∧ ClosedFrom es r) ∧
      (ret ≠ 0 → ret = -1) ∧ g'.allNodes.Nodup ∧ ∀ v, v ∈ g'.allNodes ↔ Reach es r v := by
  have hw := wired_wire hf es
  obtain ⟨F, hF⟩ := init_total hw r g name
  refine ⟨F, fun fuel hle => ?_⟩
  obtain ⟨ret, g', h', hrun⟩ := hF fuel hle
  obtain ⟨-, -, hnd, hmem, -, hret⟩ := init_sound hw hrun
  refine ⟨ret, g', h', hrun, ?_, ?_, hnd, hmem⟩
  · rcases hret with ⟨h0, hA⟩ | ⟨h1, hA⟩
    · exact ⟨fun _ => ⟨hA.root, hA.acyclic, hA.closed⟩, fun _ => h0⟩
    · refine ⟨fun h0 => by omega, fun ⟨a, b, c⟩ => absurd ⟨a, b, c⟩ hA⟩
  · intro h0
    rcases hret with ⟨h1, -⟩ | ⟨h1, -⟩
    · exact absurd h1 h0
    · exact h1

/-- The diamond `0 → 1, 2 → 3`. -/
theorem init_accepts_diamond :
    ∃ F, ∀ fuel, F ≤ fuel → ∃ ret g' h',
      Graph.init fuel {} (Heap.wire (fun _ => {}) [(0, 1), (0, 2), (1, 3), (2, 3)]) (some 0) [] =
        some (.ok (ret, g', h')) ∧
      (ret = 0 ↔ (∀ a, ¬Edge [(0, 1), (0, 2), (1, 3), (2, 3)] a 0) ∧
        AcyclicFrom [(0, 1), (0, 2), (1, 3), (2, 3)] 0 ∧ ClosedFrom [(0, 1), (0, 2), (1, 3), (2, 3)] 0) ∧
      (ret ≠ 0 → ret = -1) ∧ g'.allNodes.Nodup ∧
      ∀ v, v ∈ g'.allNodes ↔ Reach [(0, 1), (0, 2), (1, 3), (2, 3)] 0 v :=
  init_accepts (fun _ => ⟨rfl, rfl, rfl⟩) _ 0 {} []

end Graphize
