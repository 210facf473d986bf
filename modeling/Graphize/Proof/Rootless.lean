import Graphize.Spec.GraphPtr
import Graphize.Proof.Unresolved

/-!
# Graphs without a root

`check()` tests whether the root is null, but `Graph::init` walks from the root first.

* `initPtr_eq`: with pointers that may be null, `Graph::init` does what `Graph.init` says.
* `rootless_kinds`: which configurations end the node loop without a root.
* `rootless_never_rejected`: no enumeration in which `GraphManager::init` comes to such a
  graph makes it return false; all of them end at the null root.
-/

namespace Graphize

/-! ## The walk over pointers -/

section Pointers

variable {h : Heap}

/-- A walk none of whose pointers is null. -/
def Walk.toPtr (w : Walk) : PtrWalk :=
  { q := w.q.map some, set := w.set.map Function.Embedding.some, allNodes := w.allNodes.map some }

/-- **One round**, when no pointer is null. -/
theorem next_toPtr (w : Walk) : PtrWalk.next h (.ok w.toPtr) = (w.body h).map fun w => .ok w.toPtr := by
  obtain ⟨q, set, allNodes⟩ := w
  cases q with
  | nil => rfl
  | cons curNode q =>
    have hmem : some curNode ∈ set.map Function.Embedding.some ↔ curNode ∈ set := by simp
    unfold PtrWalk.next PtrWalk.body Walk.body Walk.toPtr
    simp only [List.map_cons, hmem]
    by_cases hin : curNode ∈ set
    · rw [if_pos hin, if_pos hin]
      rfl
    · rw [if_neg hin, if_neg hin]
      have hset : insert (some curNode) (set.map Function.Embedding.some) =
          (insert curNode set).map Function.Embedding.some := by
        rw [Finset.map_insert]
        rfl
      rw [Option.map_some, hset, List.map_append, List.map_append]
      rfl

/-- **`Graph::init` over pointers** does what `Graph.init` says. -/
theorem initPtr_eq {fuel : ℕ} (hf : 2 ≤ fuel) (g : Graph) (h : Heap) (node : Option NodePtr) (name : Str) :
    g.initPtr fuel h node name = g.init fuel h node name := by
  cases node with
  | none =>
    -- the null root is taken from the queue, and its outputs are asked for
    obtain ⟨fuel, rfl⟩ : ∃ m, fuel = m + 2 := ⟨fuel - 2, by omega⟩
    rfl
  | some root =>
    have hrun : While.run (PtrWalk.next h) fuel (.ok ⟨[some root], ∅, []⟩) =
        (While.run (Walk.body h) fuel ⟨[root], ∅, []⟩).map fun w => .ok w.toPtr :=
      While.run_map (fun w : Walk => Except.ok w.toPtr) next_toPtr fuel ⟨[root], ∅, []⟩
    have hnodes : ∀ w : Walk, w.toPtr.allNodes.reduceOption = w.allNodes := by
      intro w
      show (w.allNodes.map some).filterMap id = w.allNodes
      rw [List.filterMap_map]
      exact List.filterMap_some
    unfold Graph.initPtr Graph.init
    rewrite [hrun]
    dsimp only
    cases While.run (Walk.body h) fuel ⟨[root], ∅, []⟩ with
    | none => rfl
    | some w =>
      dsimp only [Option.map_some]
      rewrite [hnodes]
      rfl

end Pointers

/-! ## Which configurations -/

variable {info : Str → Option NodeType}

/-- The node loop ends without a root. -/
def GraphConf.Rootless (info : Str → Option NodeType) (conf : GraphConf) : Prop :=
  (Build.entries info {} none conf).2 = none

theorem rootless_iff_rootName {conf : GraphConf} : conf.Rootless info ↔ conf.rootName info = none := by
  obtain ⟨b, root, es, hb, -, -, hnone⟩ := @entries_spec info conf {} [] [] [] none none rep_empty rfl (by simp)
  unfold GraphConf.Rootless
  rw [hb, hnone, Option.or_none]

/-- No entry that the loop gets to is flagged. -/
theorem rootless_iff {conf : GraphConf} : conf.Rootless info ↔ ∀ e ∈ conf.live info, e.2.root ≠ some true := by
  rw [rootless_iff_rootName]
  unfold GraphConf.rootName
  rw [Option.map_eq_none_iff, List.getLast?_eq_none_iff, List.filter_eq_nil_iff]
  simp only [decide_eq_true_eq, ne_eq]

/-- **The kinds of configuration**: no entry is flagged as root (there may be no entry, or
every flag may be false), or a name that does not resolve comes before the first flag. -/
theorem rootless_kinds {conf : GraphConf} : conf.Rootless info ↔ (∀ n, ¬conf.Marks n) ∨
    ∃ pre n c post, conf = pre ++ (n, c) :: post ∧ info n = none ∧ ∀ e ∈ pre, e.2.root ≠ some true := by
  rw [rootless_iff]
  constructor
  · intro hlive
    by_cases hall : conf.Known info
    · rw [live_eq hall] at hlive
      refine Or.inl ?_
      rintro n ⟨c, he, hc⟩
      exact hlive (n, c) he hc
    · -- the loop stops at the first entry that does not resolve
      have hsplit : conf.live info ++ conf.dropWhile (fun e => (info e.1).isSome) = conf := List.takeWhile_append_dropWhile
      cases hrest : conf.dropWhile fun e => (info e.1).isSome with
      | nil =>
        rw [hrest, List.append_nil] at hsplit
        rw [← hsplit] at hall
        exact absurd (live_known conf) hall
      | cons e post =>
        have hfirst := List.head?_dropWhile_not (fun e : Str × NodeConf => (info e.1).isSome) conf
        rw [hrest] at hfirst hsplit
        have hn : info e.1 = none := by simpa using hfirst
        exact Or.inr ⟨conf.live info, e.1, e.2, post, hsplit.symm, hn, hlive⟩
  · rintro (hno | ⟨pre, n, c, post, rfl, hn, hpre⟩) e he
    · exact fun hroot => hno e.1 ⟨e.2, List.takeWhile_subset _ he, hroot⟩
    · refine hpre e ?_
      unfold GraphConf.live at he
      rw [List.takeWhile_append, List.takeWhile_cons_of_neg (by simp [hn]), List.append_nil] at he
      split at he
      · exact he
      · exact List.takeWhile_subset _ he

/-! ## More fuel -/

theorem check_mono {n m : ℕ} (hnm : n ≤ m) {g : Graph} {h : Heap} {r : Bool × Heap} (hc : g.check n h = some r) :
    g.check m h = some r := by
  unfold Graph.check at hc ⊢
  split at hc
  · exact hc
  · split at hc
    · rename_i hzero
      rw [if_pos hzero]
      split at hc
      · exact absurd hc (by simp)
      · rename_i k hk
        rw [While.run_mono hnm hk]
        exact hc
    · rename_i hzero
      rw [if_neg hzero]
      exact hc

theorem init_mono {n m : ℕ} (hnm : n ≤ m) {g : Graph} {h : Heap} {node : Option NodePtr} {name : Str}
    {r : Except Fault (ℤ × Graph × Heap)} (hi : g.init n h node name = some r) : g.init m h node name = some r := by
  cases node with
  | none => exact hi
  | some root =>
    unfold Graph.init at hi ⊢
    simp only at hi ⊢
    split at hi
    · exact absurd hi (by simp)
    · rename_i w hw
      rw [While.run_mono hnm hw]
      simp only
      split at hi
      · exact absurd hi (by simp)
      · rename_i hc
        rw [check_mono hnm hc]
        exact hi
      · rename_i hc
        rw [check_mono hnm hc]
        exact hi

theorem graphManagerInit_mono {n m : ℕ} (hnm : n ≤ m) : ∀ (o : List (Str × GraphConf)) {map : GraphMap}
    {r : Except Fault (Bool × GraphMap)}, graphManagerInit n info map o = some r →
    graphManagerInit m info map o = some r := by
  intro o
  induction o with
  | nil => intro map r h; exact h
  | cons e o ih =>
    intro map r h
    rw [graphManagerInit_cons] at h ⊢
    split at h
    · exact absurd h (by simp)
    · rename_i fault hi
      rw [init_mono hnm hi]
      exact h
    · rename_i ret g heap hi
      rw [init_mono hnm hi]
      simp only
      split at h
      · rename_i h0
        rw [if_pos h0]
        exact ih h
      · rename_i h0
        rw [if_neg h0]
        exact h

/-! ## The file -/

/-- The graphs before the one that decides. -/
theorem graphManagerInit_append {fuel : ℕ} {post : List (Str × GraphConf)} : ∀ (pre : List (Str × GraphConf))
    {map map' : GraphMap}, graphManagerInit fuel info map pre = some (.ok (true, map')) →
    graphManagerInit fuel info map (pre ++ post) = graphManagerInit fuel info map' post := by
  intro pre
  induction pre with
  | nil =>
    intro map map' h
    obtain rfl : map = map' := by simpa [graphManagerInit] using h
    rfl
  | cons e pre ih =>
    intro map map' h
    obtain ⟨b, r, g, heap, hb, hi, hrest⟩ := graphManagerInit_true h
    rw [List.cons_append, graphManagerInit_built hb hi, if_pos rfl]
    exact ih hrest

/-- `GraphManager::init` comes to a graph whose node loop ends without a root: it has
registered the graphs before. -/
def EndsRootless (info : Str → Option NodeType) (o : List (Str × GraphConf)) : Prop :=
  ∃ pre e post, o = pre ++ e :: post ∧ e.2.Rootless info ∧
    ∃ fuel map, graphManagerInit fuel info [] pre = some (.ok (true, map))

/-- `GraphManager::init` returns false, having dereferenced no null pointer. -/
structure RejectsRootless (info : Str → Option NodeType) (o : List (Str × GraphConf)) : Prop where
  rejects : ∃ fuel map, graphManagerInit fuel info [] o = some (.ok (false, map))
  safe : ∀ fuel, graphManagerInit fuel info [] o ≠ some (.error .nullDeref)

/-- The null root is dereferenced, and no fuel gives another outcome. -/
theorem EndsRootless.crashes {o : List (Str × GraphConf)} (h : EndsRootless info o) :
    ∃ F, ∀ fuel, F ≤ fuel → graphManagerInit fuel info [] o = some (.error .nullDeref) := by
  obtain ⟨pre, e, post, rfl, he, F, map, hpre⟩ := h
  refine ⟨F, fun fuel hf => ?_⟩
  rw [graphManagerInit_append pre (graphManagerInit_mono hf pre hpre), graphManagerInit_null he]

/-- **A graph without a root is never rejected**: whatever the configuration and the order,
`Graph::init` dereferences the null root before `check()` would test it. -/
theorem rootless_never_rejected {o : List (Str × GraphConf)} (h : EndsRootless info o) :
    ¬RejectsRootless info o ∧ (∀ fuel map, graphManagerInit fuel info [] o ≠ some (.ok (false, map))) ∧
      ∃ F, ∀ fuel, F ≤ fuel → graphManagerInit fuel info [] o = some (.error .nullDeref) := by
  obtain ⟨F, hcrash⟩ := h.crashes
  refine ⟨fun hr => hr.safe F (hcrash F le_rfl), fun fuel map hfalse => ?_, F, hcrash⟩
  -- a verdict would stay with more fuel
  have hmore := graphManagerInit_mono (le_max_right F fuel) o hfalse
  rw [hcrash _ (le_max_left F fuel)] at hmore
  exact absurd hmore (by simp)

/-- A graph with a root, and one whose only entry is not flagged. -/
def secondUnflagged : List (Str × GraphConf) :=
  [("g".toList, [("a".toList, { root := some true })]), ("h".toList, [("b".toList, { root := some false })])]

theorem rootless_never_rejected_second : EndsRootless named secondUnflagged ∧
    ¬RejectsRootless named secondUnflagged ∧
      (∀ fuel map, graphManagerInit fuel named [] secondUnflagged ≠ some (.ok (false, map))) ∧
        ∃ F, ∀ fuel, F ≤ fuel → graphManagerInit fuel named [] secondUnflagged = some (.error .nullDeref) := by
  have h : EndsRootless named secondUnflagged := ⟨[_], _, [], rfl, rfl, 5, _, rfl⟩
  exact ⟨h, rootless_never_rejected h⟩

/-- A file with one graph that is empty. -/
def emptyGraph : List (Str × GraphConf) := [("g".toList, [])]

theorem rootless_emptyGraph : ¬∀ (info : Str → Option NodeType) (o : List (Str × GraphConf)),
    EndsRootless info o → RejectsRootless info o := by
  intro hall
  have hr := hall named emptyGraph ⟨[], _, [], rfl, rfl, 0, [], rfl⟩
  exact hr.safe 0 rfl

/-! ## The hypothesis, by the configuration -/

/-- The graphs before are ready, and the next one is of one of the kinds without a root. -/
theorem endsRootless_iff {o : List (Str × GraphConf)} (hnd : (o.map Prod.fst).Nodup) : EndsRootless info o ↔
    ∃ pre e post, o = pre ++ e :: post ∧ e.2.Rootless info ∧ ∀ e' ∈ pre, e'.2.Ready info := by
  have hpre : ∀ pre e post, o = pre ++ e :: post → ((∃ fuel map, graphManagerInit fuel info [] pre =
      some (.ok (true, map))) ↔ ∀ e' ∈ pre, e'.2.Ready info) := by
    intro pre e post heq
    rw [heq, List.map_append] at hnd
    obtain ⟨F, hF⟩ := @init_outcome info pre hnd.of_append_left
    constructor
    · rintro ⟨fuel, map, hrun⟩
      obtain ⟨r, hr, -, hready, -⟩ := hF (max F fuel) (le_max_left F fuel)
      rw [graphManagerInit_mono (le_max_right F fuel) pre hrun, Option.some.injEq] at hr
      exact hready.1 ⟨map, hr.symm⟩
    · intro hall
      obtain ⟨r, hr, -, hready, -⟩ := hF F le_rfl
      obtain ⟨map, rfl⟩ := hready.2 hall
      exact ⟨F, map, hr⟩
  constructor
  · rintro ⟨pre, e, post, heq, he, hrun⟩
    exact ⟨pre, e, post, heq, he, (hpre pre e post heq).1 hrun⟩
  · rintro ⟨pre, e, post, heq, he, hall⟩
    exact ⟨pre, e, post, heq, he, (hpre pre e post heq).2 hall⟩

end Graphize
