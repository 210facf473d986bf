import Graphize.Spec.Graph
import Graphize.Lib.EdgeList
import Mathlib.Data.Int.Lemmas
import Mathlib.Tactic.Push

/-!
# Wiring

`Wired h es`: the heap `h` is what the `add_output` calls `es` leave, so its output
lists and its two input counters are read off the edge list (`wired_wire`).
-/

namespace Graphize

open EdgeList

/-! ## Writing through a pointer -/

@[simp] theorem Heap.modify_self (h : Heap) (p : NodePtr) (f : Node → Node) :
    h.modify p f p = f (h p) := by
  simp [Heap.modify]

theorem Heap.modify_ne (h : Heap) {p q : NodePtr} (f : Node → Node) (hq : q ≠ p) :
    h.modify p f q = h q := by
  simp [Heap.modify, hq]

/-- **What one `add_output` call leaves at every address.** -/
theorem addOutput_apply (h : Heap) (p n q : NodePtr) :
    h.addOutput p n q =
      { h q with
        outNodes := (h q).outNodes ++ if p = q then [n] else []
        inputNum := (h q).inputNum + if n = q then 1 else 0
        inputNum4Check := (h q).inputNum4Check + if n = q then 1 else 0 } := by
  unfold Heap.addOutput
  by_cases hn : q = n
  · subst hn
    by_cases hp : q = p
    · subst hp; simp [Node.incrInputNum]
    · simp [Node.incrInputNum, Heap.modify_ne _ _ hp, Ne.symm hp]
  · rw [Heap.modify_ne _ _ hn, Heap.modify_ne _ _ hn]
    by_cases hp : q = p
    · subst hp; simp [Ne.symm hn]
    · simp [Heap.modify_ne _ _ hp, Ne.symm hp, Ne.symm hn]

/-! ## Wired heaps -/

/-- The heap as the `add_output` calls `es` leave it. -/
structure Wired (h : Heap) (es : List (NodePtr × NodePtr)) : Prop where
  out : ∀ p, (h p).outNodes = succs es p
  inputNum : ∀ p, (h p).inputNum = indeg es p
  check : ∀ p, (h p).inputNum4Check = indeg es p

variable {h : Heap} {es : List (NodePtr × NodePtr)}

theorem Wired.fresh (hf : ∀ p, (h p).Fresh) : Wired h [] :=
  ⟨fun p => by rw [(hf p).2.2]; rfl, fun p => by rw [(hf p).1]; rfl, fun p => by rw [(hf p).2.1]; rfl⟩

theorem Wired.addOutput (hw : Wired h es) (p n : NodePtr) : Wired (h.addOutput p n) (es ++ [(p, n)]) := by
  refine ⟨fun q => ?_, fun q => ?_, fun q => ?_⟩
  · rw [addOutput_apply, hw.out]
    unfold succs
    by_cases hp : p = q <;> simp [hp]
  · rw [addOutput_apply, hw.inputNum]
    unfold indeg
    by_cases hn : n = q <;> simp [hn]
  · rw [addOutput_apply, hw.check]
    unfold indeg
    by_cases hn : n = q <;> simp [hn]

theorem Wired.wire : ∀ (fs : List (NodePtr × NodePtr)) {h : Heap} {es : List (NodePtr × NodePtr)},
    Wired h es → Wired (h.wire fs) (es ++ fs) := by
  intro fs
  induction fs with
  | nil => intro h es hw; simpa [Heap.wire] using hw
  | cons e fs ih =>
    intro h es hw
    have := ih (hw.addOutput e.1 e.2)
    simpa [Heap.wire] using this

/-- **Any sequence of `add_output` calls on fresh nodes** leaves a wired heap. -/
theorem wired_wire (hf : ∀ p, (h p).Fresh) (es : List (NodePtr × NodePtr)) : Wired (h.wire es) es := by
  simpa using Wired.wire es (Wired.fresh hf)

end Graphize
