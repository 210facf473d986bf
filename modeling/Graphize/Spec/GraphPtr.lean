import Graphize.Spec.Graph
import Mathlib.Data.Finset.Image

/-!
# `Graph::init`, with pointers that may be null

`Graph.init` of `Spec/Graph` walks over the addresses of nodes and says at once what a
null root leads to. Here the queue, the set and `all_nodes` hold pointers, as in the
source, and the walk goes wrong where it uses a null one.
-/

namespace Graphize

/-- The locals of the walk in `Graph::init`. -/
structure PtrWalk where
  q : List (Option NodePtr)
  set : Finset (Option NodePtr)
  allNodes : List (Option NodePtr)

/-- `cur_node->get_output_nodes()`. The outputs of a node are never null. -/
def outputNodes (h : Heap) : Option NodePtr → Except Fault (List (Option NodePtr))
  | none => .error .nullDeref
  | some p => .ok ((h p).outNodes.map some)

/-- One round of `while(!q.empty())` in `Graph::init`. -/
def PtrWalk.body (h : Heap) (w : PtrWalk) : Option (Except Fault PtrWalk) :=
  match w.q with
  | [] => none
  | curNode :: q =>
    if curNode ∈ w.set then some (.ok { w with q := q })
    else
      let set := insert curNode w.set
      let allNodes := w.allNodes ++ [curNode]
      some do
        let outputs ← outputNodes h curNode
        return { q := q ++ outputs, set := set, allNodes := allNodes }

/-- The loop stops where a round goes wrong. -/
def PtrWalk.next (h : Heap) : Except Fault PtrWalk → Option (Except Fault PtrWalk)
  | .error _ => none
  | .ok w => w.body h

/-- `Graph::init(Node* node, const std::string& name)`. -/
def Graph.initPtr (fuel : ℕ) (g : Graph) (h : Heap) (node : Option NodePtr) (name : Str) :
    Option (Except Fault (ℤ × Graph × Heap)) :=
  let g := if name = [] then g else { g with name := name }
  match While.run (PtrWalk.next h) fuel (.ok ⟨[node], ∅, []⟩) with
  | none => none
  | some (.error fault) => some (.error fault)
  | some (.ok w) =>
    let g := { g with rootNode := node, allNodes := w.allNodes.reduceOption }
    match g.check fuel h with
    | none => none
    | some (true, h) => some (.ok (0, g, h))
    | some (false, h) => some (.ok (-1, g, h))

end Graphize
