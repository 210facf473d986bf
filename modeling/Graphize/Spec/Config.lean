import Graphize.Spec.Graph

/-!
# `GraphManager::init`

Building the graphs of a configuration file: the nodes are created when first
mentioned, `children` and `parents` add the edges, `Graph::init` validates. An object
of the file is the list of its entries in the order in which `key_set()` enumerates
them. The nodes of different graphs are never shared, so each graph is built in its own
heap, where the address of a node is the number of nodes created before it. What a node
class reads from its own configuration is left out.
-/

namespace Graphize

/-- The attributes of a graph node. `none` is an absent key. -/
structure NodeConf where
  root : Option Bool := none
  children : Option Str := none
  parents : Option Str := none
  deriving DecidableEq, Repr

abbrev GraphConf := List (Str × NodeConf)

/-- `std::isspace` in the classic locale. -/
def isSpace (c : Char) : Bool :=
  c = ' ' ∨ c = '\t' ∨ c = '\n' ∨ c = '\r' ∨ c = Char.ofNat 11 ∨ c = Char.ofNat 12

/-- `boost::trim`. -/
def trim (s : Str) : Str := ((s.dropWhile isSpace).reverse.dropWhile isSpace).reverse

/-- The tokens of a `children` or `parents` attribute: `boost::trim`, the test for
empty, and `boost::split` on commas, which keeps empty tokens. -/
def tokens (attr : Option Str) : List Str :=
  let s := trim (attr.getD [])
  if s = [] then [] else s.splitOn ','

/-- `NodeManager::nodes_map`: the `class` of each node that it knows. -/
structure NodeManager where
  nodesMap : List (Str × Str) := []

/-- `NodeManager::get_node_info`. An empty `shared_config` is `none`. -/
def NodeManager.getNodeInfo (mgr : NodeManager) (nodeName : Str) : Option Str := mgr.nodesMap.lookup nodeName

/-- What `create_service_if_not_exist` finds for a name, where `factory` is
`GET_SERVICE_FACTORY` with the type of the class. -/
def NodeManager.info (mgr : NodeManager) (factory : Str → Option NodeType) (name : Str) : Option NodeType :=
  (mgr.getNodeInfo name).bind factory

/-- The state of the node loop of one graph. -/
structure Build where
  heap : Heap := fun _ => {}
  nodesMap : List (Str × NodePtr) := []
  nodeIdGen : ℕ := 0

/-- `create_service_if_not_exist`. `info` is the type of the class configured for a
node name: `none` when `NodeManager` does not know the name or its class is not
registered. -/
def Build.create (info : Str → Option NodeType) (b : Build) (name : Str) : Option NodePtr × Build :=
  match b.nodesMap.lookup name with
  | some p => (some p, b)
  | none =>
    match info name with
    | none => (none, b)
    | some type =>
      let p := b.nodeIdGen
      (some p, { heap := Function.update b.heap p { name := name, id := p, type := type }
                 nodesMap := b.nodesMap ++ [(name, p)]
                 nodeIdGen := p + 1 })

/-- `add_output` unless the output is there already. -/
def Build.addEdge (b : Build) (p node : NodePtr) : Build :=
  if node ∈ (b.heap p).outNodes then b else { b with heap := b.heap.addOutput p node }

/-- The body of the loop over the tokens of `children`. -/
def Build.child (info : Str → Option NodeType) (service : NodePtr) (b : Build) (c : Str) : Build :=
  if c = [] then b
  else
    match b.create info (trim c) with
    | (none, b) => b
    | (some child, b) => b.addEdge service child

/-- The body of the loop over the tokens of `parents`, which does not skip empty ones. -/
def Build.parent (info : Str → Option NodeType) (service : NodePtr) (b : Build) (p : Str) : Build :=
  match b.create info (trim p) with
  | (none, b) => b
  | (some pNode, b) => b.addEdge pNode service

/-- The loop over the entries of one graph, with its local `root`. An entry that cannot
be created ends the loop. -/
def Build.entries (info : Str → Option NodeType) : Build → Option NodePtr → GraphConf → Build × Option NodePtr
  | b, root, [] => (b, root)
  | b, root, (nodeName, conf) :: rest =>
    match b.create info nodeName with
    | (none, b) => (b, root)
    | (some service, b) =>
      let root := if conf.root = some true then some service else root
      let b := (tokens conf.children).foldl (Build.child info service) b
      let b := (tokens conf.parents).foldl (Build.parent info service) b
      Build.entries info b root rest

/-- `graph_map`, with the memory of each graph's nodes. -/
abbrev GraphMap := List (Str × Graph × Heap)

/-- `unordered_map::insert`: an entry that exists stays. -/
def GraphMap.insert (m : GraphMap) (name : Str) (e : Graph × Heap) : GraphMap :=
  if (m.lookup name).isSome then m else m ++ [(name, e)]

/-- `GraphManager::init`, on the graphs of the file. -/
def graphManagerInit (fuel : ℕ) (info : Str → Option NodeType) :
    GraphMap → List (Str × GraphConf) → Option (Except Fault (Bool × GraphMap))
  | m, [] => some (.ok (true, m))
  | m, (graphName, conf) :: rest =>
    let (b, root) := Build.entries info {} none conf
    match Graph.init fuel { maxNodeId := b.nodeIdGen } b.heap root graphName with
    | none => none
    | some (.error f) => some (.error f)
    | some (.ok (ret, g, h)) =>
      if ret = 0 then graphManagerInit fuel info (m.insert graphName (g, h)) rest
      else some (.ok (false, m))

end Graphize
