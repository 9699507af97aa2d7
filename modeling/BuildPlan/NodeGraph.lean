import BuildPlan.Node

/-!
# BuildPlan.NodeGraph

The nodes of a project in creation order. A path is looked up among the newest
nodes first, so a product takes over the path of an older node.
-/

namespace BuildPlan

/-- Nodes with an index by path and by the name of a group. -/
structure NodeGraph where
  nodes : Array Node := #[]
  /-- The file nodes by path, newest first. -/
  byPath : List (Path × NodeId) := []
  /-- The groups by name. -/
  byGroup : List (String × NodeId) := []

namespace NodeGraph

def size (graph : NodeGraph) : Nat := graph.nodes.size

def node? (graph : NodeGraph) (id : NodeId) : Option Node := graph.nodes[id.index]?

def ids (graph : NodeGraph) : List NodeId := (List.range graph.size).map NodeId.mk

/-- The nodes in creation order, with their ids. -/
def entries (graph : NodeGraph) : List (NodeId × Node) :=
  graph.nodes.toList.zipIdx.map fun (node, index) => (⟨index⟩, node)

/-- The path or group name of a node, for messages and build files. -/
def name (graph : NodeGraph) (id : NodeId) : String :=
  ((graph.node? id).map Node.name).getD "<unknown>"

/-- The node that stands for a path. -/
def find (graph : NodeGraph) (path : Path) : Option NodeId :=
  (graph.byPath.find? fun (known, _) => path.same known).map (·.2)

def step? (graph : NodeGraph) (id : NodeId) : Option BuildStep :=
  (graph.node? id).bind Node.step?

def isBuilt (graph : NodeGraph) (id : NodeId) : Bool := (graph.step? id).isSome

/-- Make a new file node, which takes over the path. -/
def addFile (graph : NodeGraph) (path : Path) : NodeId × NodeGraph :=
  let id : NodeId := ⟨graph.size⟩
  (id, { graph with
    nodes := graph.nodes.push { kind := .file path none }
    byPath := (path, id) :: graph.byPath })

/-- The node for a path, made when there is none. -/
def file (graph : NodeGraph) (path : Path) : NodeId × NodeGraph :=
  match graph.find path with
  | some id => (id, graph)
  | none => graph.addFile path

/-- The node for a product. The node that stands for the path is used unless a
step produces it already. -/
def addProduct (graph : NodeGraph) (path : Path) : NodeId × NodeGraph :=
  match graph.find path with
  | some id => if graph.isBuilt id then graph.addFile path else (id, graph)
  | none => graph.addFile path

/-- The group with the given name, made when there is none. -/
def group (graph : NodeGraph) (name : String) : NodeId × NodeGraph :=
  match graph.byGroup.lookup name with
  | some id => (id, graph)
  | none =>
    let id : NodeId := ⟨graph.size⟩
    (id, { graph with
      nodes := graph.nodes.push { kind := .group name }
      byGroup := Assoc.put name id graph.byGroup })

/-- Change a node. An id without a node changes nothing. -/
def modify (graph : NodeGraph) (id : NodeId) (change : Node → Node) : NodeGraph :=
  { graph with nodes := graph.nodes.modify id.index change }

def setStep (graph : NodeGraph) (id : NodeId) (step : BuildStep) : Except BuildError NodeGraph :=
  match graph.node? id with
  | none => .ok graph
  | some node => do
    let node ← node.setStep step
    return graph.modify id fun _ => node

/-- Attach the expanded command to a built node. -/
def setCommand (graph : NodeGraph) (id : NodeId) (command : List Token) : NodeGraph :=
  graph.modify id (·.setCommand command)

end NodeGraph

end BuildPlan
