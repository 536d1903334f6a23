import Pinning.Geometry

/-!
Forests of named frames. Nodes are numbered in the order in which they are added, so a parent's
number is smaller than its children's, and the way from a node to its root takes no more steps
than the node's number. A frame is relative to the origin of its parent's. Nodes are found by their
names in a table that agrees with them.

A number that belongs to no node reads as a nameless root with an empty frame.
-/

namespace Pinning

variable {α : Type}

abbrev NodeId := Nat

structure Node (α : Type) where
  name : String
  frame : Rect α
  content : Option (Size α) := none
  parent : Option NodeId := none
  children : List NodeId := []

/-- The names of nodes with the numbers that they stand for, the last one first. -/
def Node.index (nodes : Array (Node α)) : List (String × NodeId) :=
  (nodes.toList.map Node.name).zipIdx.reverse

theorem Node.index_push (nodes : Array (Node α)) (n : Node α) :
    index (nodes.push n) = (n.name, nodes.size) :: index nodes := by
  simp [index, List.zipIdx_append]

theorem Node.index_map {nodes : Array (Node α)} {f : Node α → Node α}
    (h : ∀ n, (f n).name = n.name) : index (nodes.map f) = index nodes := by
  simp [index, Function.comp_def, h]

/-- A change of a node that keeps its name. -/
structure Node.Change (α : Type) where
  apply : Node α → Node α
  name_apply (n : Node α) : (apply n).name = n.name

def Node.Change.frame (frame : Rect α) : Node.Change α := ⟨fun n => { n with frame }, fun _ => rfl⟩

def Node.Change.content (size : Option (Size α)) : Node.Change α :=
  ⟨fun n => { n with content := size }, fun _ => rfl⟩

/-- A last child more. -/
def Node.Change.child (id : NodeId) : Node.Change α :=
  ⟨fun n => { n with children := n.children ++ [id] }, fun _ => rfl⟩

theorem Node.index_modify (nodes : Array (Node α)) (id : NodeId) (c : Node.Change α) :
    index (nodes.modify id c.apply) = index nodes := by
  rw [index, index, Array.toList_modify]
  congr 2
  refine List.ext_getElem? fun i => ?_
  simp only [List.getElem?_map, List.getElem?_modify, Option.map_eq_map, Option.map_map]
  congr 1
  funext n
  by_cases hi : id = i <;> simp [hi, c.name_apply]

/-- Nodes, and beside them the table in which their names are looked up. -/
structure Tree (α : Type) where
  nodes : Array (Node α) := #[]
  byName : List (String × NodeId) := []
  byName_eq : byName = Node.index nodes := by rfl

namespace Tree

instance : EmptyCollection (Tree α) := ⟨{}⟩

variable (t : Tree α)

def size : Nat := t.nodes.size

def ids : List NodeId := List.range t.size

def node? (id : NodeId) : Option (Node α) := t.nodes[id]?

/-- Adds a node, which takes over its name from any other that has it. -/
def insert (n : Node α) : Tree α where
  nodes := t.nodes.push n
  byName := (n.name, t.size) :: t.byName
  byName_eq := by rw [Node.index_push, t.byName_eq, size]

def modify (id : NodeId) (c : Node.Change α) : Tree α where
  nodes := t.nodes.modify id c.apply
  byName := t.byName
  byName_eq := by rw [Node.index_modify, t.byName_eq]

/-- Adds a root and returns its number. -/
def addRoot (name : String) (frame : Rect α) : Tree α × NodeId := (t.insert { name, frame }, t.size)

/-- Adds a last child of `parent` and returns its number. -/
def addChild (parent : NodeId) (name : String) (frame : Rect α) : Tree α × NodeId :=
  let grown := t.insert { name, frame, parent := some parent }
  (grown.modify parent (.child t.size), t.size)

def setContent (id : NodeId) (size : Option (Size α)) : Tree α :=
  t.modify id (.content size)

def setFrame (id : NodeId) (frame : Rect α) : Tree α := t.modify id (.frame frame)

def name (id : NodeId) : String := (t.node? id).elim "" (·.name)

def content (id : NodeId) : Option (Size α) := (t.node? id).bind (·.content)

def parent? (id : NodeId) : Option NodeId := (t.node? id).bind (·.parent)

def children (id : NodeId) : List NodeId := (t.node? id).elim [] (·.children)

/-- The node of this name that was added last. -/
def find? (name : String) : Option NodeId := t.byName.lookup name

theorem byName_eq_map : t.byName = t.ids.reverse.map fun id => (t.name id, id) := by
  rw [t.byName_eq, Node.index, List.map_reverse]
  congr 1
  refine List.ext_getElem (by simp [ids, size]) fun id h _ => ?_
  have hid : id < t.nodes.size := by simpa using h
  simp [ids, name, node?, hid]

/-- The table of names says what a search through the nodes would. -/
theorem find?_eq (name : String) :
    t.find? name = t.ids.reverse.find? fun id => t.name id = name := by
  rw [find?, byName_eq_map]
  induction t.ids.reverse with
  | nil => rfl
  | cons id ids ih =>
    have hname : (name == t.name id) = decide (t.name id = name) :=
      Bool.eq_iff_iff.2 (by rw [beq_iff_eq, decide_eq_true_eq, eq_comm])
    rw [List.map_cons, List.lookup_cons, List.find?_cons, hname, ih]

variable {t} in
/-- The nodes make the tree: the table goes by them. -/
theorem ext_nodes {t' : Tree α} (h : t.nodes = t'.nodes) : t = t' := by
  have hbyName : t.byName = t'.byName := by rw [t.byName_eq, t'.byName_eq, h]
  cases t
  cases t'
  cases h
  cases hbyName
  rfl

/-- The other nodes with the same parent; roots are siblings of each other. -/
def siblings (id : NodeId) : List NodeId :=
  match t.parent? id with
  | some p => (t.children p).filter (· ≠ id)
  | none => t.ids.filter fun other => other ≠ id ∧ t.parent? other = none

/-- The ancestors of a node, nearest first. -/
def ancestors (id : NodeId) : List NodeId := climb id id
where
  climb : Nat → NodeId → List NodeId
    | 0, _ => []
    | n + 1, id =>
      match t.parent? id with
      | some p => p :: climb n p
      | none => []

variable [Scalar α]

def frame (id : NodeId) : Rect α := (t.node? id).elim .zero (·.frame)

/-- The size of the node's container, which a root does not have. -/
def containerSize? (id : NodeId) : Option (Size α) := (t.parent? id).map fun p => (t.frame p).size

/-- The node's upper left corner in the coordinates of the roots. -/
def absoluteOrigin (id : NodeId) : Point α :=
  (t.ancestors id).foldl (fun o p => o + (t.frame p).origin) (t.frame id).origin

/-- The corner from which frames inside a node are measured; `none` is the plane of the roots. -/
def spaceOrigin (space : Option NodeId) : Point α := space.elim .zero t.absoluteOrigin

/-- The node's frame in the coordinates of a space. -/
def frameIn (id : NodeId) (space : Option NodeId) : Rect α :=
  (t.frame id).translate (t.spaceOrigin (t.parent? id) - t.spaceOrigin space)

end Tree

end Pinning
