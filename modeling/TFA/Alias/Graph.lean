/-
  The alias graph (`AliasAnalysis.h`, `AliasAnalysisTools.cc`,
  `InterAliasAnalysis.cc`).

  A node holds a class of values and at most one TBAA tag; it points to at most
  one node and is pointed to by at most one node.  The two directions are kept
  in two maps, `ToNodeMap` and `FromNodeMap`; `Dir` names them, so that the two
  halves of `mergeNode`, one the mirror image of the other, are one definition.

  * `mergeNode` merges one node into another and, as the two may now have two
    successors and two predecessors, merges these in turn;
  * `getClusterValues` and `checkNodeConnectivity` search the graph in both
    directions.
-/
import TFA.Lib.Worklist
import TFA.TBAA.Metadata
import Mathlib.Data.Finmap

namespace TFA

/-- The address of an LLVM `Value`. -/
abbrev Value := ℕ

/-- The address of an `AliasNode`. -/
abbrev NodeId := ℕ

/-- A class of aliased values, with the tag of the memory they point to. -/
structure AliasNode where
  aliasclass : Finset Value := ∅
  TBAATag : Option MDNode := none
deriving DecidableEq

/-- The two edge maps of the graph. -/
inductive Dir where
  /-- `ToNodeMap` -/
  | toNode
  /-- `FromNodeMap` -/
  | fromNode
deriving DecidableEq

/-- The other edge map. -/
def Dir.rev : Dir → Dir
  | .toNode => .fromNode
  | .fromNode => .toNode

@[simp] theorem Dir.rev_rev (d : Dir) : d.rev.rev = d := by cases d <;> rfl

@[simp] theorem Dir.rev_ne (d : Dir) : d.rev ≠ d := by cases d <;> decide

@[simp] theorem Dir.ne_rev (d : Dir) : d ≠ d.rev := by cases d <;> decide

/-- The part of an `AliasContext` that the instruction handlers work on, with
    the allocated nodes, the next free address and `g_NumTBAABlockedMerges`. -/
structure AliasGraph where
  NodeMap : Value → Option NodeId := fun _ => none
  ToNodeMap : Finmap (fun _ : NodeId => NodeId) := ∅
  FromNodeMap : Finmap (fun _ : NodeId => NodeId) := ∅
  nodes : NodeId → AliasNode := fun _ => {}
  fresh : NodeId := 0
  NumTBAABlockedMerges : ℕ := 0

namespace AliasGraph

/-! ## Reading and writing the maps -/

section
variable (g : AliasGraph)

/-- The edge map of a direction. -/
def edges : Dir → Finmap (fun _ : NodeId => NodeId)
  | .toNode => g.ToNodeMap
  | .fromNode => g.FromNodeMap

/-- The neighbour of a node in a direction. -/
def next (d : Dir) (n : NodeId) : Option NodeId := (g.edges d).lookup n

/-- `getNode`. -/
def getNode (V : Value) : Option NodeId := g.NodeMap V

/-- The class of a node. -/
def aliasclass (n : NodeId) : Finset Value := (g.nodes n).aliasclass

/-- The tag of a node. -/
def tag (n : NodeId) : Option MDNode := (g.nodes n).TBAATag

/-- Replace the edge map of a direction. -/
def setEdges (d : Dir) (m : Finmap (fun _ : NodeId => NodeId)) : AliasGraph :=
  match d with
  | .toNode => { g with ToNodeMap := m }
  | .fromNode => { g with FromNodeMap := m }

/-- `erase` on an edge map. -/
def eraseEdge (d : Dir) (n : NodeId) : AliasGraph := g.setEdges d ((g.edges d).erase n)

/-- Assign an entry of an edge map. -/
def insertEdge (d : Dir) (n m : NodeId) : AliasGraph := g.setEdges d ((g.edges d).insert n m)

/-- The two assignments that make `m` the neighbour of `n`. -/
def link (d : Dir) (n m : NodeId) : AliasGraph := (g.insertEdge d n m).insertEdge d.rev m n

/-- The four erasures before the neighbours `t1` of `n1` and `t2` of `n2` are merged. -/
def tearOut (d : Dir) (n1 n2 t1 t2 : NodeId) : AliasGraph :=
  (((g.eraseEdge d n1).eraseEdge d n2).eraseEdge d.rev t1).eraseEdge d.rev t2

/-- Assign the tag of a node. -/
def setTag (n : NodeId) (t : Option MDNode) : AliasGraph :=
  { g with nodes := Function.update g.nodes n { g.nodes n with TBAATag := t } }

/-- `node->insert(V)` and `NodeMap[V] = node`. -/
def insertValue (n : NodeId) (V : Value) : AliasGraph :=
  { g with
    nodes := Function.update g.nodes n
      { g.nodes n with aliasclass := insert V (g.nodes n).aliasclass }
    NodeMap := Function.update g.NodeMap V (some n) }

/-- The node of `V`; one that holds `V` alone is allocated when there is none. -/
def nodeOf (V : Value) : NodeId × AliasGraph :=
  match g.getNode V with
  | some n => (n, g)
  | none => (g.fresh, { g with fresh := g.fresh + 1 }.insertValue g.fresh V)

end

@[simp] theorem next_setEdges (g : AliasGraph) (d d' : Dir)
    (m : Finmap (fun _ : NodeId => NodeId)) (n : NodeId) :
    (g.setEdges d m).next d' n = if d' = d then m.lookup n else g.next d' n := by
  cases d <;> cases d' <;> rfl

@[simp] theorem next_eraseEdge (g : AliasGraph) (d d' : Dir) (n x : NodeId) :
    (g.eraseEdge d n).next d' x = if d' = d ∧ x = n then none else g.next d' x := by
  unfold eraseEdge
  rw [next_setEdges]
  by_cases hd : d' = d
  · subst hd
    by_cases hx : x = n
    · subst hx; simp
    · simp [hx, next]
  · simp [hd]

@[simp] theorem next_insertEdge (g : AliasGraph) (d d' : Dir) (n m x : NodeId) :
    (g.insertEdge d n m).next d' x = if d' = d ∧ x = n then some m else g.next d' x := by
  unfold insertEdge
  rw [next_setEdges]
  by_cases hd : d' = d
  · subst hd
    by_cases hx : x = n
    · subst hx; simp
    · simp [hx, next]
  · simp [hd]

theorem next_link (g : AliasGraph) (d d' : Dir) (n m x : NodeId) :
    (g.link d n m).next d' x = if d' = d ∧ x = n then some m
      else if d' = d.rev ∧ x = m then some n else g.next d' x := by
  unfold link
  rw [next_insertEdge, next_insertEdge]
  by_cases hd : d' = d
  · subst hd; simp
  · simp [hd]

theorem next_tearOut (g : AliasGraph) (d : Dir) (n1 n2 t1 t2 x : NodeId) :
    (g.tearOut d n1 n2 t1 t2).next d x = if x = n1 ∨ x = n2 then none else g.next d x := by
  simp [tearOut]; grind

theorem next_rev_tearOut (g : AliasGraph) (d : Dir) (n1 n2 t1 t2 x : NodeId) :
    (g.tearOut d n1 n2 t1 t2).next d.rev x =
      if x = t1 ∨ x = t2 then none else g.next d.rev x := by
  simp [tearOut]; grind

section
variable (g : AliasGraph) (d : Dir) (map : Finmap (fun _ : NodeId => NodeId)) (n m : NodeId)

@[simp] theorem nodes_setEdges : (g.setEdges d map).nodes = g.nodes := by cases d <;> rfl
@[simp] theorem NodeMap_setEdges : (g.setEdges d map).NodeMap = g.NodeMap := by cases d <;> rfl
@[simp] theorem fresh_setEdges : (g.setEdges d map).fresh = g.fresh := by cases d <;> rfl
@[simp] theorem blocked_setEdges :
    (g.setEdges d map).NumTBAABlockedMerges = g.NumTBAABlockedMerges := by cases d <;> rfl

@[simp] theorem nodes_eraseEdge : (g.eraseEdge d n).nodes = g.nodes := nodes_setEdges ..
@[simp] theorem NodeMap_eraseEdge : (g.eraseEdge d n).NodeMap = g.NodeMap := NodeMap_setEdges ..
@[simp] theorem fresh_eraseEdge : (g.eraseEdge d n).fresh = g.fresh := fresh_setEdges ..
@[simp] theorem blocked_eraseEdge :
    (g.eraseEdge d n).NumTBAABlockedMerges = g.NumTBAABlockedMerges := blocked_setEdges ..

@[simp] theorem nodes_tearOut (t1 t2 : NodeId) :
    (g.tearOut d n m t1 t2).nodes = g.nodes := by simp [tearOut]
@[simp] theorem NodeMap_tearOut (t1 t2 : NodeId) :
    (g.tearOut d n m t1 t2).NodeMap = g.NodeMap := by simp [tearOut]
@[simp] theorem fresh_tearOut (t1 t2 : NodeId) :
    (g.tearOut d n m t1 t2).fresh = g.fresh := by simp [tearOut]
@[simp] theorem blocked_tearOut (t1 t2 : NodeId) :
    (g.tearOut d n m t1 t2).NumTBAABlockedMerges = g.NumTBAABlockedMerges := by simp [tearOut]

@[simp] theorem nodes_link : (g.link d n m).nodes = g.nodes := by simp [link, insertEdge]
@[simp] theorem NodeMap_link : (g.link d n m).NodeMap = g.NodeMap := by simp [link, insertEdge]
@[simp] theorem fresh_link : (g.link d n m).fresh = g.fresh := by simp [link, insertEdge]
@[simp] theorem blocked_link :
    (g.link d n m).NumTBAABlockedMerges = g.NumTBAABlockedMerges := by simp [link, insertEdge]

end

/-! ## Merging -/

section
variable (tg : TBAAGraph)

/-- `shouldMergeByTBAA`: the tags of the two nodes are not proven disjoint. -/
def shouldMergeByTBAA (g : AliasGraph) (A B : NodeId) : Bool :=
  match g.tag A, g.tag B with
  | some TA, some TB => tg.mayAliasByTBAA (some TA) (some TB)
  | _, _ => true

/-- An untagged `n2` takes over the tag of `n1`. -/
def inheritTag (g : AliasGraph) (n1 n2 : NodeId) : AliasGraph :=
  match g.tag n2, g.tag n1 with
  | none, some t => g.setTag n2 (some t)
  | _, _ => g

/-- The values of `n1` move to `n2`. -/
def moveClass (g : AliasGraph) (n1 n2 : NodeId) : AliasGraph :=
  let moved := g.aliasclass n1
  { g with
    nodes := Function.update
      (Function.update g.nodes n2 { g.nodes n2 with aliasclass := g.aliasclass n2 ∪ moved })
      n1 { g.nodes n1 with aliasclass := ∅ }
    NodeMap := fun v => if v ∈ moved then some n2 else g.NodeMap v }

/-- One half of the edge changes of `mergeNode`: the neighbour that `n1` has in
    the direction `d` becomes that of `n2`, or is merged into the one that `n2`
    has already, with the four map entries torn out meanwhile. -/
def mergeEdges (merge : NodeId → NodeId → AliasGraph → AliasGraph) (d : Dir) (n1 n2 : NodeId)
    (g : AliasGraph) : AliasGraph :=
  match g.next d n1 with
  | none => g
  | some n1_toNode =>
    match g.next d n2 with
    | some n2_toNode =>
      if n1_toNode = n2_toNode then g
      else
        (merge n1_toNode n2_toNode (g.tearOut d n1 n2 n1_toNode n2_toNode)).link d n2 n2_toNode
    | none => (g.eraseEdge d n1).link d n2 n1_toNode

/-- The body of `mergeNode`, with its recursive calls as a parameter. -/
def mergeBody (merge : NodeId → NodeId → AliasGraph → AliasGraph) (n1 n2 : NodeId)
    (g : AliasGraph) : AliasGraph :=
  if shouldMergeByTBAA tg g n1 n2 then
    let g := g.inheritTag n1 n2
    if n1 = n2 then g
    else mergeEdges merge .fromNode n1 n2 (mergeEdges merge .toNode n1 n2 (g.moveClass n1 n2))
  else { g with NumTBAABlockedMerges := g.NumTBAABlockedMerges + 1 }

/-- `mergeNode` to a depth of `fuel` nested calls. -/
def mergeNodeWithin : ℕ → NodeId → NodeId → AliasGraph → AliasGraph
  | 0, _, _, g => g
  | fuel + 1, n1, n2, g => mergeBody tg (mergeNodeWithin fuel) n1 n2 g

/-- The number of map entries of the graph. -/
def entries (g : AliasGraph) : ℕ := g.ToNodeMap.keys.card + g.FromNodeMap.keys.card

/-- Merge `n1` into `n2`.  A nested call always has fewer edges to work on, so
    this depth is never reached: `mergeNode_eq` is the recursion of the source. -/
def mergeNode (n1 n2 : NodeId) (g : AliasGraph) : AliasGraph :=
  mergeNodeWithin tg (g.entries + 1) n1 n2 g

end

section
variable (g : AliasGraph) (n1 n2 : NodeId)

@[simp] theorem next_inheritTag (d : Dir) : (g.inheritTag n1 n2).next d = g.next d := by
  unfold inheritTag; split <;> cases d <;> rfl

@[simp] theorem NodeMap_inheritTag : (g.inheritTag n1 n2).NodeMap = g.NodeMap := by
  unfold inheritTag; split <;> rfl

@[simp] theorem fresh_inheritTag : (g.inheritTag n1 n2).fresh = g.fresh := by
  unfold inheritTag; split <;> rfl

@[simp] theorem blocked_inheritTag :
    (g.inheritTag n1 n2).NumTBAABlockedMerges = g.NumTBAABlockedMerges := by
  unfold inheritTag; split <;> rfl

@[simp] theorem aliasclass_inheritTag : (g.inheritTag n1 n2).aliasclass = g.aliasclass := by
  funext x
  unfold inheritTag
  split
  · simp only [setTag, aliasclass]
    by_cases hx : x = n2
    · subst hx; simp
    · simp [hx]
  · rfl

@[simp] theorem next_moveClass (d : Dir) : (g.moveClass n1 n2).next d = g.next d := by
  cases d <;> rfl

@[simp] theorem fresh_moveClass : (g.moveClass n1 n2).fresh = g.fresh := rfl

@[simp] theorem blocked_moveClass :
    (g.moveClass n1 n2).NumTBAABlockedMerges = g.NumTBAABlockedMerges := rfl

@[simp] theorem tag_moveClass : (g.moveClass n1 n2).tag = g.tag := by
  funext x
  simp only [moveClass, tag, Function.update_apply]
  split
  · simp [*]
  · split <;> simp [*]

theorem aliasclass_moveClass (x : NodeId) :
    (g.moveClass n1 n2).aliasclass x =
      if x = n1 then ∅ else if x = n2 then g.aliasclass n2 ∪ g.aliasclass n1
      else g.aliasclass x := by
  simp only [moveClass, aliasclass, Function.update_apply]
  split
  · rfl
  · split <;> simp_all

end

/-! ## Clusters -/

section
variable (g : AliasGraph)

/-- The nodes that `CN` points to and is pointed to by, in the order pushed. -/
def neighbours (CN : NodeId) : List NodeId :=
  (g.next .toNode CN).toList ++ (g.next .fromNode CN).toList

/-- A fuel for the searches: every node is popped, and pushes two at most. -/
def searchFuel : ℕ := 2 * g.entries + 4

/-- The nodes found from a start node; all that is pushed is found. -/
def getClusterNodes (startNode : NodeId) (nodeSet : Finset NodeId) : Finset NodeId :=
  nodeSet ∪ Worklist.bfs g.neighbours g.searchFuel [startNode] ∅

/-- The values aliased to `v`, replacing `valueSet` if `v` has a node. -/
def getClusterValues (v : Value) (valueSet : Finset Value) : Finset Value :=
  match g.getNode v with
  | none => valueSet
  | some n => (g.getClusterNodes n ∅).biUnion g.aliasclass

/-- Does the search from `node1` meet `node2`? -/
def checkNodeConnectivity (node1 node2 : NodeId) : Bool :=
  Worklist.bfsFind g.neighbours (· == node2) g.searchFuel [node1] ∅

end

end AliasGraph

end TFA
