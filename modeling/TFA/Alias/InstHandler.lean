/-
  The instruction handlers (`InstHandler.cc`).

  Each handler finds or allocates the nodes of its two operands and then either
  makes one point to the other (loads, stores) or merges them (moves).

  * `pointTo` is the branch that loads and stores share;
  * `AliasCall` is one call of a handler, `handle` its effect and `run` that of
    a sequence of calls;
  * `prepare` and `mergeCall` split a call into the part before the graph is
    joined and the call of `mergeNode` that joins it, if there is one
    (`handle_eq`).
-/
import TFA.Alias.MergeNode
import TFA.IR

namespace TFA

namespace AliasGraph

section
variable (tg : TBAAGraph) (kind : Value → ValueKind)

/-! ## The handlers -/

/-- `node2` points to some node already, or some node points to `node1`, or
    else `node2` now points to `node1`. -/
def pointTo (node1 node2 : NodeId) (g : AliasGraph) : AliasGraph :=
  match g.next .toNode node2 with
  | some node2_toNode => mergeNode tg node1 node2_toNode g
  | none =>
    match g.next .fromNode node1 with
    | some node1_fromNode => mergeNode tg node1_fromNode node2 g
    | none => g.link .toNode node2 node1

/-- Tag a node that has no tag. -/
def tagIfNone (n : NodeId) (t : MDNode) (g : AliasGraph) : AliasGraph :=
  match g.tag n with
  | none => g.setTag n (some t)
  | some _ => g

/-- The tag of a stored function: its first one, or none again after a store
    with a disjoint one. -/
def tagFunction (F : Value) (t : MDNode) (g : AliasGraph) : AliasGraph :=
  let (funcNode, g) := g.nodeOf F
  match g.tag funcNode with
  | none => g.setTag funcNode (some t)
  | some t' => if t' ≠ t ∧ tg.mayAliasByTBAA t' t = false then g.setTag funcNode none else g

/-- `HandleAlloc`. -/
def handleAlloc (ALI : Value) (g : AliasGraph) : AliasGraph := (g.nodeOf ALI).2

/-- `HandleLoad`: `v1 = *v2`. -/
def handleLoad (LI op : Value) (tag : Option MDNode) (g : AliasGraph) : AliasGraph :=
  let (node1, g) := g.nodeOf LI
  let (node2, g) := g.nodeOf op
  let g := match tag with
    | some t => tagIfNone node1 t (tagIfNone node2 t g)
    | none => g
  pointTo tg node1 node2 g

/-- `HandleStore` of a `StoreInst`: `*v2 = v1`. -/
def handleStore (vop pop : Value) (tag : Option MDNode) (g : AliasGraph) : AliasGraph :=
  if kind vop = .constantData then g
  else
    let (node1, g) := g.nodeOf vop
    let (node2, g) := g.nodeOf pop
    let g := match tag with
      | some t =>
        let g := tagIfNone node2 t g
        if kind vop = .function then tagFunction tg vop t g else g
      | none => g
    if g.checkNodeConnectivity node1 node2 then g else pointTo tg node1 node2 g

/-- `HandleStore` of two values. -/
def handleStoreValues (vop pop : Value) (g : AliasGraph) : AliasGraph :=
  if kind vop = .constantData then g
  else
    let (node1, g) := g.nodeOf vop
    let (node2, g) := g.nodeOf pop
    if g.checkNodeConnectivity node1 node2 then g else pointTo tg node1 node2 g

/-- `HandleMove`: `v1 = v2`. -/
def handleMove (v1 v2 : Value) (g : AliasGraph) : AliasGraph :=
  let (node2, g) := g.nodeOf v2
  match g.getNode v1 with
  | none => g.insertValue node2 v1
  | some node1 =>
    if node1 = node2 then g
    else if g.checkNodeConnectivity node1 node2 then g
    else mergeNode tg node1 node2 g

end

/-! ## Finding nodes -/

section
variable {g : AliasGraph} {V W : Value}

theorem nodeOf_of_some {n : NodeId} (h : g.getNode V = some n) : g.nodeOf V = (n, g) := by
  rw [nodeOf, h]

theorem nodeOf_of_none (h : g.getNode V = none) :
    g.nodeOf V = (g.fresh, { g with fresh := g.fresh + 1 }.insertValue g.fresh V) := by
  rw [nodeOf, h]

theorem getNode_insertValue (g : AliasGraph) (n : NodeId) (V W : Value) :
    (g.insertValue n V).getNode W = if W = V then some n else g.getNode W :=
  Function.update_apply ..

@[simp] theorem getNode_nodeOf_self : (g.nodeOf V).2.getNode V = some (g.nodeOf V).1 := by
  cases h : g.getNode V with
  | some n => rw [nodeOf_of_some h]; exact h
  | none => rw [nodeOf_of_none h, getNode_insertValue, if_pos rfl]

theorem getNode_nodeOf {n : NodeId} (h : g.getNode W = some n) :
    (g.nodeOf V).2.getNode W = some n := by
  cases hV : g.getNode V with
  | some m => rw [nodeOf_of_some hV]; exact h
  | none =>
    have hWV : W ≠ V := by rintro rfl; rw [h] at hV; cases hV
    rw [nodeOf_of_none hV, getNode_insertValue, if_neg hWV]; exact h

end

end AliasGraph

/-- One call of a handler, with the operands and the tag that it reads off the
    instruction. -/
inductive AliasCall where
  | alloc (ALI : Value)
  | load (LI op : Value) (tag : Option MDNode)
  | store (vop pop : Value) (tag : Option MDNode)
  | storeValues (vop pop : Value)
  | move (v1 v2 : Value)
deriving DecidableEq

namespace AliasCall

section
variable (tg : TBAAGraph) (kind : Value → ValueKind)

/-- The effect of a call. -/
def handle : AliasCall → AliasGraph → AliasGraph
  | .alloc ALI => AliasGraph.handleAlloc ALI
  | .load LI op tag => AliasGraph.handleLoad tg LI op tag
  | .store vop pop tag => AliasGraph.handleStore tg kind vop pop tag
  | .storeValues vop pop => AliasGraph.handleStoreValues tg kind vop pop
  | .move v1 v2 => AliasGraph.handleMove tg v1 v2

/-- The effect of a sequence of calls. -/
def run (calls : List AliasCall) (g : AliasGraph) : AliasGraph :=
  calls.foldl (fun g c => c.handle tg kind g) g

/-! ## Before and after the join -/

/-- How a call joins the graph once its operands have their nodes. -/
inductive Join where
  | none
  | merge (n1 n2 : NodeId)
  /-- the first node now points to the second -/
  | link (n1 n2 : NodeId)
deriving DecidableEq

/-- The effect of a join. -/
def Join.apply : Join → AliasGraph → AliasGraph
  | .none, g => g
  | .merge n1 n2, g => AliasGraph.mergeNode tg n1 n2 g
  | .link n1 n2, g => g.link .toNode n1 n2

/-- The join of a load or a store. -/
def pointJoin (g : AliasGraph) (node1 node2 : NodeId) : Join :=
  match g.next .toNode node2 with
  | some node2_toNode => .merge node1 node2_toNode
  | Option.none =>
    match g.next .fromNode node1 with
    | some node1_fromNode => .merge node1_fromNode node2
    | Option.none => .link node2 node1

/-- The graph after a call has found or allocated its nodes and tagged them. -/
def prepare : AliasCall → AliasGraph → AliasGraph
  | .alloc ALI, g => (g.nodeOf ALI).2
  | .load LI op tag, g =>
    let (node1, g) := g.nodeOf LI
    let (node2, g) := g.nodeOf op
    match tag with
    | some t => AliasGraph.tagIfNone node1 t (AliasGraph.tagIfNone node2 t g)
    | Option.none => g
  | .store vop pop tag, g =>
    if kind vop = .constantData then g
    else
      let (_, g) := g.nodeOf vop
      let (node2, g) := g.nodeOf pop
      match tag with
      | some t =>
        let g := AliasGraph.tagIfNone node2 t g
        if kind vop = .function then AliasGraph.tagFunction tg vop t g else g
      | Option.none => g
  | .storeValues vop pop, g =>
    if kind vop = .constantData then g else ((g.nodeOf vop).2.nodeOf pop).2
  | .move v1 v2, g =>
    let (node2, g) := g.nodeOf v2
    match g.getNode v1 with
    | Option.none => g.insertValue node2 v1
    | some _ => g

/-- The join that a call makes on a graph where its operands have their nodes. -/
def joinOf (g : AliasGraph) : AliasCall → Join
  | .alloc _ => .none
  | .load LI op _ =>
    match g.getNode LI, g.getNode op with
    | some node1, some node2 => pointJoin g node1 node2
    | _, _ => .none
  | .store vop pop _ | .storeValues vop pop =>
    if kind vop = .constantData then .none
    else
      match g.getNode vop, g.getNode pop with
      | some node1, some node2 =>
        if g.checkNodeConnectivity node1 node2 then .none else pointJoin g node1 node2
      | _, _ => .none
  | .move v1 v2 =>
    match g.getNode v1, g.getNode v2 with
    | some node1, some node2 =>
      if node1 = node2 then .none
      else if g.checkNodeConnectivity node1 node2 then .none else .merge node1 node2
    | _, _ => .none

/-- The two operands that a call relates. -/
def operands : AliasCall → Option (Value × Value)
  | .alloc _ => none
  | .load LI op _ => some (LI, op)
  | .store vop pop _ => if kind vop = .constantData then none else some (vop, pop)
  | .storeValues vop pop => if kind vop = .constantData then none else some (vop, pop)
  | .move v1 v2 => some (v1, v2)

/-- The tag of the instruction. -/
def tag : AliasCall → Option MDNode
  | .load _ _ tag | .store _ _ tag => tag
  | .alloc _ | .storeValues _ _ | .move _ _ => none

end

section
variable {tg : TBAAGraph} {kind : Value → ValueKind}

theorem pointTo_eq (node1 node2 : NodeId) (g : AliasGraph) :
    AliasGraph.pointTo tg node1 node2 g = (pointJoin g node1 node2).apply tg g := by
  unfold AliasGraph.pointTo pointJoin
  cases g.next .toNode node2 with
  | some t => rfl
  | none => cases g.next .fromNode node1 <;> rfl

@[simp] theorem NodeMap_setTag (g : AliasGraph) (n : NodeId) (t : Option MDNode) :
    (g.setTag n t).NodeMap = g.NodeMap := rfl

@[simp] theorem NodeMap_tagIfNone (g : AliasGraph) (n : NodeId) (t : MDNode) :
    (AliasGraph.tagIfNone n t g).NodeMap = g.NodeMap := by
  unfold AliasGraph.tagIfNone; split <;> rfl

theorem tagFunction_of_some {g : AliasGraph} {F : Value} {t : MDNode} {n : NodeId}
    (h : g.getNode F = some n) : AliasGraph.tagFunction tg F t g =
      match g.tag n with
      | none => g.setTag n (some t)
      | some t' => if t' ≠ t ∧ tg.mayAliasByTBAA t' t = false then g.setTag n none else g := by
  rw [AliasGraph.tagFunction, AliasGraph.nodeOf_of_some h]

theorem getNode_congr {g g' : AliasGraph} (h : g'.NodeMap = g.NodeMap) (V : Value) :
    g'.getNode V = g.getNode V := congrFun h V

@[simp] theorem NodeMap_tagFunction {g : AliasGraph} {F : Value} {t : MDNode} {n : NodeId}
    (h : g.getNode F = some n) : (AliasGraph.tagFunction tg F t g).NodeMap = g.NodeMap := by
  rw [tagFunction_of_some h]
  split
  · rfl
  · split <;> rfl

/-- The nodes of the operands of a load or a store, in the prepared graph. -/
theorem getNode_nodeOf_pair (g : AliasGraph) (V W : Value) :
    ((g.nodeOf V).2.nodeOf W).2.getNode V = some (g.nodeOf V).1 ∧
      ((g.nodeOf V).2.nodeOf W).2.getNode W = some ((g.nodeOf V).2.nodeOf W).1 :=
  ⟨AliasGraph.getNode_nodeOf AliasGraph.getNode_nodeOf_self, AliasGraph.getNode_nodeOf_self⟩

variable (tg kind) in
theorem NodeMap_prepare_load (LI op : Value) (tag : Option MDNode) (g : AliasGraph) :
    ((AliasCall.load LI op tag).prepare tg kind g).NodeMap =
      ((g.nodeOf LI).2.nodeOf op).2.NodeMap := by
  unfold prepare
  cases tag <;> simp

variable (tg) in
theorem NodeMap_prepare_store {vop : Value} (h : kind vop ≠ .constantData) (pop : Value)
    (tag : Option MDNode) (g : AliasGraph) :
    ((AliasCall.store vop pop tag).prepare tg kind g).NodeMap =
      ((g.nodeOf vop).2.nodeOf pop).2.NodeMap := by
  simp only [prepare, h, if_false]
  cases tag with
  | none => rfl
  | some t =>
    dsimp only
    split
    · rw [NodeMap_tagFunction, NodeMap_tagIfNone]
      rw [getNode_congr (NodeMap_tagIfNone _ _ _)]
      exact (getNode_nodeOf_pair g vop pop).1
    · exact NodeMap_tagIfNone _ _ _

/-- The nodes of the operands in the prepared graph. -/
theorem getNode_prepare_load (tg : TBAAGraph) (kind : Value → ValueKind) (LI op : Value)
    (tag : Option MDNode) (g : AliasGraph) :
    ((AliasCall.load LI op tag).prepare tg kind g).getNode LI = some (g.nodeOf LI).1 ∧
      ((AliasCall.load LI op tag).prepare tg kind g).getNode op =
        some ((g.nodeOf LI).2.nodeOf op).1 := by
  have hmap := NodeMap_prepare_load tg kind LI op tag g
  rw [getNode_congr hmap, getNode_congr hmap]
  exact getNode_nodeOf_pair g LI op

theorem getNode_prepare_store (tg : TBAAGraph) {vop : Value} (h : kind vop ≠ .constantData)
    (pop : Value) (tag : Option MDNode) (g : AliasGraph) :
    ((AliasCall.store vop pop tag).prepare tg kind g).getNode vop = some (g.nodeOf vop).1 ∧
      ((AliasCall.store vop pop tag).prepare tg kind g).getNode pop =
        some ((g.nodeOf vop).2.nodeOf pop).1 := by
  have hmap := NodeMap_prepare_store tg h pop tag g
  rw [getNode_congr hmap, getNode_congr hmap]
  exact getNode_nodeOf_pair g vop pop

/-- A call prepares the graph and then joins it. -/
theorem handle_eq (c : AliasCall) (g : AliasGraph) :
    c.handle tg kind g = (joinOf kind (c.prepare tg kind g) c).apply tg (c.prepare tg kind g) := by
  cases c with
  | alloc ALI => rfl
  | load LI op tag =>
    obtain ⟨h1, h2⟩ := getNode_prepare_load tg kind LI op tag g
    simp only [joinOf, h1, h2]
    rw [← pointTo_eq]
    rfl
  | store vop pop tag =>
    by_cases hc : kind vop = .constantData
    · simp [handle, AliasGraph.handleStore, joinOf, prepare, hc, Join.apply]
    · obtain ⟨h1, h2⟩ := getNode_prepare_store tg hc pop tag g
      have hhandle : (AliasCall.store vop pop tag).handle tg kind g =
          let p := (AliasCall.store vop pop tag).prepare tg kind g
          if p.checkNodeConnectivity (g.nodeOf vop).1 ((g.nodeOf vop).2.nodeOf pop).1 then p
          else AliasGraph.pointTo tg (g.nodeOf vop).1 ((g.nodeOf vop).2.nodeOf pop).1 p := by
        simp only [handle, AliasGraph.handleStore, prepare, hc, if_false]
      rw [hhandle]
      simp only [joinOf, hc, if_false, h1, h2]
      split
      · rfl
      · exact pointTo_eq _ _ _
  | storeValues vop pop =>
    by_cases hc : kind vop = .constantData
    · simp [handle, AliasGraph.handleStoreValues, joinOf, prepare, hc, Join.apply]
    · obtain ⟨h1, h2⟩ := getNode_nodeOf_pair g vop pop
      simp only [joinOf, prepare, hc, if_false, h1, h2]
      simp only [handle, AliasGraph.handleStoreValues, hc, if_false]
      split
      · rfl
      · exact pointTo_eq _ _ _
  | move v1 v2 =>
    simp only [handle, AliasGraph.handleMove, prepare]
    cases h1 : (g.nodeOf v2).2.getNode v1 with
    | none =>
      have h12 : v2 ≠ v1 := by rintro rfl; simp at h1
      simp [joinOf, AliasGraph.getNode_insertValue, h12, Join.apply]
    | some node1 =>
      simp only [joinOf, h1, AliasGraph.getNode_nodeOf_self]
      split
      · rfl
      · split <;> rfl

end

end AliasCall

end TFA
