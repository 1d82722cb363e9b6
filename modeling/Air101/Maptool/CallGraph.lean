import Air101.Maptool.Records
import Air101.Storage.Bfs

/-!
# Maptool.CallGraph

The call graph of the map file tool (`tools/maptool/maptool/callgraph.py`): `build_call_graph` and
`_compute_subtree_sizes`. The order in which a set of callees is iterated is a parameter
(`Iteration`).

`Calls` is what the edges say; `forward` has the callees of every caller (`mem_calleesOf`).
-/

namespace Air101
namespace Maptool

open Storage

structure TreeNode where
  name : Text
  sourceFile : Text
  flashSize : Nat
  ramData : Nat
  ramBss : Nat
  depth : Nat
  callees : List Text := []
  callers : List Text := []
  subtreeFlash : Nat := 0
  isNamed : Bool := true
  isAnonCaller : Bool := false
  deriving DecidableEq

structure TreeResult where
  nodes : Dict Text TreeNode := Dict.empty
  roots : List Text := []
  allFunctions : List Text := []
  edgeCount : Nat := 0
  totalFlashSum : Nat := 0
  totalRamSum : Nat := 0
  totalFunctions : Nat := 0
  totalEdges : Nat := 0
  maxDepth : Nat := 0
  unreachableFunctions : List Text := []

/-- The order in which the callees of a function are iterated: any order of the set. -/
structure Iteration where
  order : Text → FinSet Text → List Text
  perm : ∀ caller callees, (order caller callees).Perm callees.elems

/-- The dictionaries `forward` (caller to callees) and `reverse` (callee to callers). -/
def adjacency (edges : List CallEdge) : Dict Text (FinSet Text) × Dict Text (FinSet Text) :=
  edges.foldl
    (fun (forward, reverse) edge =>
      let caller := edge.callerFunc
      let callee := edge.calleeFunc
      if caller = callee then (forward, reverse)
      else (addTo forward caller callee, addTo reverse callee caller))
    (Dict.empty, Dict.empty)

def defaultEntries : List Text :=
  ["UserMain".toList, "luat_main".toList, "main".toList, "task_start".toList,
    "Reset_Handler".toList, "xPortSysTickHandler".toList]

/-- The roots when no entry points are given: the default entries that are there, and the
functions that nothing calls, synthetic ones apart. -/
def autoRoots (pr : ParseResult) (calledSet : List Text) : List Text :=
  pr.functions.keys.foldl
    (fun roots fname =>
      if fname ∉ calledSet ∧ fname ∉ roots ∧ fname.head? ≠ some '<' then roots ++ [fname]
      else roots)
    (defaultEntries.filter fun entry => pr.functions.contains entry)

def makeTreeNode (name : Text) (pr : ParseResult) (depth : Nat) : TreeNode :=
  let info := pr.functions.get? name
  let objFile := (info.map (·.objectFile)).getD []
  let ramInfo := (pr.objectRam.get? objFile).getD {}
  { name := name
    sourceFile := (info.map (·.sourceFile)).getD []
    flashSize := (info.map (·.flashSize)).getD 0
    ramData := ramInfo.dataSize
    ramBss := ramInfo.bssSize
    depth := depth
    isNamed := (info.map (·.isNamed)).getD true
    isAnonCaller := (info.map (·.isAnonymousCaller)).getD false }

/-- The variables of the search. -/
structure Search where
  visited : FinSet Text
  queue : List Text
  nodes : Dict Text TreeNode

/-- `visited.add(name)`, a new node, and `queue.append(name)`. -/
def Search.enter (pr : ParseResult) (s : Search) (name : Text) (depth : Nat) : Search :=
  { visited := s.visited.add name
    queue := s.queue ++ [name]
    nodes := s.nodes.set name (makeTreeNode name pr depth) }

def visitRoot (pr : ParseResult) (s : Search) (root : Text) : Search :=
  if root ∈ s.visited then s else s.enter pr root 0

/-- `if current not in callers: callers.append(current)`. -/
def TreeNode.addCaller (node : TreeNode) (current : Text) : TreeNode :=
  if current ∈ node.callers then node else { node with callers := node.callers ++ [current] }

/-- One callee of `current`, whose depth is `depth`. -/
def visitCallee (pr : ParseResult) (current : Text) (depth : Nat) (s : Search) (callee : Text) :
    Search :=
  let s := if callee ∈ s.visited then s else s.enter pr callee (depth + 1)
  match s.nodes.get? callee with
  | none => s
  | some node => { s with nodes := s.nodes.set callee (node.addCaller current) }

/-- A turn of the loop with `current` taken from the queue. `none` is a `KeyError`. -/
def turn (iter : Iteration) (pr : ParseResult) (forward : Dict Text (FinSet Text)) (maxDepth : Nat)
    (current : Text) (s : Search) : Option Search :=
  match s.nodes.get? current with
  | none => none
  | some node =>
    if node.depth ≥ maxDepth then some s
    else
      let callees := (forward.get? current).getD FinSet.empty
      let nodes := s.nodes.set current { node with callees := sorted callees.elems }
      some ((iter.order current callees).foldl (visitCallee pr current node.depth)
        { s with nodes := nodes })

/-- `while queue`, for a number of turns. -/
def bfsLoop (iter : Iteration) (pr : ParseResult) (forward : Dict Text (FinSet Text))
    (maxDepth : Nat) : Nat → Search → Option Search
  | 0, _ => none
  | turns + 1, s =>
    match s.queue with
    | [] => some s
    | current :: queue =>
      match turn iter pr forward maxDepth current { s with queue := queue } with
      | none => none
      | some s => bfsLoop iter pr forward maxDepth turns s

/-! ## Subtree sizes -/

/-- The greatest depth of a node. -/
def greatestDepth (nodes : Dict Text TreeNode) : Nat :=
  (nodes.values.map (·.depth)).foldr max 0

/-- `nodes[callee].depth > depth`, for a callee that is a node. -/
def deeper (nodes : Dict Text TreeNode) (depth : Nat) (callee : Text) : Option TreeNode :=
  match nodes.get? callee with
  | none => none
  | some node => if node.depth > depth then some node else none

/-- `dfs`: the variables are `visited` and `order`. Each level of the recursion is deeper in the
graph; `none` stands for no levels left. -/
def dfs (nodes : Dict Text TreeNode) :
    Nat → FinSet Text × List Text → Text → Option (FinSet Text × List Text)
  | 0, _, _ => none
  | levels + 1, (visited, order), name =>
    match nodes.get? name with
    | none => some (visited, order)
    | some node =>
      if name ∈ visited then some (visited, order)
      else
        (node.callees.foldlM
          (fun st callee =>
            match deeper nodes node.depth callee with
            | none => some st
            | some _ => dfs nodes levels st callee)
          (visited.add name, order)).map
        fun (st : FinSet Text × List Text) => (st.1, st.2 ++ [name])

/-- One name of the post-order. -/
def addSubtree (nodes : Dict Text TreeNode) (name : Text) : Dict Text TreeNode :=
  match nodes.get? name with
  | none => nodes
  | some node =>
    let total := node.callees.foldl
      (fun total callee =>
        match deeper nodes node.depth callee with
        | none => total
        | some calleeNode => total + calleeNode.subtreeFlash)
      node.flashSize
    nodes.set name { node with subtreeFlash := total }

def computeSubtreeSizes (nodes : Dict Text TreeNode) (roots : List Text) :
    Option (Dict Text TreeNode) :=
  match roots.foldlM (dfs nodes (greatestDepth nodes + 2)) (FinSet.empty, []) with
  | none => none
  | some (_, order) => some (order.foldl addSubtree nodes)

/-- The lists and totals of `build_call_graph`, behind the search and the subtree sizes. -/
def treeResult (pr : ParseResult) (roots : List Text) (visited : FinSet Text)
    (nodes : Dict Text TreeNode) : TreeResult where
  nodes := nodes
  roots := roots
  allFunctions := sorted visited.elems
  totalEdges := pr.edges.length
  totalFunctions := visited.elems.length
  maxDepth := greatestDepth nodes
  unreachableFunctions := sorted (pr.functions.keys.filter fun f => f ∉ visited)
  totalFlashSum := nodes.total (·.flashSize)
  totalRamSum := nodes.total fun n => n.ramData + n.ramBss

/-- The entry points, or the auto-detected roots without them. -/
def rootsOf (pr : ParseResult) (entryPoints : Option (List Text)) : List Text :=
  match entryPoints with
  | some (root :: rest) => root :: rest
  | _ => autoRoots pr (adjacency pr.edges).2.keys

/-- `build_call_graph`. A vertex enters the queue at most once, as a root or as a callee, so the
turns are no more than these. -/
def buildCallGraph (iter : Iteration) (pr : ParseResult) (entryPoints : Option (List Text))
    (maxDepth : Nat) : Option TreeResult :=
  let forward := (adjacency pr.edges).1
  let roots := rootsOf pr entryPoints
  let start := roots.foldl (visitRoot pr) ⟨FinSet.empty, [], Dict.empty⟩
  match bfsLoop iter pr forward maxDepth (roots.length + pr.edges.length + 1) start with
  | none => none
  | some s =>
    match computeSubtreeSizes s.nodes roots with
    | none => none
    | some nodes => some (treeResult pr roots s.visited nodes)

/-! ## The edges -/

/-- A call of the map file, self-calls removed. -/
def Calls (pr : ParseResult) (u v : Text) : Prop :=
  ∃ e ∈ pr.edges, e.callerFunc = u ∧ e.calleeFunc = v ∧ u ≠ v

def calleesOf (forward : Dict Text (FinSet Text)) (u : Text) : FinSet Text :=
  (forward.get? u).getD FinSet.empty

theorem mem_calleesOf_addTo (d : Dict Text (FinSet Text)) (key x u v : Text) :
    v ∈ calleesOf (addTo d key x) u ↔ (u = key ∧ v = x) ∨ v ∈ calleesOf d u :=
  mem_addTo d key x u v

theorem mem_adjacency (edges : List CallEdge) (u v : Text) :
    v ∈ calleesOf (adjacency edges).1 u ↔
      ∃ e ∈ edges, e.callerFunc = u ∧ e.calleeFunc = v ∧ u ≠ v := by
  have hfold : ∀ dicts : Dict Text (FinSet Text) × Dict Text (FinSet Text),
      v ∈ calleesOf (edges.foldl
        (fun (forward, reverse) edge =>
          let caller := edge.callerFunc
          let callee := edge.calleeFunc
          if caller = callee then (forward, reverse)
          else (addTo forward caller callee, addTo reverse callee caller)) dicts).1 u ↔
        v ∈ calleesOf dicts.1 u ∨ ∃ e ∈ edges, e.callerFunc = u ∧ e.calleeFunc = v ∧ u ≠ v := by
    induction edges with
    | nil => simp
    | cons e edges ih =>
      intro dicts
      rw [List.foldl_cons, ih]
      by_cases he : e.callerFunc = e.calleeFunc
      · have hno : ¬ (e.callerFunc = u ∧ e.calleeFunc = v ∧ u ≠ v) := by
          rintro ⟨rfl, rfl, hne⟩
          exact hne he
        simp only [if_pos he, List.exists_mem_cons_iff, hno, false_or]
      · simp only [if_neg he, mem_calleesOf_addTo, List.exists_mem_cons_iff]
        have hedge : (u = e.callerFunc ∧ v = e.calleeFunc) ↔
            e.callerFunc = u ∧ e.calleeFunc = v ∧ u ≠ v := by
          constructor
          · rintro ⟨rfl, rfl⟩
            exact ⟨rfl, rfl, he⟩
          · rintro ⟨rfl, rfl, -⟩
            exact ⟨rfl, rfl⟩
        rw [hedge, or_comm (a := _ ∧ _), or_assoc]
  rw [adjacency, hfold]
  simp [calleesOf]

theorem mem_calleesOf {pr : ParseResult} {u v : Text} :
    v ∈ calleesOf (adjacency pr.edges).1 u ↔ Calls pr u v := mem_adjacency pr.edges u v

end Maptool
end Air101
