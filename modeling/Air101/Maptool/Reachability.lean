import Air101.Maptool.Search

/-!
# Maptool.Reachability

The result of `build_call_graph` with entry points (`call_graph_reachability`): which functions are
nodes, at which depth, with which callers, and which are unreachable. The subtree sizes, computed
last, leave the rest of a node as it was (`addSubtree_unsized`).
-/

namespace Air101
namespace Maptool

open Storage

/-! ## The subtree sizes leave the rest of a node -/

def TreeNode.unsized (node : TreeNode) : TreeNode := { node with subtreeFlash := 0 }

theorem unsized_fields {n m : TreeNode} (h : n.unsized = m.unsized) : n.depth = m.depth ∧
    n.callees = m.callees ∧ n.callers = m.callers ∧ n.flashSize = m.flashSize := by
  unfold TreeNode.unsized at h
  injection h with _ _ hflash _ _ hdepth hcallees hcallers
  exact ⟨hdepth, hcallees, hcallers, hflash⟩

theorem le_greatestDepth {nodes : Dict Text TreeNode} {v : Text} {n : TreeNode}
    (h : nodes.get? v = some n) : n.depth ≤ greatestDepth nodes := by
  have hmem : n ∈ nodes.values := List.mem_map.mpr ⟨(v, n), Dict.mem_entries_iff.mpr h, rfl⟩
  unfold greatestDepth
  generalize nodes.values = ns at hmem
  induction ns with
  | nil => cases hmem
  | cons m ns ih =>
    rw [List.map_cons, List.foldr_cons]
    obtain rfl | hmem := List.mem_cons.mp hmem
    · exact Nat.le_max_left _ _
    · exact Nat.le_trans (ih hmem) (Nat.le_max_right _ _)

theorem deeper_eq_some {nodes : Dict Text TreeNode} {depth : Nat} {v : Text} {n : TreeNode} :
    deeper nodes depth v = some n ↔ nodes.get? v = some n ∧ depth < n.depth := by
  unfold deeper
  cases nodes.get? v with
  | none => simp
  | some m =>
    by_cases hm : m.depth > depth
    · simp only [if_pos hm, Option.some.injEq]
      constructor
      · rintro rfl
        exact ⟨rfl, hm⟩
      · exact And.left
    · simp only [if_neg hm, Option.some.injEq]
      constructor
      · intro h
        cases h
      · rintro ⟨rfl, h⟩
        exact absurd h hm

/-- The recursion ends: it goes deeper each time. -/
theorem dfs_isSome (nodes : Dict Text TreeNode) (levels : Nat) (st : FinSet Text × List Text)
    (name : Text) (hpos : 0 < levels)
    (h : ∀ n, nodes.get? name = some n → greatestDepth nodes < n.depth + levels) :
    (dfs nodes levels st name).isSome = true := by
  induction levels generalizing st name with
  | zero => omega
  | succ levels ih =>
    unfold dfs
    cases hnode : nodes.get? name with
    | none => rfl
    | some node =>
      simp only
      split
      · rfl
      · rw [Option.isSome_map]
        refine foldlM_isSome _ _ ?_ _
        intro st callee _
        cases hdeep : deeper nodes node.depth callee with
        | none => rfl
        | some m =>
          obtain ⟨hm, hlt⟩ := deeper_eq_some.mp hdeep
          have hle := le_greatestDepth hm
          have hroom := h node hnode
          refine ih st callee (by omega) ?_
          intro k hk
          cases hm.symm.trans hk
          omega

theorem addSubtree_unsized (nodes : Dict Text TreeNode) (name v : Text) :
    ((addSubtree nodes name).get? v).map TreeNode.unsized =
      (nodes.get? v).map TreeNode.unsized := by
  unfold addSubtree
  cases hnode : nodes.get? name with
  | none => rfl
  | some node =>
    rw [Dict.get?_set]
    split
    · rename_i hv
      rw [hv, hnode]
      rfl
    · rfl

theorem foldl_addSubtree_unsized (order : List Text) (nodes : Dict Text TreeNode) (v : Text) :
    ((order.foldl addSubtree nodes).get? v).map TreeNode.unsized =
      (nodes.get? v).map TreeNode.unsized := by
  induction order generalizing nodes with
  | nil => rfl
  | cons name order ih => rw [List.foldl_cons, ih, addSubtree_unsized]

theorem computeSubtreeSizes_some (nodes : Dict Text TreeNode) (roots : List Text) :
    ∃ sized, computeSubtreeSizes nodes roots = some sized ∧
      ∀ v, (sized.get? v).map TreeNode.unsized = (nodes.get? v).map TreeNode.unsized := by
  have hsome := foldlM_isSome (dfs nodes (greatestDepth nodes + 2)) roots
    (fun st root _ => dfs_isSome nodes _ st root (by omega) fun n _ => by omega)
    (FinSet.empty, [])
  obtain ⟨⟨visited, order⟩, horder⟩ := Option.isSome_iff_exists.mp hsome
  exact ⟨order.foldl addSubtree nodes, by rw [computeSubtreeSizes, horder],
    foldl_addSubtree_unsized order nodes⟩

/-- `build_call_graph`: the search, and the subtree sizes over its nodes. -/
theorem buildCallGraph_some (iter : Iteration) (pr : ParseResult)
    (entryPoints : Option (List Text)) (maxDepth : Nat) :
    ∃ s sized, buildCallGraph iter pr entryPoints maxDepth =
        some (treeResult pr (rootsOf pr entryPoints) s.visited sized) ∧
      Inv pr (rootsOf pr entryPoints) maxDepth s ∧ s.queue = [] ∧
      computeSubtreeSizes s.nodes (rootsOf pr entryPoints) = some sized := by
  obtain ⟨s, hs, hinv, hq⟩ := search_ends iter pr (rootsOf pr entryPoints) maxDepth
  obtain ⟨sized, hsized, -⟩ := computeSubtreeSizes_some s.nodes (rootsOf pr entryPoints)
  exact ⟨s, sized, by simp only [buildCallGraph, hs, hsized], hinv, hq, hsized⟩

theorem rootsOf_some (pr : ParseResult) {roots : List Text} (h : roots ≠ []) :
    rootsOf pr (some roots) = roots := by
  cases roots with
  | nil => exact absurd rfl h
  | cons root rest => rfl

/-- A node behind the subtree sizes is one of the search, with another size. -/
theorem unsized_eq_some {nodes sized : Dict Text TreeNode}
    (h : ∀ v, (sized.get? v).map TreeNode.unsized = (nodes.get? v).map TreeNode.unsized) {v : Text}
    {n : TreeNode} (hn : sized.get? v = some n) :
    ∃ m, nodes.get? v = some m ∧ n.unsized = m.unsized := by
  have hv := h v
  rw [hn, Option.map_some] at hv
  obtain ⟨m, hm, heq⟩ := Option.map_eq_some_iff.mp hv.symm
  exact ⟨m, hm, heq.symm⟩

/-- The subtree sizes apart, nothing of a node changes. -/
theorem map_eq_of_unsized {β : Type} {nodes sized : Dict Text TreeNode}
    (h : ∀ v, (sized.get? v).map TreeNode.unsized = (nodes.get? v).map TreeNode.unsized)
    (f : TreeNode → β) (hf : ∀ n : TreeNode, f n.unsized = f n) (v : Text) :
    (sized.get? v).map f = (nodes.get? v).map f := by
  have hv := congrArg (Option.map f) (h v)
  rw [Option.map_map, Option.map_map] at hv
  rw [show f = f ∘ TreeNode.unsized from funext fun n => (hf n).symm]
  exact hv

/-- The nodes of the call graph are the functions within `max_depth` calls of the entry points, at
their shortest distance; the callers of a node are the nodes above the limit that call it, each
once; and the unreachable functions are the known ones that are no nodes. -/
theorem call_graph_reachability (iter : Iteration) (pr : ParseResult) (roots : List Text)
    (hroots : roots ≠ []) (maxDepth : Nat) :
    ∃ r, buildCallGraph iter pr (some roots) maxDepth = some r ∧
      (∀ v, v ∈ r.nodes.keys ↔ ∃ d, d ≤ maxDepth ∧ Bfs.Dist (Calls pr) roots v d) ∧
      (∀ v n, r.nodes.get? v = some n → Bfs.Dist (Calls pr) roots v n.depth) ∧
      (∀ v n, r.nodes.get? v = some n → n.callers.Nodup ∧ ∀ u, u ∈ n.callers ↔
        (∃ m, r.nodes.get? u = some m ∧ m.depth < maxDepth) ∧ Calls pr u v) ∧
      ∀ f, f ∈ r.unreachableFunctions ↔ f ∈ pr.functions.keys ∧ f ∉ r.nodes.keys := by
  obtain ⟨s, sized, hr, hinv, hq, hsized⟩ := buildCallGraph_some iter pr (some roots) maxDepth
  rw [rootsOf_some pr hroots] at hr hinv hsized
  obtain ⟨sized', hsized', hsame⟩ := computeSubtreeSizes_some s.nodes roots
  cases hsized.symm.trans hsized'
  have hlabel := hinv.search.label_iff hq
  have hto : ∀ v n, sized.get? v = some n →
      ∃ m, s.nodes.get? v = some m ∧ n.depth = m.depth ∧ n.callers = m.callers := by
    intro v n hn
    obtain ⟨m, hm, heq⟩ := unsized_eq_some hsame hn
    obtain ⟨hdepth, -, hcallers, -⟩ := unsized_fields heq
    exact ⟨m, hm, hdepth, hcallers⟩
  have hfrom : ∀ v m, s.nodes.get? v = some m → ∃ n, sized.get? v = some n ∧ m.depth = n.depth := by
    intro v m hm
    obtain ⟨n, hn, heq⟩ := unsized_eq_some (fun v => (hsame v).symm) hm
    exact ⟨n, hn, (unsized_fields heq).1⟩
  refine ⟨_, hr, ?_, ?_, ?_, ?_⟩
  · intro v
    simp only [treeResult, Dict.mem_keys_iff]
    constructor
    · rintro ⟨n, hn⟩
      obtain ⟨m, hm, -⟩ := hto v n hn
      obtain ⟨hdist, hle⟩ := (hlabel v m.depth).mp (labels_eq_some.mpr ⟨m, hm, rfl⟩)
      exact ⟨m.depth, hle, hdist⟩
    · rintro ⟨d, hle, hdist⟩
      obtain ⟨m, hm, -⟩ := labels_eq_some.mp ((hlabel v d).mpr ⟨hdist, hle⟩)
      obtain ⟨n, hn, -⟩ := hfrom v m hm
      exact ⟨n, hn⟩
  · intro v n hn
    obtain ⟨m, hm, hdepth, -⟩ := hto v n hn
    rw [hdepth]
    exact ((hlabel v m.depth).mp (labels_eq_some.mpr ⟨m, hm, rfl⟩)).1
  · intro v n hn
    obtain ⟨m, hm, -, hcallers⟩ := hto v n hn
    obtain ⟨hnodup, hmem⟩ := hinv.callers v m hm
    rw [hcallers]
    refine ⟨hnodup, ?_⟩
    intro u
    rw [hmem]
    refine and_congr_left fun _ => ?_
    constructor
    · rintro ⟨k, hk, -, hlt⟩
      obtain ⟨k', hk', hdepth⟩ := hfrom u k hk
      exact ⟨k', hk', hdepth ▸ hlt⟩
    · rintro ⟨k, hk, hlt⟩
      obtain ⟨k', hk', hdepth, -⟩ := hto u k hk
      exact ⟨k', hk', by simp [hq], hdepth ▸ hlt⟩
  · intro f
    simp only [treeResult, mem_sorted, List.mem_filter, decide_eq_true_eq, hinv.sync f,
      Dict.mem_keys_iff (d := sized)]
    refine and_congr_right fun _ => not_congr ?_
    rw [Option.isSome_iff_exists]
    constructor
    · rintro ⟨m, hm⟩
      obtain ⟨n, hn, -⟩ := hfrom f m hm
      exact ⟨n, hn⟩
    · rintro ⟨n, hn⟩
      obtain ⟨m, hm, -⟩ := hto f n hn
      exact ⟨m, hm⟩

/-- A cycle of two functions with a self-call, cut off behind the first, and a third function that
nothing calls. -/
def cyclicCalls : ParseResult where
  edges :=
    [⟨['a'], ['b'], [], [], [], [], ['b']⟩, ⟨['b'], ['a'], [], [], [], [], ['a']⟩,
      ⟨['b'], ['b'], [], [], [], [], ['b']⟩, ⟨['b'], ['d'], [], [], [], [], ['d']⟩]
  functions := (Dict.empty.set ['a'] { name := ['a'] }).set ['c'] { name := ['c'] }

theorem call_graph_reachability_cycle :
    ∃ r, buildCallGraph ⟨fun _ callees => callees.elems, fun _ _ => .refl _⟩ cyclicCalls
        (some [['a'], ['a']]) 1 = some r ∧
      (∀ v, v ∈ r.nodes.keys ↔
        ∃ d, d ≤ 1 ∧ Bfs.Dist (Calls cyclicCalls) [['a'], ['a']] v d) ∧
      (∀ v n, r.nodes.get? v = some n →
        Bfs.Dist (Calls cyclicCalls) [['a'], ['a']] v n.depth) ∧
      (∀ v n, r.nodes.get? v = some n → n.callers.Nodup ∧ ∀ u, u ∈ n.callers ↔
        (∃ m, r.nodes.get? u = some m ∧ m.depth < 1) ∧ Calls cyclicCalls u v) ∧
      ∀ f, f ∈ r.unreachableFunctions ↔ f ∈ cyclicCalls.functions.keys ∧ f ∉ r.nodes.keys :=
  call_graph_reachability _ cyclicCalls [['a'], ['a']] (List.cons_ne_nil _ _) 1

end Maptool
end Air101
