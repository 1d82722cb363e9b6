import Air101.Maptool.CallGraph

/-!
# Maptool.Search

The loop of `build_call_graph` as a breadth-first search.

* `labels_visitCallee`: with the nodes' depths as labels, a callee is discovered.
* `Turned`: what a turn below the depth limit does to the queue and the nodes.
* `Inv`: what the turns keep (`Inv.skip`, `Inv.expand`); `search_ends` has it behind the loop.
-/

namespace Air101
namespace Maptool

open Storage

/-! ## One turn of the search -/

/-- The search as the library has it: the depths of the nodes are the labels. -/
def Search.labels (s : Search) : Bfs.State Text := ⟨fun v => (s.nodes.get? v).map (·.depth), s.queue⟩

/-- The set `visited` has the names of the nodes. -/
def Search.Sync (s : Search) : Prop := ∀ v, v ∈ s.visited ↔ (s.nodes.get? v).isSome = true

theorem makeTreeNode_depth (name : Text) (pr : ParseResult) (depth : Nat) :
    (makeTreeNode name pr depth).depth = depth := rfl

@[simp] theorem addCaller_depth (node : TreeNode) (current : Text) :
    (node.addCaller current).depth = node.depth := by
  unfold TreeNode.addCaller
  split <;> rfl

theorem mem_addCaller (node : TreeNode) (current u : Text) :
    u ∈ (node.addCaller current).callers ↔ u = current ∨ u ∈ node.callers := by
  unfold TreeNode.addCaller
  split
  · rename_i h
    constructor
    · exact .inr
    · rintro (rfl | hu)
      · exact h
      · exact hu
  · simp [or_comm]

theorem nodup_addCaller {node : TreeNode} (current : Text) (h : node.callers.Nodup) :
    (node.addCaller current).callers.Nodup := by
  unfold TreeNode.addCaller
  split
  · exact h
  · rename_i hcur
    refine List.nodup_append.mpr ⟨h, List.nodup_singleton current, ?_⟩
    intro a ha b hb
    rw [List.mem_singleton.mp hb]
    rintro rfl
    exact hcur ha

/-- The node without what the search adds to it. -/
def TreeNode.base (node : TreeNode) : TreeNode := { node with callees := [], callers := [] }

@[simp] theorem addCaller_base (node : TreeNode) (current : Text) :
    (node.addCaller current).base = node.base := by
  unfold TreeNode.addCaller
  split <;> rfl

@[simp] theorem addCaller_callees (node : TreeNode) (current : Text) :
    (node.addCaller current).callees = node.callees := by
  unfold TreeNode.addCaller
  split <;> rfl

section VisitCallee

variable (pr : ParseResult) (current : Text) (depth : Nat) {s : Search}

theorem visitCallee_eq (hs : s.Sync) (callee : Text) :
    (∀ v, (visitCallee pr current depth s callee).nodes.get? v =
      if v = callee then
        some (((s.nodes.get? callee).getD (makeTreeNode callee pr (depth + 1))).addCaller current)
      else s.nodes.get? v) ∧
    (visitCallee pr current depth s callee).queue =
      (if (s.nodes.get? callee).isSome then s.queue else s.queue ++ [callee]) ∧
    (visitCallee pr current depth s callee).Sync := by
  have hvis := hs callee
  unfold visitCallee
  cases hnode : s.nodes.get? callee with
  | some node =>
    have hin : callee ∈ s.visited := hvis.mpr (by rw [hnode]; rfl)
    simp only [if_pos hin, hnode]
    refine ⟨?_, rfl, ?_⟩
    · intro v
      rw [Dict.get?_set]
      rfl
    · intro v
      rw [hs v, Dict.get?_set]
      split
      · rename_i h
        simp [h, hnode]
      · rfl
  | none =>
    have hout : callee ∉ s.visited := by
      rw [hvis, hnode]
      simp
    simp only [if_neg hout, Search.enter, Dict.get?_set_self]
    refine ⟨?_, rfl, ?_⟩
    · intro v
      rw [Dict.get?_set, Dict.get?_set]
      split <;> rfl
    · intro v
      simp only [FinSet.mem_add, hs v, Dict.get?_set]
      split
      · rename_i h
        simp [h]
      · rename_i h
        simp [h]

/-- With the depths as labels, a callee is discovered. -/
theorem labels_visitCallee (hs : s.Sync) (callee : Text) :
    (visitCallee pr current depth s callee).labels = Bfs.discover (depth + 1) s.labels callee := by
  obtain ⟨hget, hqueue, -⟩ := visitCallee_eq pr current depth hs callee
  have hlabel : (visitCallee pr current depth s callee).labels.label =
      fun v => if v = callee then some (((s.nodes.get? callee).map (·.depth)).getD (depth + 1))
        else (s.nodes.get? v).map (·.depth) := by
    funext v
    simp only [Search.labels, hget]
    split
    · cases s.nodes.get? callee <;> simp [makeTreeNode_depth]
    · rfl
  cases hnode : s.nodes.get? callee with
  | some node =>
    rw [Bfs.discover_of_some (by simp [Search.labels, hnode])]
    refine Bfs.State.ext ?_ ?_
    · rw [hlabel]
      funext v
      simp only [Search.labels, hnode]
      split
      · rename_i h
        simp [h, hnode]
      · rfl
    · simp [Search.labels, hqueue, hnode]
  | none =>
    rw [Bfs.discover_of_none (by simp [Search.labels, hnode])]
    refine Bfs.State.ext ?_ ?_
    · rw [hlabel]
      funext v
      simp only [Search.labels, hnode]
      by_cases hv : v = callee
      · simp [hv]
      · simp [hv]
    · simp [Search.labels, hqueue, hnode]

/-- All callees of `current`, in any order. -/
theorem foldl_visitCallee {vs : List Text} (hvs : vs.Nodup) (hs : s.Sync) :
    (∀ v, (vs.foldl (visitCallee pr current depth) s).nodes.get? v =
      if v ∈ vs then
        some (((s.nodes.get? v).getD (makeTreeNode v pr (depth + 1))).addCaller current)
      else s.nodes.get? v) ∧
    (vs.foldl (visitCallee pr current depth) s).Sync ∧
    (vs.foldl (visitCallee pr current depth) s).labels =
      vs.foldl (Bfs.discover (depth + 1)) s.labels := by
  induction vs generalizing s with
  | nil => exact ⟨by simp, hs, rfl⟩
  | cons w vs ih =>
    obtain ⟨hw, hvs⟩ := List.nodup_cons.mp hvs
    obtain ⟨hget, -, hsync⟩ := visitCallee_eq pr current depth hs w
    obtain ⟨hget', hsync', hlabels⟩ := ih hvs hsync
    refine ⟨?_, hsync', ?_⟩
    · intro v
      rw [List.foldl_cons, hget', hget]
      by_cases hvw : v = w
      · subst hvw
        simp [hw]
      · simp [hvw]
    · rw [List.foldl_cons, hlabels, labels_visitCallee pr current depth hs, List.foldl_cons]

end VisitCallee

theorem visitRoot_eq (pr : ParseResult) {s : Search} (hs : s.Sync) (root : Text) :
    (visitRoot pr s root).Sync ∧ (visitRoot pr s root).labels = Bfs.discover 0 s.labels root ∧
      ∀ v n, (visitRoot pr s root).nodes.get? v = some n →
        s.nodes.get? v = some n ∨ n = makeTreeNode v pr 0 := by
  have hvis := hs root
  unfold visitRoot
  cases hnode : s.nodes.get? root with
  | some node =>
    have hin : root ∈ s.visited := hvis.mpr (by rw [hnode]; rfl)
    rw [if_pos hin, Bfs.discover_of_some (by simp [Search.labels, hnode])]
    exact ⟨hs, rfl, fun v n h => .inl h⟩
  | none =>
    have hout : root ∉ s.visited := by
      rw [hvis, hnode]
      simp
    rw [if_neg hout, Bfs.discover_of_none (by simp [Search.labels, hnode])]
    refine ⟨?_, Bfs.State.ext ?_ rfl, ?_⟩
    · intro v
      simp only [Search.enter, FinSet.mem_add, hs v, Dict.get?_set]
      by_cases hv : v = root
      · simp [hv]
      · simp [hv]
    · funext v
      simp only [Search.labels, Search.enter, Dict.get?_set]
      by_cases hv : v = root
      · simp [hv, makeTreeNode_depth]
      · simp [hv]
    · intro v n h
      simp only [Search.enter, Dict.get?_set] at h
      split at h
      · rename_i hv
        rw [hv]
        exact .inr (Option.some.inj h).symm
      · exact .inl h

/-- The roots: a fresh node for each. -/
theorem foldl_visitRoot (pr : ParseResult) (roots : List Text) {s : Search} (hs : s.Sync) :
    (roots.foldl (visitRoot pr) s).Sync ∧
      (roots.foldl (visitRoot pr) s).labels = roots.foldl (Bfs.discover 0) s.labels ∧
      ∀ v n, (roots.foldl (visitRoot pr) s).nodes.get? v = some n →
        s.nodes.get? v = some n ∨ n = makeTreeNode v pr 0 := by
  induction roots generalizing s with
  | nil => exact ⟨hs, rfl, fun v n h => .inl h⟩
  | cons root roots ih =>
    obtain ⟨hsync, hlabels, hget⟩ := visitRoot_eq pr hs root
    obtain ⟨hsync', hlabels', hget'⟩ := ih hsync
    refine ⟨hsync', by rw [List.foldl_cons, hlabels', hlabels, List.foldl_cons], ?_⟩
    intro v n h
    obtain h | h := hget' v n h
    · exact hget v n h
    · exact .inr h

/-! ## The invariant of the search -/

/-- The callees of the node `u` were gone through. -/
def Expanded (maxDepth : Nat) (s : Search) (u : Text) : Prop :=
  ∃ n, s.nodes.get? u = some n ∧ u ∉ s.queue ∧ n.depth < maxDepth

structure Inv (pr : ParseResult) (roots : List Text) (maxDepth : Nat) (s : Search) : Prop where
  sync : s.Sync
  search : Bfs.Inv (Calls pr) roots maxDepth s.labels
  made : ∀ v n, s.nodes.get? v = some n → n.base = makeTreeNode v pr n.depth
  callees : ∀ v n, s.nodes.get? v = some n →
    (Expanded maxDepth s v → n.callees = sorted (calleesOf (adjacency pr.edges).1 v).elems) ∧
      (¬ Expanded maxDepth s v → n.callees = [])
  callers : ∀ v n, s.nodes.get? v = some n → n.callers.Nodup ∧
    ∀ u, u ∈ n.callers ↔ Expanded maxDepth s u ∧ Calls pr u v

theorem inv_start (pr : ParseResult) (roots : List Text) (maxDepth : Nat) :
    Inv pr roots maxDepth (roots.foldl (visitRoot pr) ⟨FinSet.empty, [], Dict.empty⟩) := by
  have hempty : Search.Sync ⟨FinSet.empty, [], Dict.empty⟩ := by
    intro v
    simp
  obtain ⟨hsync, hlabels, hget⟩ := foldl_visitRoot pr roots hempty
  have hfresh : ∀ v n,
      (roots.foldl (visitRoot pr) ⟨FinSet.empty, [], Dict.empty⟩).nodes.get? v = some n →
        n = makeTreeNode v pr 0 := by
    intro v n h
    obtain h | h := hget v n h
    · cases h
    · exact h
  have hsearch := Bfs.inv_init (Calls pr) roots maxDepth
  have hstart : (⟨FinSet.empty, [], Dict.empty⟩ : Search).labels = ⟨fun _ => none, []⟩ := rfl
  rw [hstart] at hlabels
  rw [← hlabels] at hsearch
  have hqueue : ∀ v n,
      (roots.foldl (visitRoot pr) ⟨FinSet.empty, [], Dict.empty⟩).nodes.get? v = some n →
        v ∈ (roots.foldl (visitRoot pr) ⟨FinSet.empty, [], Dict.empty⟩).queue := by
    intro v n h
    have hlab : (roots.foldl (Bfs.discover 0) ⟨fun _ => none, []⟩).label v = some n.depth := by
      rw [← hlabels]
      simp [Search.labels, h]
    have hmem := Bfs.init_queued hlab
    rw [← hlabels] at hmem
    exact hmem
  refine ⟨hsync, hsearch, ?_, ?_, ?_⟩
  · intro v n h
    cases hfresh v n h
    rfl
  · intro v n h
    cases hfresh v n h
    refine ⟨?_, fun _ => rfl⟩
    rintro ⟨m, hm, hout, -⟩
    exact absurd (hqueue v m hm) hout
  · intro v n h
    cases hfresh v n h
    refine ⟨List.nodup_nil, ?_⟩
    intro u
    constructor
    · intro hu
      cases hu
    · rintro ⟨⟨m, hm, hout, -⟩, -⟩
      exact absurd (hqueue u m hm) hout

section Turn

variable {pr : ParseResult} {roots : List Text} {maxDepth : Nat} {s : Search}

theorem labels_eq_some {v : Text} {d : Nat} :
    s.labels.label v = some d ↔ ∃ n, s.nodes.get? v = some n ∧ n.depth = d := by
  simp [Search.labels]

/-- A turn at the depth limit: nothing but the queue changes. -/
theorem Inv.skip (h : Inv pr roots maxDepth s) {current : Text} {rest : List Text}
    (hq : s.queue = current :: rest) {node : TreeNode} (hnode : s.nodes.get? current = some node)
    (hd : maxDepth ≤ node.depth) : Inv pr roots maxDepth { s with queue := rest } := by
  have hnodup := h.search.nodup
  rw [show s.labels.queue = current :: rest from hq] at hnodup
  have hexp : ∀ u, Expanded maxDepth { s with queue := rest } u ↔ Expanded maxDepth s u := by
    intro u
    constructor
    · rintro ⟨n, hn, hout, hlt⟩
      refine ⟨n, hn, ?_, hlt⟩
      rw [hq]
      intro hu
      obtain rfl | hu := List.mem_cons.mp hu
      · cases hnode.symm.trans hn
        omega
      · exact hout hu
    · rintro ⟨n, hn, hout, hlt⟩
      refine ⟨n, hn, ?_, hlt⟩
      intro hu
      exact hout (by rw [hq]; exact List.mem_cons_of_mem current hu)
  have hlabels : ({ s with queue := rest } : Search).labels = ⟨s.labels.label, rest⟩ := rfl
  refine ⟨h.sync, ?_, h.made, ?_, ?_⟩
  · rw [hlabels]
    exact h.search.skip hq (labels_eq_some.mpr ⟨node, hnode, rfl⟩) hd
  · intro v n hn
    rw [hexp]
    exact h.callees v n hn
  · intro v n hn
    obtain ⟨hnd, hmem⟩ := h.callers v n hn
    refine ⟨hnd, ?_⟩
    intro u
    rw [hmem, hexp]

/-- What a turn below the limit does to the variables: `current` gets its callees, and these are
gone through. -/
structure Turned (pr : ParseResult) (current : Text) (node : TreeNode) (rest callees vs : List Text)
    (s s' : Search) : Prop where
  sync : s'.Sync
  labels : s'.labels = vs.foldl (Bfs.discover (node.depth + 1)) ⟨s.labels.label, rest⟩
  queue : ∀ v, v ∈ s'.queue ↔ v ∈ rest ∨ (v ∈ vs ∧ s.nodes.get? v = none)
  noted : s'.nodes.get? current = some { node with callees := callees }
  other : ∀ v, v ≠ current → s'.nodes.get? v =
    if v ∈ vs then
      some (((s.nodes.get? v).getD (makeTreeNode v pr (node.depth + 1))).addCaller current)
    else s.nodes.get? v

theorem turned_foldl (pr : ParseResult) (hs : s.Sync) {current : Text} {node : TreeNode}
    (hnode : s.nodes.get? current = some node) (rest callees : List Text) {vs : List Text}
    (hvs : vs.Nodup) (hself : current ∉ vs) :
    Turned pr current node rest callees vs s
      (vs.foldl (visitCallee pr current node.depth)
        { s with queue := rest, nodes := s.nodes.set current { node with callees := callees } }) := by
  have hlabels : (⟨s.visited, rest, s.nodes.set current { node with callees := callees }⟩ :
      Search).labels = ⟨s.labels.label, rest⟩ := by
    refine Bfs.State.ext ?_ rfl
    funext v
    simp only [Search.labels, Dict.get?_set]
    by_cases hv : v = current
    · simp [hv, hnode]
    · simp [hv]
  have hsync : (⟨s.visited, rest, s.nodes.set current { node with callees := callees }⟩ :
      Search).Sync := by
    intro v
    rw [hs v, Dict.get?_set]
    by_cases hv : v = current
    · simp [hv, hnode]
    · simp [hv]
  obtain ⟨hget, hsync', hlabels'⟩ := foldl_visitCallee pr current node.depth hvs hsync
  rw [hlabels] at hlabels'
  refine ⟨hsync', hlabels', ?_, ?_, ?_⟩
  · intro v
    obtain ⟨new, hqueue, -, hnew, -⟩ :=
      Bfs.foldl_discover (node.depth + 1) vs ⟨s.labels.label, rest⟩
    rw [← hlabels'] at hqueue
    refine (iff_of_eq (congrArg (v ∈ ·) hqueue)).trans ?_
    rw [List.mem_append, hnew]
    simp [Search.labels]
  · rw [hget, if_neg hself, Dict.get?_set_self]
  · intro v hv
    rw [hget, Dict.get?_set_ne hv]

namespace Turned

variable {current : Text} {node : TreeNode} {rest callees vs : List Text} {s' : Search}

/-- A node behind the turn: that of `current`, an old one, perhaps with a caller more, or a new
one. -/
theorem cases (t : Turned pr current node rest callees vs s s') {v : Text} {n : TreeNode}
    (hn : s'.nodes.get? v = some n) :
    (v = current ∧ n = { node with callees := callees }) ∨
    (v ≠ current ∧ ∃ m, s.nodes.get? v = some m ∧
      n = if v ∈ vs then m.addCaller current else m) ∨
    (v ≠ current ∧ s.nodes.get? v = none ∧ v ∈ vs ∧
      n = (makeTreeNode v pr (node.depth + 1)).addCaller current) := by
  by_cases hv : v = current
  · subst hv
    exact .inl ⟨rfl, Option.some.inj (hn.symm.trans t.noted)⟩
  · rw [t.other v hv] at hn
    cases hm : s.nodes.get? v with
    | some m =>
      refine .inr (.inl ⟨hv, m, rfl, ?_⟩)
      rw [hm] at hn
      split at hn
      · rename_i hmem
        rw [if_pos hmem]
        exact (Option.some.inj hn).symm
      · rename_i hmem
        rw [if_neg hmem]
        exact (Option.some.inj hn).symm
    | none =>
      refine .inr (.inr ⟨hv, rfl, ?_⟩)
      rw [hm] at hn
      split at hn
      · rename_i hmem
        exact ⟨hmem, (Option.some.inj hn).symm⟩
      · cases hn

/-- `current` is gone through with the turn, and nothing else. -/
theorem expanded_iff (t : Turned pr current node rest callees vs s s')
    (hq : s.queue = current :: rest) (hnode : s.nodes.get? current = some node)
    (hrest : current ∉ rest) (hd : node.depth < maxDepth) (u : Text) :
    Expanded maxDepth s' u ↔ u = current ∨ Expanded maxDepth s u := by
  constructor
  · rintro ⟨n, hn, hnot, hlt⟩
    obtain ⟨rfl, -⟩ | ⟨hu, m, hm, rfl⟩ | ⟨-, hnone, hmem, -⟩ := t.cases hn
    · exact .inl rfl
    · refine .inr ⟨m, hm, ?_, ?_⟩
      · rw [hq, List.mem_cons]
        rintro (h | h)
        · exact hu h
        · exact hnot ((t.queue u).mpr (.inl h))
      · split at hlt
        · simpa using hlt
        · exact hlt
    · exact absurd ((t.queue u).mpr (.inr ⟨hmem, hnone⟩)) hnot
  · rintro (rfl | ⟨m, hm, hnot, hlt⟩)
    · refine ⟨_, t.noted, ?_, hd⟩
      rw [t.queue, hnode]
      rintro (h | ⟨-, h⟩)
      · exact hrest h
      · cases h
    · rw [hq, List.mem_cons, not_or] at hnot
      have hget := t.other u hnot.1
      rw [hm, Option.getD_some] at hget
      have hqu : u ∉ s'.queue := by
        rw [t.queue, hm]
        rintro (h | ⟨-, h⟩)
        · exact hnot.2 h
        · cases h
      by_cases hv : u ∈ vs
      · rw [if_pos hv] at hget
        exact ⟨_, hget, hqu, by simpa using hlt⟩
      · rw [if_neg hv] at hget
        exact ⟨m, hget, hqu, hlt⟩

/-- What the search adds to a node has its callees when the node is gone through, and none
before. -/
theorem callees_eq (t : Turned pr current node rest
      (sorted (calleesOf (adjacency pr.edges).1 current).elems) vs s s')
    (h : Inv pr roots maxDepth s) (hq : s.queue = current :: rest)
    (hnode : s.nodes.get? current = some node) (hrest : current ∉ rest)
    (hd : node.depth < maxDepth) {v : Text} {n : TreeNode} (hn : s'.nodes.get? v = some n) :
    (Expanded maxDepth s' v → n.callees = sorted (calleesOf (adjacency pr.edges).1 v).elems) ∧
      (¬ Expanded maxDepth s' v → n.callees = []) := by
  rw [t.expanded_iff hq hnode hrest hd]
  obtain ⟨rfl, rfl⟩ | ⟨hv, m, hm, rfl⟩ | ⟨hv, hnone, -, rfl⟩ := t.cases hn
  · exact ⟨fun _ => rfl, fun hno => absurd (.inl rfl) hno⟩
  · have hold := h.callees v m hm
    have hsame : (if v ∈ vs then m.addCaller current else m).callees = m.callees := by
      split
      · exact addCaller_callees m current
      · rfl
    rw [hsame]
    exact ⟨fun he => hold.1 (he.resolve_left hv), fun hno => hold.2 fun he => hno (.inr he)⟩
  · rw [addCaller_callees]
    refine ⟨?_, fun _ => rfl⟩
    rintro (he | ⟨m, hm, -⟩)
    · exact absurd he hv
    · cases hnone.symm.trans hm

/-- `current` becomes a caller of its callees. -/
theorem callers_iff (t : Turned pr current node rest callees vs s s')
    (h : Inv pr roots maxDepth s) (hq : s.queue = current :: rest)
    (hnode : s.nodes.get? current = some node) (hrest : current ∉ rest)
    (hd : node.depth < maxDepth) (hcalls : ∀ v, v ∈ vs ↔ Calls pr current v) {v : Text}
    {n : TreeNode} (hn : s'.nodes.get? v = some n) :
    n.callers.Nodup ∧ ∀ u, u ∈ n.callers ↔ Expanded maxDepth s' u ∧ Calls pr u v := by
  have hsplit : ∀ u, Expanded maxDepth s' u ∧ Calls pr u v ↔
      (Expanded maxDepth s u ∧ Calls pr u v) ∨ (u = current ∧ v ∈ vs) := by
    intro u
    rw [t.expanded_iff hq hnode hrest hd]
    constructor
    · rintro ⟨rfl | he, hc⟩
      · exact .inr ⟨rfl, (hcalls v).mpr hc⟩
      · exact .inl ⟨he, hc⟩
    · rintro (⟨he, hc⟩ | ⟨rfl, hv⟩)
      · exact ⟨.inr he, hc⟩
      · exact ⟨.inl rfl, (hcalls v).mp hv⟩
  simp only [hsplit]
  obtain ⟨rfl, rfl⟩ | ⟨hv, m, hm, rfl⟩ | ⟨hv, hnone, hmem, rfl⟩ := t.cases hn
  · obtain ⟨hnd, hold⟩ := h.callers v node hnode
    have hself : v ∉ vs := by
      rw [hcalls]
      rintro ⟨e, -, -, -, hne⟩
      exact hne rfl
    refine ⟨hnd, ?_⟩
    intro u
    rw [← hold]
    simp [hself]
  · obtain ⟨hnd, hold⟩ := h.callers v m hm
    simp only [← hold]
    split
    · rename_i hmem
      refine ⟨nodup_addCaller current hnd, ?_⟩
      intro u
      rw [mem_addCaller, or_comm]
      simp [hmem]
    · rename_i hmem
      refine ⟨hnd, ?_⟩
      intro u
      simp [hmem]
  · -- A new node had no expanded caller, or it would have been a node before.
    have hnew : ∀ u, ¬ (Expanded maxDepth s u ∧ Calls pr u v) := by
      rintro u ⟨⟨m, hm, hnot, hlt⟩, hc⟩
      obtain ⟨e, -, hlab⟩ := h.search.closed u m.depth (labels_eq_some.mpr ⟨m, hm, rfl⟩) hnot
        hlt v hc
      obtain ⟨k, hk, -⟩ := labels_eq_some.mp hlab
      cases hnone.symm.trans hk
    refine ⟨nodup_addCaller current List.nodup_nil, ?_⟩
    intro u
    rw [mem_addCaller]
    have hnil : u ∉ (makeTreeNode v pr (node.depth + 1)).callers := List.not_mem_nil
    simp [hnew u, hmem, hnil]

end Turned

/-- A turn below the limit: the callees of `current` are noted and gone through. -/
theorem Inv.expand (h : Inv pr roots maxDepth s) {current : Text} {rest vs : List Text}
    {node : TreeNode} {s' : Search}
    (t : Turned pr current node rest (sorted (calleesOf (adjacency pr.edges).1 current).elems) vs
      s s')
    (hq : s.queue = current :: rest) (hnode : s.nodes.get? current = some node)
    (hd : node.depth < maxDepth) (hcalls : ∀ v, v ∈ vs ↔ Calls pr current v) :
    Inv pr roots maxDepth s' := by
  have hnodup := h.search.nodup
  rw [show s.labels.queue = current :: rest from hq] at hnodup
  have hrest := (List.nodup_cons.mp hnodup).1
  refine ⟨t.sync, ?_, ?_, fun v n => t.callees_eq h hq hnode hrest hd,
    fun v n => t.callers_iff h hq hnode hrest hd hcalls⟩
  · rw [t.labels]
    exact h.search.expand hq (labels_eq_some.mpr ⟨node, hnode, rfl⟩) hd hcalls
  · intro v n hn
    obtain ⟨rfl, rfl⟩ | ⟨-, m, hm, rfl⟩ | ⟨-, -, -, rfl⟩ := t.cases hn
    · exact h.made v node hnode
    · split
      · rw [addCaller_base, addCaller_depth]
        exact h.made v m hm
      · exact h.made v m hm
    · rw [addCaller_base, addCaller_depth]
      rfl

theorem turn_spec (iter : Iteration) (h : Inv pr roots maxDepth s) {current : Text}
    {rest : List Text} (hq : s.queue = current :: rest) {U : List Text}
    (hU : ∀ u v, Calls pr u v → v ∈ U) :
    ∃ s', turn iter pr (adjacency pr.edges).1 maxDepth current { s with queue := rest } = some s' ∧
      Inv pr roots maxDepth s' ∧ Bfs.pending U s'.labels < Bfs.pending U s.labels := by
  obtain ⟨d, hd⟩ := h.search.queued current (by
    rw [show s.labels.queue = s.queue from rfl, hq]
    exact List.mem_cons_self)
  obtain ⟨node, hnode, -⟩ := labels_eq_some.mp hd
  have hless : Bfs.pending U ⟨s.labels.label, rest⟩ < Bfs.pending U s.labels := by
    unfold Bfs.pending
    rw [show s.labels.queue = s.queue from rfl, hq]
    exact Nat.add_lt_add_right (Nat.lt_succ_self rest.length) _
  unfold turn
  simp only [hnode]
  by_cases hdepth : node.depth ≥ maxDepth
  · rw [if_pos hdepth]
    exact ⟨_, rfl, h.skip hq hnode hdepth, hless⟩
  · rw [if_neg hdepth]
    have hperm := iter.perm current (calleesOf (adjacency pr.edges).1 current)
    have hcalls : ∀ v, v ∈ iter.order current (calleesOf (adjacency pr.edges).1 current) ↔
        Calls pr current v := fun v => hperm.mem_iff.trans mem_calleesOf
    have hvs : ∀ v ∈ iter.order current (calleesOf (adjacency pr.edges).1 current), v ∈ U :=
      fun v hv => hU current v ((hcalls v).mp hv)
    have hself : current ∉ iter.order current (calleesOf (adjacency pr.edges).1 current) := by
      intro hmem
      obtain ⟨e, -, -, -, hne⟩ := (hcalls current).mp hmem
      exact hne rfl
    have hnodup := hperm.nodup_iff.mpr (calleesOf (adjacency pr.edges).1 current).nodup
    have hturned := turned_foldl pr h.sync hnode rest
      (sorted (calleesOf (adjacency pr.edges).1 current).elems) hnodup hself
    refine ⟨_, rfl, h.expand hturned hq hnode (Nat.lt_of_not_ge hdepth) hcalls, ?_⟩
    refine Nat.lt_of_le_of_lt (Nat.le_of_eq (congrArg (Bfs.pending U) hturned.labels)) ?_
    exact Nat.lt_of_le_of_lt (Bfs.pending_foldl (node.depth + 1) _ hvs _) hless

/-- The loop ends with the queue empty. -/
theorem bfsLoop_ends (iter : Iteration) {U : List Text} (hU : ∀ u v, Calls pr u v → v ∈ U)
    (turns : Nat) (h : Inv pr roots maxDepth s) (hturns : Bfs.pending U s.labels < turns) :
    ∃ s', bfsLoop iter pr (adjacency pr.edges).1 maxDepth turns s = some s' ∧
      Inv pr roots maxDepth s' ∧ s'.queue = [] := by
  induction turns generalizing s with
  | zero => omega
  | succ turns ih =>
    cases hq : s.queue with
    | nil => exact ⟨s, by simp only [bfsLoop, hq], h, hq⟩
    | cons current rest =>
      obtain ⟨s', hturn, hinv, hless⟩ := turn_spec iter h hq hU
      obtain ⟨s'', hloop, hinv', hend⟩ := ih hinv (by omega)
      exact ⟨s'', by simp only [bfsLoop, hq, hturn, hloop], hinv', hend⟩

end Turn

/-- The search of `build_call_graph`, from its roots on. -/
theorem search_ends (iter : Iteration) (pr : ParseResult) (roots : List Text) (maxDepth : Nat) :
    ∃ s, bfsLoop iter pr (adjacency pr.edges).1 maxDepth (roots.length + pr.edges.length + 1)
        (roots.foldl (visitRoot pr) ⟨FinSet.empty, [], Dict.empty⟩) = some s ∧
      Inv pr roots maxDepth s ∧ s.queue = [] := by
  have hcallee : ∀ u v, Calls pr u v → v ∈ roots ++ pr.edges.map (·.calleeFunc) := by
    rintro u v ⟨e, he, -, rfl, -⟩
    exact List.mem_append_right _ (List.mem_map.mpr ⟨e, he, rfl⟩)
  have hempty : Search.Sync ⟨FinSet.empty, [], Dict.empty⟩ := by
    intro v
    simp
  obtain ⟨-, hlabels, -⟩ := foldl_visitRoot pr roots hempty
  refine bfsLoop_ends iter hcallee _ (inv_start pr roots maxDepth) ?_
  rw [hlabels]
  refine Nat.lt_of_le_of_lt (Bfs.pending_foldl 0 roots (fun v hv => List.mem_append_left _ hv) _) ?_
  refine Nat.lt_succ_of_le ?_
  refine Nat.le_trans (Nat.add_le_add_left List.countP_le_length _) ?_
  simp [Search.labels]

end Maptool
end Air101
