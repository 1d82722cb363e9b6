import Air101.Maptool.Reachability
import Air101.Storage.PathSums
import Mathlib.Algebra.Order.BigOperators.Group.List
import Mathlib.Algebra.Order.Group.Nat

/-!
# Maptool.Subtree

`_compute_subtree_sizes`. The recursion writes the nodes down in post-order, so a subtree size is the
node's own size and the subtree sizes of its deeper callees (`foldl_addSubtree`). A function that a
node reaches on several paths is added once for each of them.

* `dfs_spec`: what a call of `dfs` adds to the order.
* `computeSubtreeSizes_spec`: the recurrence for every node.
* `subtree_flash_iff`: the nodes whose size is that of the set of what they reach.
-/

namespace Air101
namespace Maptool

open Storage

section Order

variable (nodes : Dict Text TreeNode)

/-- The deeper callees of a function. -/
def down (u : Text) : List Text :=
  match nodes.get? u with
  | none => []
  | some node => node.callees.filter fun callee => (deeper nodes node.depth callee).isSome

/-- A list of nodes, each once and behind its deeper callees. -/
inductive PostOrder : List Text → Prop where
  | nil : PostOrder []
  | snoc {order : List Text} {name : Text} {node : TreeNode} :
      PostOrder order → nodes.get? name = some node → name ∉ order →
      (∀ callee ∈ down nodes name, callee ∈ order) → PostOrder (order ++ [name])

/-- What some calls of `dfs` do to `visited` and `order`. -/
structure Walked (st st' : FinSet Text × List Text) : Prop where
  post : PostOrder nodes st'.2
  grows : ∀ x ∈ st.2, x ∈ st'.2
  fresh : ∀ x ∈ st'.2, x ∈ st.2 ∨ x ∉ st.1
  visited : ∀ x, x ∈ st'.1 ↔ x ∈ st.1 ∨ x ∈ st'.2

/-- The functions visited and not in the order, the callers on the way down, are less deep. -/
def Above (depth : Nat) (st : FinSet Text × List Text) : Prop :=
  ∀ x ∈ st.1, x ∉ st.2 → ∀ m, nodes.get? x = some m → m.depth < depth

end Order

section Dfs

variable {nodes : Dict Text TreeNode} {st st' st'' : FinSet Text × List Text}

theorem PostOrder.closed {order : List Text} (h : PostOrder nodes order) {x y : Text}
    (hx : x ∈ order) (hy : y ∈ down nodes x) : y ∈ order := by
  induction h with
  | nil => cases hx
  | snoc _ _ _ hdown ih =>
    obtain hx | hx := List.mem_append.mp hx
    · exact List.mem_append_left _ (ih hx)
    · rw [List.mem_singleton] at hx
      subst hx
      exact List.mem_append_left _ (hdown y hy)

theorem Walked.refl (hpost : PostOrder nodes st.2) (hsub : ∀ x ∈ st.2, x ∈ st.1) :
    Walked nodes st st :=
  ⟨hpost, fun _ h => h, fun _ h => .inl h, fun x => ⟨.inl, fun h => h.elim id (hsub x)⟩⟩

theorem Walked.trans (h : Walked nodes st st') (h' : Walked nodes st' st'') :
    Walked nodes st st'' := by
  refine ⟨h'.post, fun x hx => h'.grows x (h.grows x hx), ?_, ?_⟩
  · intro x hx
    obtain hx | hx := h'.fresh x hx
    · exact h.fresh x hx
    · exact .inr fun hst => hx ((h.visited x).mpr (.inl hst))
  · intro x
    rw [h'.visited, h.visited]
    constructor
    · rintro ((hx | hx) | hx)
      · exact .inl hx
      · exact .inr (h'.grows x hx)
      · exact .inr hx
    · rintro (hx | hx)
      · exact .inl (.inl hx)
      · exact .inr hx

theorem Walked.sub (h : Walked nodes st st') : ∀ x ∈ st'.2, x ∈ st'.1 :=
  fun x hx => (h.visited x).mpr (.inr hx)

theorem Walked.above (h : Walked nodes st st') {depth : Nat} (hst : Above nodes depth st) :
    Above nodes depth st' := by
  intro x hx hout
  obtain hx | hx := (h.visited x).mp hx
  · exact hst x hx fun hin => hout (h.grows x hin)
  · exact absurd hx hout

theorem Above.mono {d d' : Nat} (h : Above nodes d st) (hd : d ≤ d') : Above nodes d' st :=
  fun x hx hout m hm => Nat.lt_of_lt_of_le (h x hx hout m hm) hd

/-- One callee after the other. -/
theorem foldlM_walked {levels : Nat} {depth : Nat}
    (hcall : ∀ st callee m st', nodes.get? callee = some m → depth < m.depth →
      PostOrder nodes st.2 → (∀ x ∈ st.2, x ∈ st.1) → Above nodes m.depth st →
      dfs nodes levels st callee = some st' → Walked nodes st st' ∧ callee ∈ st'.2)
    (callees : List Text) (st : FinSet Text × List Text) (hpost : PostOrder nodes st.2)
    (hsub : ∀ x ∈ st.2, x ∈ st.1) (habove : Above nodes (depth + 1) st)
    (h : callees.foldlM
      (fun st callee =>
        match deeper nodes depth callee with
        | none => some st
        | some _ => dfs nodes levels st callee) st = some st') :
    Walked nodes st st' ∧ ∀ callee ∈ callees, (deeper nodes depth callee).isSome → callee ∈ st'.2 := by
  induction callees generalizing st with
  | nil =>
    cases h
    exact ⟨.refl hpost hsub, fun callee hc => by cases hc⟩
  | cons callee callees ih =>
    rw [List.foldlM_cons] at h
    cases hdeep : deeper nodes depth callee with
    | none =>
      rw [hdeep] at h
      obtain ⟨hw, hin⟩ := ih st hpost hsub habove h
      refine ⟨hw, ?_⟩
      intro c hc hsome
      obtain rfl | hc := List.mem_cons.mp hc
      · rw [hdeep] at hsome
        cases hsome
      · exact hin c hc hsome
    | some m =>
      rw [hdeep] at h
      obtain ⟨hm, hlt⟩ := deeper_eq_some.mp hdeep
      obtain ⟨mid, hmid, h⟩ := Option.bind_eq_some_iff.mp h
      obtain ⟨hw, hcallee⟩ := hcall st callee m mid hm hlt hpost hsub (habove.mono hlt) hmid
      obtain ⟨hw', hin⟩ := ih mid hw.post hw.sub (hw.above habove) h
      refine ⟨hw.trans hw', ?_⟩
      intro c hc hsome
      obtain rfl | hc := List.mem_cons.mp hc
      · exact hw'.grows _ hcallee
      · exact hin c hc hsome

/-- A call of `dfs` on a node puts it into the order, with what it reaches. -/
theorem dfs_spec (levels : Nat) {name : Text} {node : TreeNode}
    (hnode : nodes.get? name = some node) (hpost : PostOrder nodes st.2)
    (hsub : ∀ x ∈ st.2, x ∈ st.1) (habove : Above nodes node.depth st)
    (h : dfs nodes levels st name = some st') : Walked nodes st st' ∧ name ∈ st'.2 := by
  induction levels generalizing st name node st' with
  | zero => cases h
  | succ levels ih =>
    obtain ⟨visited, order⟩ := st
    unfold dfs at h
    simp only [hnode] at h
    by_cases hvis : name ∈ visited
    · rw [if_pos hvis] at h
      cases h
      refine ⟨.refl hpost hsub, ?_⟩
      by_contra hout
      have := habove name hvis hout node hnode
      omega
    · rw [if_neg hvis] at h
      obtain ⟨⟨visited', order'⟩, hfold, rfl⟩ := Option.map_eq_some_iff.mp h
      have hsub' : ∀ x ∈ order, x ∈ visited.add name :=
        fun x hx => FinSet.mem_add.mpr (.inr (hsub x hx))
      have habove' : Above nodes (node.depth + 1) (visited.add name, order) := by
        intro x hx hout m hm
        obtain rfl | hx := FinSet.mem_add.mp hx
        · cases hnode.symm.trans hm
          omega
        · have := habove x hx hout m hm
          omega
      obtain ⟨hw, hin⟩ := foldlM_walked
        (fun st callee m st' hm _ hpost hsub habove h => ih hm hpost hsub habove h)
        node.callees (visited.add name, order) hpost hsub' habove' hfold
      have hout : name ∉ order' := by
        intro hmem
        obtain hold | hnew := hw.fresh name hmem
        · exact hvis (hsub name hold)
        · exact hnew (FinSet.mem_add.mpr (.inl rfl))
      have hdown : ∀ callee ∈ down nodes name, callee ∈ order' := by
        intro callee hc
        simp only [down, hnode, List.mem_filter] at hc
        exact hin callee hc.1 hc.2
      refine ⟨⟨.snoc hw.post hnode hout hdown, ?_, ?_, ?_⟩, ?_⟩
      · intro x hx
        exact List.mem_append_left _ (hw.grows x hx)
      · intro x hx
        obtain hx | hx := List.mem_append.mp hx
        · obtain hx | hx := hw.fresh x hx
          · exact .inl hx
          · exact .inr fun hv => hx (FinSet.mem_add.mpr (.inr hv))
        · rw [List.mem_singleton] at hx
          subst hx
          exact .inr hvis
      · intro x
        rw [List.mem_append, List.mem_singleton]
        refine (hw.visited x).trans ?_
        simp only [FinSet.mem_add]
        tauto
      · exact List.mem_append_right _ (List.mem_singleton.mpr rfl)

/-- The entry points, one after the other. What is visited between two of them is in the order. -/
theorem roots_walked {levels : Nat} (roots : List Text) (st : FinSet Text × List Text)
    (hpost : PostOrder nodes st.2) (hsame : ∀ x, x ∈ st.1 ↔ x ∈ st.2)
    (h : roots.foldlM (dfs nodes levels) st = some st') :
    PostOrder nodes st'.2 ∧ (∀ x ∈ st.2, x ∈ st'.2) ∧
      ∀ root ∈ roots, ∀ node, nodes.get? root = some node → root ∈ st'.2 := by
  induction roots generalizing st with
  | nil =>
    cases h
    exact ⟨hpost, fun _ hx => hx, fun root hroot => by cases hroot⟩
  | cons root roots ih =>
    rw [List.foldlM_cons] at h
    obtain ⟨mid, hmid, hrest⟩ := Option.bind_eq_some_iff.mp h
    cases hnode : nodes.get? root with
    | none =>
      have hst : mid = st := by
        cases levels with
        | zero => cases hmid
        | succ levels =>
          simp only [dfs, hnode] at hmid
          exact (Option.some.inj hmid).symm
      subst hst
      obtain ⟨hpost', hgrows, hroots⟩ := ih mid hpost hsame hrest
      refine ⟨hpost', hgrows, ?_⟩
      intro x hx node hx'
      obtain rfl | hx := List.mem_cons.mp hx
      · cases hnode.symm.trans hx'
      · exact hroots x hx node hx'
    | some node =>
      have habove : Above nodes node.depth st :=
        fun x hx hout => absurd ((hsame x).mp hx) hout
      obtain ⟨hw, hin⟩ := dfs_spec levels hnode hpost (fun x hx => (hsame x).mpr hx) habove hmid
      have hsame' : ∀ x, x ∈ mid.1 ↔ x ∈ mid.2 := by
        intro x
        rw [hw.visited, hsame]
        exact ⟨fun hx => hx.elim (hw.grows x) id, .inr⟩
      obtain ⟨hpost', hgrows, hroots⟩ := ih mid hw.post hsame' hrest
      refine ⟨hpost', fun x hx => hgrows x (hw.grows x hx), ?_⟩
      intro x hx node' hx'
      obtain rfl | hx := List.mem_cons.mp hx
      · exact hgrows x hin
      · exact hroots x hx node' hx'

end Dfs

/-! ## The sizes -/

def sizeOf (nodes : Dict Text TreeNode) (v : Text) : Nat :=
  ((nodes.get? v).map (·.subtreeFlash)).getD 0

def flashOf (nodes : Dict Text TreeNode) (v : Text) : Nat :=
  ((nodes.get? v).map (·.flashSize)).getD 0

section Sizes

variable {nodes : Dict Text TreeNode}

theorem foldl_deeper (depth : Nat) (callees : List Text) (start : Nat) :
    callees.foldl
      (fun total callee =>
        match deeper nodes depth callee with
        | none => total
        | some calleeNode => total + calleeNode.subtreeFlash) start =
      start +
        ((callees.filter fun callee => (deeper nodes depth callee).isSome).map (sizeOf nodes)).sum := by
  induction callees generalizing start with
  | nil => rfl
  | cons callee callees ih =>
    rw [List.foldl_cons, ih]
    cases hdeep : deeper nodes depth callee with
    | none => simp [hdeep]
    | some m =>
      have hsize : sizeOf nodes callee = m.subtreeFlash := by
        rw [sizeOf, (deeper_eq_some.mp hdeep).1]
        rfl
      simp [hdeep, hsize, Nat.add_assoc]

theorem addSubtree_get? (nodes : Dict Text TreeNode) (name v : Text) :
    (addSubtree nodes name).get? v =
      if v = name then
        (nodes.get? name).map fun node =>
          { node with subtreeFlash := node.flashSize + ((down nodes name).map (sizeOf nodes)).sum }
      else nodes.get? v := by
  unfold addSubtree down
  cases hnode : nodes.get? name with
  | none =>
    simp only [Option.map_none]
    split
    · rename_i hv
      rw [hv, hnode]
    · rfl
  | some node =>
    rw [Dict.get?_set, Option.map_some]
    exact congrArg
      (fun total => if v = name then some { node with subtreeFlash := total } else nodes.get? v)
      (foldl_deeper node.depth node.callees node.flashSize)

theorem deeper_congr {nodes' : Dict Text TreeNode}
    (h : ∀ v, (nodes'.get? v).map TreeNode.unsized = (nodes.get? v).map TreeNode.unsized)
    (depth : Nat) (callee : Text) :
    (deeper nodes' depth callee).isSome = (deeper nodes depth callee).isSome := by
  have hto : ∀ {a b : Dict Text TreeNode},
      (∀ v, (a.get? v).map TreeNode.unsized = (b.get? v).map TreeNode.unsized) →
        (deeper a depth callee).isSome → (deeper b depth callee).isSome := by
    intro a b hab hsome
    obtain ⟨n, hn⟩ := Option.isSome_iff_exists.mp hsome
    obtain ⟨hn, hlt⟩ := deeper_eq_some.mp hn
    obtain ⟨m, hm, heq⟩ := unsized_eq_some hab hn
    rw [(unsized_fields heq).1] at hlt
    exact Option.isSome_iff_exists.mpr ⟨m, deeper_eq_some.mpr ⟨hm, hlt⟩⟩
  exact Bool.eq_iff_iff.mpr ⟨hto h, hto fun v => (h v).symm⟩

theorem down_congr {nodes' : Dict Text TreeNode}
    (h : ∀ v, (nodes'.get? v).map TreeNode.unsized = (nodes.get? v).map TreeNode.unsized)
    (u : Text) : down nodes' u = down nodes u := by
  unfold down
  cases hn : nodes'.get? u with
  | none =>
    have hu := h u
    rw [hn] at hu
    rw [Option.map_eq_none_iff.mp hu.symm]
  | some n =>
    obtain ⟨m, hm, heq⟩ := unsized_eq_some h hn
    obtain ⟨hdepth, hcallees, -, -⟩ := unsized_fields heq
    rw [hm]
    simp only [deeper_congr h, hdepth, hcallees]

/-- Behind the post-order, a size is the node's own size and the sizes of its deeper callees. -/
theorem foldl_addSubtree {order : List Text} (h : PostOrder nodes order) {x : Text}
    (hx : x ∈ order) :
    sizeOf (order.foldl addSubtree nodes) x =
      flashOf nodes x + ((down nodes x).map (sizeOf (order.foldl addSubtree nodes))).sum := by
  induction h with
  | nil => cases hx
  | @snoc order name node hpost hnode hout hdown ih =>
    rw [List.foldl_append, List.foldl_cons, List.foldl_nil]
    have hsame := foldl_addSubtree_unsized order nodes
    have hget := addSubtree_get? (order.foldl addSubtree nodes) name
    generalize order.foldl addSubtree nodes = cur at ih hsame hget ⊢
    have hold : ∀ y ∈ order, sizeOf (addSubtree cur name) y = sizeOf cur y := by
      intro y hy
      have hne : y ≠ name := by
        rintro rfl
        exact hout hy
      rw [sizeOf, hget, if_neg hne]
      rfl
    obtain hx | hx := List.mem_append.mp hx
    · rw [hold x hx, ih hx]
      refine congrArg (flashOf nodes x + List.sum ·) ?_
      exact List.map_congr_left fun y hy => (hold y (hpost.closed hx hy)).symm
    · rw [List.mem_singleton] at hx
      subst hx
      obtain ⟨m, hm, heq⟩ := unsized_eq_some (fun v => (hsame v).symm) hnode
      obtain ⟨-, -, -, hflash⟩ := unsized_fields heq
      rw [sizeOf, hget, if_pos rfl, hm, down_congr hsame, flashOf, hnode]
      simp only [Option.map_some, Option.getD_some]
      refine congrArg₂ (· + List.sum ·) hflash.symm ?_
      exact List.map_congr_left fun y hy => (hold y (hdown y hy)).symm

end Sizes

/-! ## The call graph -/

/-- A call from a function within the depth limit to one further away from the entry points. -/
def Deepens (pr : ParseResult) (roots : List Text) (maxDepth : Nat) (u v : Text) : Prop :=
  Calls pr u v ∧ ∃ d e, Bfs.Dist (Calls pr) roots u d ∧ Bfs.Dist (Calls pr) roots v e ∧
    d < e ∧ e ≤ maxDepth

section Search

variable {pr : ParseResult} {roots : List Text} {maxDepth : Nat} {s : Search}

theorem Inv.get?_iff (h : Inv pr roots maxDepth s) (hq : s.queue = []) (v : Text) (d : Nat) :
    (∃ n, s.nodes.get? v = some n ∧ n.depth = d) ↔
      Bfs.Dist (Calls pr) roots v d ∧ d ≤ maxDepth := by
  rw [← h.search.label_iff hq, labels_eq_some]

theorem Inv.mem_down (h : Inv pr roots maxDepth s) (hq : s.queue = []) {u v : Text} :
    v ∈ down s.nodes u ↔ Deepens pr roots maxDepth u v := by
  have hcallees : ∀ n, s.nodes.get? u = some n → n.depth < maxDepth →
      (v ∈ n.callees ↔ Calls pr u v) := by
    intro n hn hlt
    rw [(h.callees u n hn).1 ⟨n, hn, by simp [hq], hlt⟩, mem_sorted]
    exact mem_calleesOf
  unfold down
  constructor
  · intro hv
    cases hn : s.nodes.get? u with
    | none =>
      rw [hn] at hv
      cases hv
    | some n =>
      rw [hn] at hv
      obtain ⟨hv, hdeep⟩ := List.mem_filter.mp hv
      obtain ⟨m, hm⟩ := Option.isSome_iff_exists.mp hdeep
      obtain ⟨hm, hlt⟩ := deeper_eq_some.mp hm
      obtain ⟨hdist, -⟩ := (h.get?_iff hq u n.depth).mp ⟨n, hn, rfl⟩
      obtain ⟨hdist', hle⟩ := (h.get?_iff hq v m.depth).mp ⟨m, hm, rfl⟩
      exact ⟨(hcallees n hn (by omega)).mp hv, n.depth, m.depth, hdist, hdist', hlt, hle⟩
  · rintro ⟨hcall, d, e, hdist, hdist', hlt, hle⟩
    obtain ⟨n, hn, rfl⟩ := (h.get?_iff hq u d).mpr ⟨hdist, by omega⟩
    obtain ⟨m, hm, rfl⟩ := (h.get?_iff hq v e).mpr ⟨hdist', hle⟩
    simp only [hn, List.mem_filter]
    refine ⟨(hcallees n hn (by omega)).mpr hcall, ?_⟩
    exact Option.isSome_iff_exists.mpr ⟨m, deeper_eq_some.mpr ⟨hm, hlt⟩⟩

theorem Inv.nodup_down (h : Inv pr roots maxDepth s) (u : Text) : (down s.nodes u).Nodup := by
  unfold down
  cases hn : s.nodes.get? u with
  | none => exact List.nodup_nil
  | some n =>
    refine List.Nodup.filter _ ?_
    by_cases he : Expanded maxDepth s u
    · rw [(h.callees u n hn).1 he]
      exact (sorted_perm _).nodup_iff.mpr (calleesOf (adjacency pr.edges).1 u).nodup
    · rw [(h.callees u n hn).2 he]
      exact List.nodup_nil

/-- On a shortest walk from an entry point every call goes deeper. -/
theorem Inv.mem_of_closed (h : Inv pr roots maxDepth s) (hq : s.queue = []) {order : List Text}
    (hroots : ∀ r ∈ roots, ∀ n, s.nodes.get? r = some n → r ∈ order)
    (hclosed : ∀ u ∈ order, ∀ v ∈ down s.nodes u, v ∈ order) {k : Nat} {v : Text}
    (hwalk : Bfs.Walk (Calls pr) roots k v) (hmin : ∀ n, Bfs.Walk (Calls pr) roots n v → k ≤ n)
    (hk : k ≤ maxDepth) : v ∈ order := by
  induction hwalk with
  | root hr =>
    obtain ⟨n, hn, -⟩ := (h.get?_iff hq _ 0).mpr ⟨⟨.root hr, hmin⟩, hk⟩
    exact hroots _ hr n hn
  | @step k u v hwalk hcall ih =>
    have hmin' : ∀ n, Bfs.Walk (Calls pr) roots n u → k ≤ n := by
      intro n hn
      have := hmin (n + 1) (.step hn hcall)
      omega
    refine hclosed u (ih hmin' (by omega)) v ((h.mem_down hq).mpr ?_)
    exact ⟨hcall, k, k + 1, ⟨hwalk, hmin'⟩, ⟨.step hwalk hcall, hmin⟩, by omega, hk⟩

/-- The recurrence of the subtree sizes, for every name. -/
theorem computeSubtreeSizes_spec (h : Inv pr roots maxDepth s) (hq : s.queue = [])
    {sized : Dict Text TreeNode} (hsized : computeSubtreeSizes s.nodes roots = some sized)
    (v : Text) :
    sizeOf sized v = flashOf s.nodes v + ((down s.nodes v).map (sizeOf sized)).sum := by
  unfold computeSubtreeSizes at hsized
  cases hfold : roots.foldlM (dfs s.nodes (greatestDepth s.nodes + 2)) (FinSet.empty, []) with
  | none =>
    rw [hfold] at hsized
    cases hsized
  | some st =>
    rw [hfold] at hsized
    cases hsized
    obtain ⟨hpost, -, hroots⟩ := roots_walked roots (FinSet.empty, []) .nil (by simp) hfold
    cases hn : s.nodes.get? v with
    | some n =>
      obtain ⟨⟨hwalk, hmin⟩, hle⟩ := (h.get?_iff hq v n.depth).mp ⟨n, hn, rfl⟩
      exact foldl_addSubtree hpost
        (h.mem_of_closed hq hroots (fun u hu v hv => hpost.closed hu hv) hwalk hmin hle)
    | none =>
      have hsame := foldl_addSubtree_unsized st.2 s.nodes v
      rw [hn, Option.map_none, Option.map_eq_none_iff] at hsame
      rw [sizeOf, hsame, flashOf, down, hn]
      rfl

end Search

/-- A call between two nodes that goes to a greater depth. -/
def DeeperCall (pr : ParseResult) (nodes : Dict Text TreeNode) (u v : Text) : Prop :=
  Calls pr u v ∧ ∃ m n, nodes.get? u = some m ∧ nodes.get? v = some n ∧ m.depth < n.depth

open Classical in
/-- The flash sizes of the nodes that are reached from a node by calls to greater depths, each node
once. -/
noncomputable def reachableFlash (pr : ParseResult) (nodes : Dict Text TreeNode) (u : Text) : Nat :=
  ((nodes.entries.filter fun e => Relation.ReflTransGen (DeeperCall pr nodes) u e.1).map
    fun e => e.2.flashSize).sum

section Sized

variable {pr : ParseResult} {roots : List Text} {maxDepth : Nat} {s : Search}
  {sized : Dict Text TreeNode}

/-- A node's own size is that of its function. -/
theorem Inv.flashOf_eq (h : Inv pr roots maxDepth s) {v : Text} {n : TreeNode}
    (hn : s.nodes.get? v = some n) :
    flashOf s.nodes v = ((pr.functions.get? v).map (·.flashSize)).getD 0 := by
  have hbase : n.base.flashSize = (makeTreeNode v pr n.depth).flashSize :=
    congrArg TreeNode.flashSize (h.made v n hn)
  rw [flashOf, hn]
  exact hbase

theorem Inv.deeperCall_iff (h : Inv pr roots maxDepth s) (hq : s.queue = [])
    (hsame : ∀ v, (sized.get? v).map TreeNode.unsized = (s.nodes.get? v).map TreeNode.unsized)
    {u v : Text} : DeeperCall pr sized u v ↔ v ∈ down s.nodes u := by
  have hdepth : ∀ w d, (∃ n, sized.get? w = some n ∧ n.depth = d) ↔
      Bfs.Dist (Calls pr) roots w d ∧ d ≤ maxDepth := by
    intro w d
    have hw := map_eq_of_unsized hsame (·.depth) (fun _ => rfl) w
    rw [← h.get?_iff hq, ← Option.map_eq_some_iff, hw, Option.map_eq_some_iff]
  rw [h.mem_down hq]
  refine and_congr_right fun _ => ?_
  constructor
  · rintro ⟨m, n, hm, hn, hlt⟩
    obtain ⟨hdist, -⟩ := (hdepth u m.depth).mp ⟨m, hm, rfl⟩
    obtain ⟨hdist', hle⟩ := (hdepth v n.depth).mp ⟨n, hn, rfl⟩
    exact ⟨m.depth, n.depth, hdist, hdist', hlt, hle⟩
  · rintro ⟨d, e, hdist, hdist', hlt, hle⟩
    obtain ⟨m, hm, rfl⟩ := (hdepth u d).mpr ⟨hdist, by omega⟩
    obtain ⟨n, hn, rfl⟩ := (hdepth v e).mpr ⟨hdist', hle⟩
    exact ⟨m, n, hm, hn, hlt⟩

/-- The set sum as the library has it, over a list of what is reached. -/
theorem Inv.reachableFlash_eq (h : Inv pr roots maxDepth s) (hq : s.queue = [])
    (hsame : ∀ v, (sized.get? v).map TreeNode.unsized = (s.nodes.get? v).map TreeNode.unsized)
    {u : Text} {n : TreeNode} (hu : sized.get? u = some n) :
    ∃ reached : List Text, reached.Nodup ∧
      (∀ v, v ∈ reached ↔ Relation.ReflTransGen (fun a b => b ∈ down s.nodes a) u v) ∧
      reachableFlash pr sized u = (reached.map (flashOf s.nodes)).sum := by
  classical
  have hrel : DeeperCall pr sized = fun a b => b ∈ down s.nodes a := by
    funext a b
    exact propext (h.deeperCall_iff hq hsame)
  refine ⟨(sized.entries.filter fun e =>
    Relation.ReflTransGen (DeeperCall pr sized) u e.1).map Prod.fst, ?_, ?_, ?_⟩
  · exact sized.nodup.sublist (List.filter_sublist.map _)
  · intro v
    rw [← hrel, List.mem_map]
    constructor
    · rintro ⟨e, he, rfl⟩
      exact of_decide_eq_true (List.mem_filter.mp he).2
    · intro hreach
      obtain ⟨m, hm⟩ : ∃ m, sized.get? v = some m := by
        obtain rfl | ⟨w, -, -, -, m, -, hm, -⟩ := hreach.cases_tail
        · exact ⟨n, hu⟩
        · exact ⟨m, hm⟩
      exact ⟨(v, m), List.mem_filter.mpr ⟨Dict.mem_entries_iff.mpr hm, decide_eq_true hreach⟩, rfl⟩
  · rw [reachableFlash, List.map_map]
    refine congrArg List.sum (List.map_congr_left ?_)
    rintro ⟨v, m⟩ he
    have hm := Dict.mem_entries_iff.mp (List.mem_of_mem_filter he)
    have hflash := map_eq_of_unsized hsame (·.flashSize) (fun _ => rfl) v
    rw [Function.comp_apply, flashOf, ← hflash, hm]
    rfl

end Sized

/-- The size of a node is that of the set of what it reaches, and so within the total, exactly when
no function with a flash size is reached from it on two paths. -/
theorem subtree_flash_iff (iter : Iteration) (pr : ParseResult) (entryPoints : Option (List Text))
    (maxDepth : Nat) :
    ∃ r, buildCallGraph iter pr entryPoints maxDepth = some r ∧
      ∀ u n, r.nodes.get? u = some n →
        ((n.subtreeFlash = reachableFlash pr r.nodes u ∧ n.subtreeFlash ≤ r.totalFlashSum) ↔
          ∀ v info p q, pr.functions.get? v = some info → info.flashSize ≠ 0 →
            PathSums.Trail (Deepens pr (rootsOf pr entryPoints) maxDepth) u v p →
            PathSums.Trail (Deepens pr (rootsOf pr entryPoints) maxDepth) u v q → p = q) := by
  obtain ⟨s, sized, hr, hinv, hq, hsized⟩ := buildCallGraph_some iter pr entryPoints maxDepth
  obtain ⟨sized', hsized', hsame⟩ := computeSubtreeSizes_some s.nodes (rootsOf pr entryPoints)
  cases hsized.symm.trans hsized'
  generalize rootsOf pr entryPoints = roots at hr hinv hsized
  refine ⟨_, hr, ?_⟩
  intro u n hn
  simp only [treeResult] at hn ⊢
  obtain ⟨reached, hnodup, hreached, hsum⟩ := hinv.reachableFlash_eq hq hsame hn
  have hrel : Deepens pr roots maxDepth = fun a b => b ∈ down s.nodes a := by
    funext a b
    exact propext (hinv.mem_down hq).symm
  have hrank : ∀ a, ∀ b ∈ down s.nodes a,
      ((s.nodes.get? a).map (·.depth)).getD 0 < ((s.nodes.get? b).map (·.depth)).getD 0 ∧
        ((s.nodes.get? b).map (·.depth)).getD 0 ≤ maxDepth := by
    intro a b hb
    obtain ⟨-, d, e, hdist, hdist', hlt, hle⟩ := (hinv.mem_down hq).mp hb
    obtain ⟨m, hm, rfl⟩ := (hinv.get?_iff hq a d).mpr ⟨hdist, by omega⟩
    obtain ⟨k, hk, rfl⟩ := (hinv.get?_iff hq b e).mpr ⟨hdist', hle⟩
    rw [hm, hk]
    exact ⟨hlt, hle⟩
  have hiff := PathSums.sum_eq_iff hinv.nodup_down hrank
    (computeSubtreeSizes_spec hinv hq hsized) u hnodup hreached
  have hsize : sizeOf sized u = n.subtreeFlash := by
    rw [sizeOf, hn]
    rfl
  rw [hsize, ← hsum, ← hrel] at hiff
  have hle : reachableFlash pr sized u ≤ sized.total (·.flashSize) := by
    rw [Dict.total_eq]
    exact (List.filter_sublist.map _).sum_le_sum fun _ _ => Nat.zero_le _
  rw [and_iff_left_of_imp fun h => h.trans_le hle, hiff]
  -- A weight that counts is the flash size of a function.
  have hweight : ∀ v p, PathSums.Trail (Deepens pr roots maxDepth) u v p →
      (flashOf s.nodes v ≠ 0 ↔
        ∃ info, pr.functions.get? v = some info ∧ info.flashSize ≠ 0) := by
    intro v p hp
    rw [hrel] at hp
    obtain ⟨m, hm⟩ : ∃ m, s.nodes.get? v = some m := by
      obtain rfl | ⟨w, -, hv⟩ := (PathSums.trail_reaches hp).cases_tail
      · obtain ⟨m, hm, -⟩ := unsized_eq_some hsame hn
        exact ⟨m, hm⟩
      · obtain ⟨-, d, e, -, hdist, -, hle⟩ := (hinv.mem_down hq).mp hv
        obtain ⟨m, hm, -⟩ := (hinv.get?_iff hq v e).mpr ⟨hdist, hle⟩
        exact ⟨m, hm⟩
    rw [hinv.flashOf_eq hm]
    cases pr.functions.get? v with
    | none => simp
    | some info => simp
  constructor
  · intro h v info p q hinfo hne hp hq
    exact h v p q ((hweight v p hp).mpr ⟨info, hinfo, hne⟩) hp hq
  · intro h v p q hne hp hq
    obtain ⟨info, hinfo, hne⟩ := (hweight v p hp).mp hne
    exact h v info p q hinfo hne hp hq

/-- Two functions between an entry point and the function that both call. -/
def sharedCallee : ParseResult where
  edges :=
    [⟨['a'], ['b'], [], [], [], [], ['b']⟩, ⟨['a'], ['c'], [], [], [], [], ['c']⟩,
      ⟨['b'], ['d'], [], [], [], [], ['d']⟩, ⟨['c'], ['d'], [], [], [], [], ['d']⟩]
  functions :=
    (((Dict.empty.set ['a'] { name := ['a'], flashSize := 1 }).set
      ['b'] { name := ['b'], flashSize := 2 }).set
      ['c'] { name := ['c'], flashSize := 4 }).set ['d'] { name := ['d'], flashSize := 8 }

/-- The 8 bytes of `d` are in the size of `a` twice, which is above the sum of all functions. -/
theorem subtree_flash_shared :
    ∃ r n, buildCallGraph ⟨fun _ callees => callees.elems, fun _ _ => .refl _⟩ sharedCallee
        (some [['a']]) 50 = some r ∧ r.nodes.get? ['a'] = some n ∧
      n.subtreeFlash = 23 ∧ r.totalFlashSum = 15 ∧
      ¬ (n.subtreeFlash = reachableFlash sharedCallee r.nodes ['a'] ∧
        n.subtreeFlash ≤ r.totalFlashSum) := by
  refine ⟨_, _, rfl, rfl, rfl, rfl, ?_⟩
  rintro ⟨-, hle⟩
  revert hle
  decide

end Maptool
end Air101
