import Mathlib.Data.List.Nodup
import Mathlib.Logic.Function.Basic

/-!
# Storage.Bfs

Breadth-first search from several roots, cut off at a depth, over a relation of any size.

* `Walk`, `Dist`: what some number of edges reaches from the roots, and the shortest such number.
* `discover`: label a vertex that has no label yet and put it at the end of the queue.
* `Inv`: the queue goes up in labels and spans at most two levels; a vertex behind it below the
  limit has all its successors labelled at most one higher. `Inv.expand` and `Inv.skip` are the
  two kinds of turn.
* `Inv.label_iff`: with the queue empty, the labels are the shortest distances up to the limit.
* `pending`: what is in the queue or has no label yet goes down with every turn.
-/

namespace Storage
namespace Bfs

variable {α : Type}

/-- `v` is reached from a root by `n` edges. -/
inductive Walk (adj : α → α → Prop) (roots : List α) : Nat → α → Prop where
  | root {r : α} : r ∈ roots → Walk adj roots 0 r
  | step {n : Nat} {u v : α} : Walk adj roots n u → adj u v → Walk adj roots (n + 1) v

/-- `d` is the shortest distance of `v` from the roots. -/
def Dist (adj : α → α → Prop) (roots : List α) (v : α) (d : Nat) : Prop :=
  Walk adj roots d v ∧ ∀ n, Walk adj roots n v → d ≤ n

@[ext]
structure State (α : Type) where
  label : α → Option Nat
  queue : List α

section Discover

variable [DecidableEq α]

def discover (d : Nat) (s : State α) (v : α) : State α :=
  if (s.label v).isSome then s
  else ⟨Function.update s.label v (some d), s.queue ++ [v]⟩

theorem discover_of_some {d : Nat} {s : State α} {v : α} (h : (s.label v).isSome = true) :
    discover d s v = s := if_pos h

theorem discover_of_none {d : Nat} {s : State α} {v : α} (h : s.label v = none) :
    discover d s v = ⟨Function.update s.label v (some d), s.queue ++ [v]⟩ := by
  rw [discover, h]
  rfl

/-- What a round of discoveries does: the new vertices, each once, go to the end of the queue and
get the label `d`. -/
theorem foldl_discover (d : Nat) (vs : List α) (s : State α) :
    ∃ new : List α, (vs.foldl (discover d) s).queue = s.queue ++ new ∧ new.Nodup ∧
      (∀ v, v ∈ new ↔ v ∈ vs ∧ s.label v = none) ∧
      ∀ v, (vs.foldl (discover d) s).label v = if v ∈ new then some d else s.label v := by
  induction vs generalizing s with
  | nil => exact ⟨[], by simp, List.nodup_nil, by simp, by simp⟩
  | cons w vs ih =>
    rw [List.foldl_cons]
    cases hw : s.label w with
    | some e =>
      rw [discover_of_some (by rw [hw]; rfl)]
      obtain ⟨new, hq, hnd, hnew, hlab⟩ := ih s
      refine ⟨new, hq, hnd, ?_, hlab⟩
      intro v
      rw [hnew, List.mem_cons]
      constructor
      · rintro ⟨hv, hn⟩
        exact ⟨.inr hv, hn⟩
      · rintro ⟨rfl | hv, hn⟩
        · cases hw.symm.trans hn
        · exact ⟨hv, hn⟩
    | none =>
      rw [discover_of_none hw]
      obtain ⟨new, hq, hnd, hnew, hlab⟩ :=
        ih ⟨Function.update s.label w (some d), s.queue ++ [w]⟩
      have hwnew : w ∉ new := by
        intro h
        have := ((hnew w).mp h).2
        simp at this
      refine ⟨w :: new, by rw [hq]; simp, List.nodup_cons.mpr ⟨hwnew, hnd⟩, ?_, ?_⟩
      · intro v
        by_cases hvw : v = w
        · simp [hvw, hw]
        · simp [hvw, hnew]
      · intro v
        rw [hlab]
        by_cases hvw : v = w
        · simp [hvw, hwnew]
        · simp [hvw]

end Discover

/-- The invariant of a search with the limit `limit`. -/
structure Inv (adj : α → α → Prop) (roots : List α) (limit : Nat) (s : State α) : Prop where
  rooted : ∀ r ∈ roots, s.label r = some 0
  sound : ∀ v d, s.label v = some d → Walk adj roots d v
  limited : ∀ v d, s.label v = some d → d ≤ limit
  nodup : s.queue.Nodup
  queued : ∀ v ∈ s.queue, ∃ d, s.label v = some d
  sorted : s.queue.Pairwise fun u v => ∀ m n, s.label u = some m → s.label v = some n → m ≤ n
  span : ∀ u ∈ s.queue.head?, ∀ m, s.label u = some m → ∀ v n, s.label v = some n → n ≤ m + 1
  closed : ∀ u d, s.label u = some d → u ∉ s.queue → d < limit → ∀ v, adj u v →
    ∃ e, e ≤ d + 1 ∧ s.label v = some e

section Turns

variable {adj : α → α → Prop} {roots : List α} {limit : Nat}

/-- At the start the vertices with a label are those in the queue. -/
theorem init_queued [DecidableEq α] {roots : List α} {v : α} {d : Nat}
    (h : (roots.foldl (discover 0) ⟨fun _ => none, []⟩).label v = some d) :
    v ∈ (roots.foldl (discover 0) ⟨fun _ => none, []⟩).queue := by
  obtain ⟨new, hq, -, -, hlab⟩ := foldl_discover 0 roots ⟨fun _ => none, []⟩
  rw [hlab] at h
  rw [hq]
  split at h
  · rename_i hv
    exact List.mem_append_right _ hv
  · cases h

/-- The roots, labelled 0. -/
theorem inv_init [DecidableEq α] (adj : α → α → Prop) (roots : List α) (limit : Nat) :
    Inv adj roots limit (roots.foldl (discover 0) ⟨fun _ => none, []⟩) := by
  obtain ⟨new, hq, hnd, hnew, hlab⟩ := foldl_discover 0 roots ⟨fun _ => none, []⟩
  have hmem : ∀ v, v ∈ new ↔ v ∈ roots := by
    intro v
    rw [hnew]
    simp
  have hsome : ∀ v d, (roots.foldl (discover 0) ⟨fun _ => none, []⟩).label v = some d →
      v ∈ roots ∧ d = 0 := by
    intro v d h
    rw [hlab] at h
    split at h
    · rename_i hv
      exact ⟨(hmem v).mp hv, (Option.some.inj h).symm⟩
    · cases h
  have hroot : ∀ r ∈ roots, (roots.foldl (discover 0) ⟨fun _ => none, []⟩).label r = some 0 := by
    intro r hr
    rw [hlab, if_pos ((hmem r).mpr hr)]
  rw [List.nil_append] at hq
  refine ⟨hroot, ?_, ?_, ?_, ?_, ?_, ?_, ?_⟩
  · intro v d h
    obtain ⟨hv, rfl⟩ := hsome v d h
    exact .root hv
  · intro v d h
    obtain ⟨-, rfl⟩ := hsome v d h
    exact Nat.zero_le _
  · rw [hq]
    exact hnd
  · intro v hv
    rw [hq] at hv
    exact ⟨0, hroot v ((hmem v).mp hv)⟩
  · refine List.Pairwise.imp ?_ (List.pairwise_of_forall (R := fun _ _ => True) fun _ _ => trivial)
    intro u v _ m n hm hn
    obtain ⟨-, rfl⟩ := hsome u m hm
    exact Nat.zero_le _
  · intro u _ m _ v n hn
    obtain ⟨-, rfl⟩ := hsome v n hn
    exact Nat.zero_le _
  · intro u d h hout
    rw [hq] at hout
    exact absurd ((hmem u).mpr (hsome u d h).1) hout

/-- The head of the queue has the lowest label of the queue, and the others are at most one
higher. -/
theorem Inv.head_le {s : State α} (h : Inv adj roots limit s) {u : α} {rest : List α}
    (hq : s.queue = u :: rest) {m n : Nat} {v : α} (hm : s.label u = some m) (hv : v ∈ s.queue)
    (hn : s.label v = some n) : m ≤ n := by
  have hsorted := h.sorted
  rw [hq] at hsorted hv
  obtain rfl | hv := List.mem_cons.mp hv
  · exact Nat.le_of_eq (Option.some.inj (hm.symm.trans hn))
  · exact (List.pairwise_cons.mp hsorted).1 v hv m n hm hn

/-- A vertex at the limit is dropped. -/
theorem Inv.skip {s : State α} (h : Inv adj roots limit s) {u : α} {rest : List α}
    (hq : s.queue = u :: rest) {d : Nat} (hu : s.label u = some d) (hd : limit ≤ d) :
    Inv adj roots limit ⟨s.label, rest⟩ := by
  have hsorted := h.sorted
  have hnodup := h.nodup
  rw [hq] at hsorted hnodup
  refine ⟨h.rooted, h.sound, h.limited, (List.nodup_cons.mp hnodup).2, ?_,
    (List.pairwise_cons.mp hsorted).2, ?_, ?_⟩
  · intro v hv
    exact h.queued v (by rw [hq]; exact List.mem_cons_of_mem u hv)
  · intro w hw m hm v n hn
    have hwq : w ∈ s.queue := by
      rw [hq]
      exact List.mem_cons_of_mem u (List.mem_of_mem_head? hw)
    have hle := h.head_le hq hu hwq hm
    have := h.limited v n hn
    omega
  · intro w e hw hout he v hv
    refine h.closed w e hw ?_ he v hv
    rw [hq]
    intro hmem
    obtain rfl | hmem := List.mem_cons.mp hmem
    · cases hu.symm.trans hw
      omega
    · exact hout hmem

/-- `u`, the head of the queue with the label `d`, leaves it, and the `new` ones of its successors
come in. -/
structure Expands (adj : α → α → Prop) (s s' : State α) (u : α) (rest new : List α) (d : Nat) :
    Prop where
  queue : s'.queue = rest ++ new
  nodup : new.Nodup
  mem : ∀ v, v ∈ new ↔ adj u v ∧ s.label v = none
  old : ∀ v n, s.label v = some n → s'.label v = some n
  label : ∀ v n, s'.label v = some n → (v ∈ new ∧ n = d + 1) ∨ s.label v = some n
  fresh : ∀ v ∈ new, s'.label v = some (d + 1)

theorem expands_foldl [DecidableEq α] (s : State α) {u : α} {vs : List α} (rest : List α) (d : Nat)
    (hvs : ∀ v, v ∈ vs ↔ adj u v) :
    ∃ new, Expands adj s (vs.foldl (discover (d + 1)) ⟨s.label, rest⟩) u rest new d := by
  obtain ⟨new, hq, hnd, hnew, hlab⟩ := foldl_discover (d + 1) vs ⟨s.label, rest⟩
  refine ⟨new, hq, hnd, fun v => by rw [hnew, hvs], ?_, ?_, fun v hv => by rw [hlab, if_pos hv]⟩
  · intro v n hn
    have hv : v ∉ new := by
      intro hv
      cases hn.symm.trans ((hnew v).mp hv).2
    rw [hlab, if_neg hv, hn]
  · intro v n hn
    rw [hlab] at hn
    split at hn
    · rename_i hv
      exact .inl ⟨hv, (Option.some.inj hn).symm⟩
    · exact .inr hn

section Expand

variable {s s' : State α} {u : α} {rest new : List α} {d : Nat}

/-- The labels stay at most one above that of the head. -/
theorem Expands.le (e : Expands adj s s' u rest new d) (h : Inv adj roots limit s)
    (hq : s.queue = u :: rest) (hu : s.label u = some d) {v : α} {n : Nat}
    (hn : s'.label v = some n) : n ≤ d + 1 := by
  obtain ⟨-, rfl⟩ | hn := e.label v n hn
  · exact Nat.le_refl _
  · exact h.span u (by rw [hq]; rfl) d hu v n hn

/-- The labels in the queue are at least that of the head. -/
theorem Expands.ge (e : Expands adj s s' u rest new d) (h : Inv adj roots limit s)
    (hq : s.queue = u :: rest) (hu : s.label u = some d) {v : α} (hv : v ∈ s'.queue) {n : Nat}
    (hn : s'.label v = some n) : d ≤ n := by
  obtain ⟨-, rfl⟩ | hn := e.label v n hn
  · omega
  · rw [e.queue] at hv
    obtain hv | hv := List.mem_append.mp hv
    · exact h.head_le hq hu (by rw [hq]; exact List.mem_cons_of_mem u hv) hn
    · cases hn.symm.trans ((e.mem v).mp hv).2

theorem Expands.nodup_queue (e : Expands adj s s' u rest new d) (h : Inv adj roots limit s)
    (hq : s.queue = u :: rest) : s'.queue.Nodup := by
  have hnodup := h.nodup
  rw [hq] at hnodup
  rw [e.queue]
  refine List.nodup_append.mpr ⟨(List.nodup_cons.mp hnodup).2, e.nodup, ?_⟩
  rintro a ha b hb rfl
  obtain ⟨n, hn⟩ := h.queued a (by rw [hq]; exact List.mem_cons_of_mem u ha)
  cases hn.symm.trans ((e.mem a).mp hb).2

theorem Expands.queued (e : Expands adj s s' u rest new d) (h : Inv adj roots limit s)
    (hq : s.queue = u :: rest) {v : α} (hv : v ∈ s'.queue) : ∃ n, s'.label v = some n := by
  rw [e.queue] at hv
  obtain hv | hv := List.mem_append.mp hv
  · obtain ⟨n, hn⟩ := h.queued v (by rw [hq]; exact List.mem_cons_of_mem u hv)
    exact ⟨n, e.old v n hn⟩
  · exact ⟨d + 1, e.fresh v hv⟩

/-- What comes in has the highest label there is. -/
theorem Expands.sorted (e : Expands adj s s' u rest new d) (h : Inv adj roots limit s)
    (hq : s.queue = u :: rest) (hu : s.label u = some d) :
    s'.queue.Pairwise fun v w => ∀ m n, s'.label v = some m → s'.label w = some n → m ≤ n := by
  have hsorted := h.sorted
  rw [hq] at hsorted
  rw [e.queue, List.pairwise_append]
  refine ⟨?_, ?_, ?_⟩
  · refine List.Pairwise.imp_of_mem ?_ (List.pairwise_cons.mp hsorted).2
    intro a b ha hb hab m n hm hn
    obtain ⟨ma, hma⟩ := h.queued a (by rw [hq]; exact List.mem_cons_of_mem u ha)
    obtain ⟨nb, hnb⟩ := h.queued b (by rw [hq]; exact List.mem_cons_of_mem u hb)
    cases (e.old a ma hma).symm.trans hm
    cases (e.old b nb hnb).symm.trans hn
    exact hab _ _ hma hnb
  · refine List.Pairwise.imp_of_mem ?_ e.nodup
    intro a b ha hb _ m n hm hn
    cases (e.fresh a ha).symm.trans hm
    cases (e.fresh b hb).symm.trans hn
    exact Nat.le_refl _
  · intro a _ b hb m n hm hn
    cases (e.fresh b hb).symm.trans hn
    exact e.le h hq hu hm

/-- The successors of `u` have labels now, and those of the vertices before it still have. -/
theorem Expands.closed (e : Expands adj s s' u rest new d) (h : Inv adj roots limit s)
    (hq : s.queue = u :: rest) (hu : s.label u = some d) {w : α} {n : Nat}
    (hw : s'.label w = some n) (hout : w ∉ s'.queue) (hn : n < limit) {v : α} (hv : adj w v) :
    ∃ k, k ≤ n + 1 ∧ s'.label v = some k := by
  rw [e.queue, List.mem_append] at hout
  obtain ⟨hwnew, -⟩ | hw := e.label w n hw
  · exact absurd (.inr hwnew) hout
  · by_cases hwu : w = u
    · subst hwu
      cases hu.symm.trans hw
      cases hlv : s.label v with
      | some k => exact ⟨k, h.span w (by rw [hq]; rfl) d hu v k hlv, e.old v k hlv⟩
      | none => exact ⟨d + 1, Nat.le_refl _, e.fresh v ((e.mem v).mpr ⟨hv, hlv⟩)⟩
    · have hout' : w ∉ s.queue := by
        rw [hq]
        intro hmem
        obtain h | h := List.mem_cons.mp hmem
        · exact hwu h
        · exact hout (.inl h)
      obtain ⟨k, hk, hlv⟩ := h.closed w n hw hout' hn v hv
      exact ⟨k, hk, e.old v k hlv⟩

end Expand

/-- The head of the queue leaves it, and its successors come in. -/
theorem Inv.expand [DecidableEq α] {s : State α} (h : Inv adj roots limit s) {u : α}
    {rest vs : List α} (hq : s.queue = u :: rest) {d : Nat} (hu : s.label u = some d)
    (hd : d < limit) (hvs : ∀ v, v ∈ vs ↔ adj u v) :
    Inv adj roots limit (vs.foldl (discover (d + 1)) ⟨s.label, rest⟩) := by
  obtain ⟨new, e⟩ := expands_foldl s rest d hvs
  refine ⟨fun r hr => e.old r 0 (h.rooted r hr), ?_, ?_, e.nodup_queue h hq,
    fun v hv => e.queued h hq hv, e.sorted h hq hu, ?_,
    fun w n hw hout hn v hv => e.closed h hq hu hw hout hn hv⟩
  · intro v n hn
    obtain ⟨hv, rfl⟩ | hn := e.label v n hn
    · exact .step (h.sound u d hu) ((e.mem v).mp hv).1
    · exact h.sound v n hn
  · intro v n hn
    have := e.le h hq hu hn
    omega
  · intro w hw m hm v n hn
    have := e.ge h hq hu (List.mem_of_mem_head? hw) hm
    have := e.le h hq hu hn
    omega

/-- With the queue empty, a walk within the limit ends at a label no higher than its length. -/
theorem Inv.label_le {s : State α} (h : Inv adj roots limit s) (hq : s.queue = []) {n : Nat}
    {v : α} (hw : Walk adj roots n v) (hn : n ≤ limit) : ∃ d, d ≤ n ∧ s.label v = some d := by
  induction hw with
  | root hr => exact ⟨0, Nat.le_refl _, h.rooted _ hr⟩
  | @step n u v _ hadj ih =>
    obtain ⟨d, hd, hu⟩ := ih (by omega)
    obtain ⟨e, he, hv⟩ := h.closed u d hu (by simp [hq]) (by omega) v hadj
    exact ⟨e, by omega, hv⟩

/-- With the queue empty, the labels are the shortest distances up to the limit. -/
theorem Inv.label_iff {s : State α} (h : Inv adj roots limit s) (hq : s.queue = []) (v : α)
    (d : Nat) : s.label v = some d ↔ Dist adj roots v d ∧ d ≤ limit := by
  constructor
  · intro hd
    have hle := h.limited v d hd
    refine ⟨⟨h.sound v d hd, ?_⟩, hle⟩
    intro n hn
    by_cases hlim : n ≤ limit
    · obtain ⟨e, he, hv⟩ := h.label_le hq hn hlim
      cases hd.symm.trans hv
      exact he
    · omega
  · rintro ⟨⟨hw, hmin⟩, hle⟩
    obtain ⟨e, he, hv⟩ := h.label_le hq hw hle
    have := hmin e (h.sound v e hv)
    rw [hv, show e = d by omega]

end Turns

section Pending

variable [DecidableEq α]

/-- The vertices of `U` in the queue or without a label. -/
def pending (U : List α) (s : State α) : Nat :=
  s.queue.length + U.countP fun v => (s.label v).isNone

theorem countP_update (U : List α) (label : α → Option Nat) {v : α} (hl : label v = none)
    (d : Nat) : U.countP (fun w => (label w).isNone) =
      U.countP (fun w => (Function.update label v (some d) w).isNone) + U.count v := by
  induction U with
  | nil => rfl
  | cons w U ih =>
    rw [List.countP_cons, List.countP_cons, List.count_cons, ih]
    by_cases hw : w = v
    · subst hw
      simp [hl]
      omega
    · simp [hw]
      omega

theorem pending_discover {U : List α} {v : α} (hv : v ∈ U) (d : Nat) (s : State α) :
    pending U (discover d s v) ≤ pending U s := by
  cases hl : s.label v with
  | some e =>
    exact Nat.le_of_eq (congrArg (pending U) (discover_of_some (by rw [hl]; rfl)))
  | none =>
    rw [discover_of_none hl]
    have hsplit := countP_update U s.label hl d
    have hpos : 0 < U.count v := List.count_pos_iff.mpr hv
    simp only [pending, List.length_append, List.length_singleton]
    omega

theorem pending_foldl {U : List α} (d : Nat) (vs : List α) (hvs : ∀ v ∈ vs, v ∈ U) (s : State α) :
    pending U (vs.foldl (discover d) s) ≤ pending U s := by
  induction vs generalizing s with
  | nil => exact Nat.le_refl _
  | cons v vs ih =>
    exact Nat.le_trans (ih (fun w hw => hvs w (List.mem_cons_of_mem v hw)) _)
      (pending_discover (hvs v List.mem_cons_self) d s)

end Pending

end Bfs
end Storage
