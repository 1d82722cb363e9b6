import Mathlib.Algebra.BigOperators.Group.List.Basic
import Mathlib.Algebra.GroupWithZero.Nat
import Mathlib.Data.List.Dedup
import Mathlib.Logic.Relation

/-!
# Storage.PathSums

Sums that go up a graph without cycles: the value of a vertex is its weight and the values of its
successors. That counts a vertex once for every path to it.

* `Trail`: a path with its vertices; `trails` lists them up to a length (`mem_trails`).
* `sum_trails`: the value of a vertex is the sum over the trails from it.
* `sum_eq_iff`: that is the sum over the set of what is reached, exactly when no vertex of non-zero
  weight ends two trails.
-/

namespace Storage
namespace PathSums

variable {α β : Type}

/-- Two things of one list behind the same first component add twice. -/
theorem sum_dedup_iff [DecidableEq α] (w : α → Nat) (ts : List (α × β)) (hnd : ts.Nodup) :
    ((ts.map Prod.fst).dedup.map w).sum ≤ (ts.map fun t => w t.1).sum ∧
    ((ts.map fun t => w t.1).sum = ((ts.map Prod.fst).dedup.map w).sum ↔
      ∀ v p q, w v ≠ 0 → (v, p) ∈ ts → (v, q) ∈ ts → p = q) := by
  induction ts with
  | nil => simp
  | cons t ts ih =>
    obtain ⟨a, p⟩ := t
    obtain ⟨hp, hnd⟩ := List.nodup_cons.mp hnd
    obtain ⟨hle, hiff⟩ := ih hnd
    by_cases ha : a ∈ ts.map Prod.fst
    · simp only [List.map_cons, List.dedup_cons_of_mem ha, List.sum_cons]
      obtain ⟨q, hq⟩ : ∃ q, (a, q) ∈ ts := by
        obtain ⟨⟨a', q⟩, hq, rfl⟩ := List.mem_map.mp ha
        exact ⟨q, hq⟩
      refine ⟨by omega, ?_⟩
      constructor
      · intro h v p' q' hv hp' hq'
        have hzero : w a = 0 := by omega
        have hrest := hiff.mp (by omega)
        obtain h' | h' := List.mem_cons.mp hp'
        · cases h'
          exact absurd hzero hv
        · obtain h'' | h'' := List.mem_cons.mp hq'
          · cases h''
            exact absurd hzero hv
          · exact hrest v p' q' hv h' h''
      · intro h
        have hzero : w a = 0 := by
          by_contra hw
          have := h a p q hw List.mem_cons_self (List.mem_cons_of_mem _ hq)
          exact hp (this ▸ hq)
        have hrest := hiff.mpr fun v p' q' hv hp' hq' =>
          h v p' q' hv (List.mem_cons_of_mem _ hp') (List.mem_cons_of_mem _ hq')
        rw [hzero, Nat.zero_add]
        exact hrest
    · simp only [List.map_cons, List.dedup_cons_of_notMem ha, List.sum_cons]
      have hout : ∀ q, (a, q) ∉ ts := fun q hq => ha (List.mem_map.mpr ⟨(a, q), hq, rfl⟩)
      refine ⟨Nat.add_le_add_left hle _, ?_⟩
      rw [Nat.add_left_cancel_iff, hiff]
      constructor
      · intro h v p' q' hv hp' hq'
        obtain h' | h' := List.mem_cons.mp hp'
        · cases h'
          obtain h'' | h'' := List.mem_cons.mp hq'
          · cases h''
            rfl
          · exact absurd h'' (hout q')
        · obtain h'' | h'' := List.mem_cons.mp hq'
          · cases h''
            exact absurd h' (hout p')
          · exact h v p' q' hv h' h''
      · intro h v p' q' hv hp' hq'
        exact h v p' q' hv (List.mem_cons_of_mem _ hp') (List.mem_cons_of_mem _ hq')

/-- A path from one vertex to another, with its vertices. -/
inductive Trail (adj : α → α → Prop) : α → α → List α → Prop where
  | here (u : α) : Trail adj u u [u]
  | down {u c v : α} {p : List α} : adj u c → Trail adj c v p → Trail adj u v (u :: p)

/-- The trails from a vertex with at most `k` edges, each with its end. -/
def trails (succ : α → List α) : Nat → α → List (α × List α)
  | 0, u => [(u, [u])]
  | k + 1, u =>
    (u, [u]) :: (succ u).flatMap fun c => (trails succ k c).map fun t => (t.1, u :: t.2)

section Ranked

variable {succ : α → List α} {rank : α → Nat} {bound : Nat}

/-- No vertex of the highest rank has a successor. -/
theorem succ_eq_nil (hrank : ∀ u, ∀ v ∈ succ u, rank u < rank v ∧ rank v ≤ bound) {u : α}
    (hu : bound ≤ rank u) : succ u = [] := by
  rw [List.eq_nil_iff_forall_not_mem]
  intro v hv
  have := hrank u v hv
  omega

theorem mem_trails (hrank : ∀ u, ∀ v ∈ succ u, rank u < rank v ∧ rank v ≤ bound) {k : Nat} {u v : α}
    {p : List α} (hk : bound ≤ rank u + k) : (v, p) ∈ trails succ k u ↔ Trail (fun a b => b ∈ succ a) u v p := by
  induction k generalizing u p with
  | zero =>
    have hnil := succ_eq_nil hrank hk
    rw [trails, List.mem_singleton]
    constructor
    · intro h
      cases h
      exact .here _
    · intro h
      cases h with
      | here => rfl
      | down hc => rw [hnil] at hc; cases hc
  | succ k ih =>
    rw [trails, List.mem_cons, List.mem_flatMap]
    constructor
    · rintro (h | ⟨c, hc, hmem⟩)
      · cases h
        exact .here _
      · obtain ⟨⟨v', q⟩, hq, heq⟩ := List.mem_map.mp hmem
        cases heq
        have := (hrank u c hc).1
        exact .down hc ((ih (by omega)).mp hq)
    · intro h
      cases h with
      | here => exact .inl rfl
      | @down _ c _ q hc hq =>
        have := (hrank u c hc).1
        exact .inr ⟨c, hc, List.mem_map.mpr ⟨(v, q), (ih (by omega)).mpr hq, rfl⟩⟩

theorem head_of_mem_trails {k : Nat} {u : α} {t : α × List α} (h : t ∈ trails succ k u) :
    t.2.head? = some u := by
  cases k with
  | zero =>
    rw [trails, List.mem_singleton] at h
    rw [h]
    rfl
  | succ k =>
    rw [trails, List.mem_cons, List.mem_flatMap] at h
    obtain rfl | ⟨c, -, hmem⟩ := h
    · rfl
    · obtain ⟨t', -, rfl⟩ := List.mem_map.mp hmem
      rfl

theorem nodup_trails (hsucc : ∀ u, (succ u).Nodup) (k : Nat) (u : α) :
    (trails succ k u).Nodup := by
  induction k generalizing u with
  | zero => exact List.nodup_singleton _
  | succ k ih =>
    rw [trails, List.nodup_cons, List.nodup_flatMap]
    refine ⟨?_, ?_, ?_⟩
    · intro h
      obtain ⟨c, -, hmem⟩ := List.mem_flatMap.mp h
      obtain ⟨t, ht, heq⟩ := List.mem_map.mp hmem
      have hhead := head_of_mem_trails ht
      have hnil : t.2 = [] := by
        injection heq with _ h2
        injection h2
      rw [hnil] at hhead
      cases hhead
    · intro c _
      refine (ih c).map ?_
      rintro ⟨a, p⟩ ⟨b, q⟩ h
      simp only [Prod.mk.injEq, List.cons.injEq, true_and] at h
      rw [h.1, h.2]
    · refine List.Pairwise.imp ?_ (hsucc u)
      intro c d hcd
      refine List.disjoint_left.mpr ?_
      intro t ht ht'
      obtain ⟨x, hx, rfl⟩ := List.mem_map.mp ht
      obtain ⟨y, hy, heq⟩ := List.mem_map.mp ht'
      have hxy : y.2 = x.2 := by
        injection heq with _ h2
        injection h2
      have hheads := head_of_mem_trails hy
      rw [hxy, head_of_mem_trails hx] at hheads
      exact hcd (Option.some.inj hheads)

theorem trail_reaches {adj : α → α → Prop} {u v : α} {p : List α} (h : Trail adj u v p) :
    Relation.ReflTransGen adj u v := by
  induction h with
  | here u => exact .refl
  | down hc _ ih => exact .head hc ih

theorem exists_trail {adj : α → α → Prop} {u v : α} (h : Relation.ReflTransGen adj u v) :
    ∃ p, Trail adj u v p := by
  induction h using Relation.ReflTransGen.head_induction_on with
  | refl => exact ⟨[v], .here v⟩
  | head hc _ ih =>
    obtain ⟨p, hp⟩ := ih
    exact ⟨_, .down hc hp⟩

theorem sum_flatMap (f : α → List Nat) (l : List α) :
    (l.flatMap f).sum = (l.map fun a => (f a).sum).sum := by
  induction l with
  | nil => rfl
  | cons a l ih => rw [List.flatMap_cons, List.sum_append, ih, List.map_cons, List.sum_cons]

/-- The value of a vertex is the sum of the weights at the ends of its trails. -/
theorem sum_trails (hrank : ∀ u, ∀ v ∈ succ u, rank u < rank v ∧ rank v ≤ bound)
    {w value : α → Nat} (hvalue : ∀ u, value u = w u + ((succ u).map value).sum) {k : Nat} {u : α}
    (hk : bound ≤ rank u + k) : value u = ((trails succ k u).map fun t => w t.1).sum := by
  induction k generalizing u with
  | zero => simp [hvalue u, succ_eq_nil hrank hk, trails]
  | succ k ih =>
    rw [hvalue u, trails, List.map_cons, List.sum_cons, List.map_flatMap, sum_flatMap]
    refine congrArg (w u + List.sum ·) ?_
    refine List.map_congr_left ?_
    intro c hc
    have := (hrank u c hc).1
    rw [ih (by omega), List.map_map]
    rfl

/-- The value of a vertex is the sum over the set of what it reaches, exactly when no vertex of
non-zero weight is reached on two trails. -/
theorem sum_eq_iff [DecidableEq α] (hsucc : ∀ u, (succ u).Nodup)
    (hrank : ∀ u, ∀ v ∈ succ u, rank u < rank v ∧ rank v ≤ bound)
    {w value : α → Nat} (hvalue : ∀ u, value u = w u + ((succ u).map value).sum) (u : α)
    {reached : List α} (hnd : reached.Nodup)
    (hreached : ∀ v, v ∈ reached ↔ Relation.ReflTransGen (fun a b => b ∈ succ a) u v) :
    value u = (reached.map w).sum ↔
      ∀ v p q, w v ≠ 0 → Trail (fun a b => b ∈ succ a) u v p →
        Trail (fun a b => b ∈ succ a) u v q → p = q := by
  have hk : bound ≤ rank u + bound := Nat.le_add_left _ _
  have hperm : ((trails succ bound u).map Prod.fst).dedup.Perm reached := by
    refine (List.perm_ext_iff_of_nodup (List.nodup_dedup _) hnd).mpr ?_
    intro v
    rw [List.mem_dedup, List.mem_map, hreached]
    constructor
    · rintro ⟨⟨v', p⟩, ht, rfl⟩
      exact trail_reaches ((mem_trails hrank hk).mp ht)
    · intro h
      obtain ⟨p, hp⟩ := exists_trail h
      exact ⟨(v, p), (mem_trails hrank hk).mpr hp, rfl⟩
  rw [sum_trails hrank hvalue hk, ← (hperm.map w).sum_eq,
    (sum_dedup_iff w _ (nodup_trails hsucc bound u)).2]
  simp only [mem_trails hrank hk]

end Ranked

end PathSums
end Storage
