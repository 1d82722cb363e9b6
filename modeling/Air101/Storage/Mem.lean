import Mathlib.Algebra.Ring.Nat
import Mathlib.Data.List.Basic
import Mathlib.Tactic.Common

/-!
# Storage.Mem

Flat memories: functions from addresses to cells, over an arbitrary cell type.

* `slice m a n`: the `n` cells from address `a` on, as a list.
* `overlay m a xs`: the memory with the list `xs` laid over it from address `a` on.

A write of a range is an overlay and a read of a range is a slice, so a statement about a driver
becomes an equation between the two. The lemmas say how overlays compose and what a slice of an
overlay is.
-/

namespace Storage

variable {α : Type}

/-- The `n` cells of `m` from address `a` on. -/
def slice (m : Nat → α) (a n : Nat) : List α := (List.range n).map fun i => m (a + i)

/-- Memory `m` with `xs` laid over it from address `a` on. -/
def overlay (m : Nat → α) (a : Nat) (xs : List α) : Nat → α := fun x =>
  if a ≤ x then (xs[x - a]?).getD (m x) else m x

/-! ## Slices -/

@[simp] theorem slice_length (m : Nat → α) (a n : Nat) : (slice m a n).length = n := by
  simp [slice]

@[simp] theorem slice_zero (m : Nat → α) (a : Nat) : slice m a 0 = [] := rfl

theorem slice_getElem? (m : Nat → α) (a n i : Nat) :
    (slice m a n)[i]? = if i < n then some (m (a + i)) else none := by
  by_cases h : i < n
  · simp [slice, h]
  · simp [slice, h]

@[simp] theorem slice_getElem (m : Nat → α) (a n i : Nat) (h : i < (slice m a n).length) :
    (slice m a n)[i] = m (a + i) := by
  simp [slice]

theorem slice_append (m : Nat → α) (a n k : Nat) :
    slice m a (n + k) = slice m a n ++ slice m (a + n) k := by
  apply List.ext_getElem?
  intro i
  rw [List.getElem?_append, slice_getElem?, slice_getElem?, slice_getElem?, slice_length]
  by_cases h1 : i < n
  · rw [if_pos h1, if_pos h1, if_pos (by omega)]
  · rw [if_neg h1]
    by_cases h2 : i < n + k
    · rw [if_pos h2, if_pos (by omega), show a + n + (i - n) = a + i by omega]
    · rw [if_neg h2, if_neg (by omega)]

theorem slice_congr {m m' : Nat → α} {a n : Nat} (h : ∀ i, i < n → m (a + i) = m' (a + i)) :
    slice m a n = slice m' a n := by
  apply List.map_congr_left
  intro i hi
  exact h i (List.mem_range.mp hi)

theorem slice_take (m : Nat → α) (a n k : Nat) (h : k ≤ n) : (slice m a n).take k = slice m a k := by
  obtain ⟨j, rfl⟩ : ∃ j, n = k + j := ⟨n - k, by omega⟩
  rw [slice_append, List.take_left' (by simp)]

theorem slice_drop (m : Nat → α) (a n k : Nat) (h : k ≤ n) :
    (slice m a n).drop k = slice m (a + k) (n - k) := by
  obtain ⟨j, rfl⟩ : ∃ j, n = k + j := ⟨n - k, by omega⟩
  rw [slice_append, List.drop_left' (by simp)]
  congr 1
  omega

theorem slice_slice (m : Nat → α) (a n k j : Nat) (h : k + j ≤ n) :
    ((slice m a n).drop k).take j = slice m (a + k) j := by
  rw [slice_drop m a n k (by omega), slice_take m (a + k) (n - k) j (by omega)]

/-! ## Overlays -/

theorem overlay_in {m : Nat → α} {a : Nat} {xs : List α} {x : Nat} (h : a ≤ x)
    (hx : x - a < xs.length) : overlay m a xs x = xs[x - a] := by
  simp [overlay, h, hx]

theorem overlay_out {m : Nat → α} {a : Nat} {xs : List α} {x : Nat}
    (h : x < a ∨ a + xs.length ≤ x) : overlay m a xs x = m x := by
  unfold overlay
  split
  · rw [List.getElem?_eq_none (by omega)]
    rfl
  · rfl

theorem overlay_at {m : Nat → α} {a : Nat} {xs : List α} {i : Nat} (h : i < xs.length) :
    overlay m a xs (a + i) = xs[i] := by
  rw [overlay_in (by omega) (by omega)]
  congr 1
  omega

@[simp] theorem overlay_nil (m : Nat → α) (a : Nat) : overlay m a [] = m := by
  funext x
  exact overlay_out (by simp; omega)

theorem overlay_append (m : Nat → α) (a : Nat) (xs ys : List α) :
    overlay m a (xs ++ ys) = overlay (overlay m a xs) (a + xs.length) ys := by
  funext x
  unfold overlay
  by_cases h1 : a ≤ x
  · by_cases h2 : a + xs.length ≤ x
    · rw [if_pos h1, if_pos h2, if_pos h1, List.getElem?_append_right (by omega),
        List.getElem?_eq_none (l := xs) (by omega)]
      rw [show x - a - xs.length = x - (a + xs.length) by omega]
      rfl
    · rw [if_pos h1, if_neg h2, if_pos h1, List.getElem?_append_left (by omega)]
  · rw [if_neg h1, if_neg (by omega), if_neg h1]

theorem overlay_congr {m m' : Nat → α} {a : Nat} {xs : List α} {x : Nat}
    (h : (a ≤ x ∧ x < a + xs.length) ∨ m x = m' x) : overlay m a xs x = overlay m' a xs x := by
  by_cases hx : a ≤ x ∧ x < a + xs.length
  · rw [overlay_in hx.1 (by omega), overlay_in hx.1 (by omega)]
  · rcases h with h | h
    · exact absurd h hx
    · rw [overlay_out (by omega), overlay_out (by omega), h]

theorem slice_overlay (m : Nat → α) (a : Nat) (xs : List α) :
    slice (overlay m a xs) a xs.length = xs := by
  apply List.ext_getElem
  · simp
  · intro i h1 h2
    rw [slice_getElem, overlay_at h2]

theorem slice_overlay_out {m : Nat → α} {a b n : Nat} {xs : List α}
    (h : b + n ≤ a ∨ a + xs.length ≤ b) : slice (overlay m a xs) b n = slice m b n := by
  apply slice_congr
  intro i hi
  exact overlay_out (by omega)

theorem slice_overlay_in {m : Nat → α} {a k n : Nat} {xs : List α} (h : k + n ≤ xs.length) :
    slice (overlay m a xs) (a + k) n = (xs.drop k).take n := by
  have e := slice_slice (overlay m a xs) a xs.length k n h
  rw [slice_overlay] at e
  exact e.symm

theorem slice_overlay_behind (m : Nat → α) (a n : Nat) (xs : List α) :
    slice (overlay m (a + n) xs) a (n + xs.length) = slice m a n ++ xs := by
  rw [slice_append, slice_overlay_out (.inl (Nat.le_refl _)), slice_overlay]

theorem overlay_slice (m : Nat → α) (a n : Nat) : overlay m a (slice m a n) = m := by
  funext x
  by_cases h : a ≤ x ∧ x < a + n
  · rw [overlay_in h.1 (by simp; omega), slice_getElem]
    congr 1
    omega
  · exact overlay_out (by simp; omega)

/-! ## Cells written one by one -/

/-- The cells after writing each value at its offset from `a`. -/
def scatter (m : Nat → α) (a : Nat) (ws : List (α × Nat)) : Nat → α :=
  ws.foldl (fun m w => overlay m (a + w.2) [w.1]) m

@[simp] theorem scatter_nil (m : Nat → α) (a : Nat) : scatter m a [] = m := rfl

theorem scatter_append (m : Nat → α) (a : Nat) (ws vs : List (α × Nat)) :
    scatter m a (ws ++ vs) = scatter (scatter m a ws) a vs := List.foldl_append

theorem scatter_zipIdx (m : Nat → α) (a k : Nat) (xs : List α) :
    scatter m a (xs.zipIdx k) = overlay m (a + k) xs := by
  induction xs generalizing m k with
  | nil => simp
  | cons x xs ih =>
    rw [List.zipIdx_cons, scatter, List.foldl_cons]
    have hstep := ih (overlay m (a + k) [x]) (k + 1)
    rw [scatter] at hstep
    have hjoin := overlay_append m (a + k) [x] xs
    rw [List.singleton_append] at hjoin
    rw [hstep, hjoin]
    rfl

/-! ## Patching a list -/

/-- The list `c` with `xs` put in place from index `k` on. -/
def patch (c : List α) (k : Nat) (xs : List α) : List α := c.take k ++ xs ++ c.drop (k + xs.length)

theorem patch_length {c : List α} {k : Nat} {xs : List α} (h : k + xs.length ≤ c.length) :
    (patch c k xs).length = c.length := by
  simp [patch]
  omega

theorem take_patch_length {c : List α} {n : Nat} (h : c.length = n) (k : Nat) (xs : List α) :
    ((patch c k xs).take n).length = n := by
  simp only [patch, List.length_take, List.length_append, List.length_drop, h]
  omega

theorem patch_out {l : List α} {k i : Nat} {xs : List α} (hk : k ≤ l.length)
    (h : i < k ∨ k + xs.length ≤ i) : (patch l k xs)[i]? = l[i]? := by
  have htake : (l.take k).length = k := by
    rw [List.length_take]
    omega
  rw [patch, List.append_assoc]
  rcases h with h | h
  · rw [List.getElem?_append_left (by omega), List.getElem?_take_of_lt h]
  · rw [List.getElem?_append_right (by omega), List.getElem?_append_right (by omega),
      List.getElem?_drop, htake]
    congr 1
    omega

theorem patch_append (c : List α) (k : Nat) (xs ys : List α)
    (h : k + xs.length + ys.length ≤ c.length) :
    patch (patch c k xs) (k + xs.length) ys = patch c k (xs ++ ys) := by
  have hlen : (c.take k ++ xs).length = k + xs.length := by
    rw [List.length_append, List.length_take]
    omega
  have hrest : (c.take k ++ xs ++ c.drop (k + xs.length)).drop (k + xs.length + ys.length) =
      c.drop (k + (xs.length + ys.length)) := by
    rw [← List.drop_drop, List.drop_left' hlen, List.drop_drop, Nat.add_assoc]
  unfold patch
  rw [List.take_left' hlen, hrest, List.length_append]
  simp only [List.append_assoc]

theorem overlay_patch (m : Nat → α) (a n k : Nat) (xs : List α) (h : k + xs.length ≤ n) :
    overlay m a (patch (slice m a n) k xs) = overlay m (a + k) xs := by
  rw [patch, slice_take m a n k (by omega), slice_drop m a n _ h, overlay_append, overlay_append,
    overlay_slice]
  have hl : a + (slice m a k ++ xs).length = a + (k + xs.length) := by simp
  rw [hl, slice_length]
  funext x
  by_cases hx : a + (k + xs.length) ≤ x ∧ x < a + (k + xs.length) + (n - (k + xs.length))
  · rw [overlay_in hx.1 (by simp; omega), slice_getElem, overlay_out (by omega)]
    congr 1
    omega
  · exact overlay_out (by simp; omega)

theorem overlay_patch_list (m : Nat → α) (a : Nat) {c : List α} {k : Nat} {xs : List α}
    (h : k + xs.length ≤ c.length) :
    overlay m a (patch c k xs) = overlay (overlay m a c) (a + k) xs := by
  have hc := slice_overlay m a c
  have hp := overlay_patch (overlay m a c) a c.length k xs h
  rw [hc] at hp
  rw [← hp]
  funext x
  apply overlay_congr
  by_cases hx : a ≤ x ∧ x < a + (patch c k xs).length
  · exact .inl hx
  · rw [patch_length h] at hx
    exact .inr (overlay_out (by omega)).symm

end Storage
