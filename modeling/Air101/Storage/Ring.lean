import Mathlib.Algebra.Ring.Nat
import Mathlib.Data.Nat.ModEq
import Mathlib.Logic.Function.Basic

/-!
# Storage.Ring

Rings of cells: indices count modulo the size of the ring.

* `span size cells start n`: the `n` cells from `start` on, around the end of the ring.
* `copy cells start n`: the `n` cells from `start` on, as `memcpy` takes them.
* `span_push`: writing the first cell behind a span extends the span by it; `span_push_front` is the
  same in front of it.
* `copy_copy`: a span that passes the end of the ring is two copies.
-/

namespace Storage

variable {α : Type} {size : Nat} {cells : Nat → α} {start m n : Nat}

/-- The `n` cells of a ring from `start` on. -/
def span (size : Nat) (cells : Nat → α) (start n : Nat) : List α :=
  (List.range n).map fun i => cells ((start + i) % size)

/-- The `n` cells from `start` on, with no end of the ring in between. -/
def copy (cells : Nat → α) (start n : Nat) : List α :=
  (List.range n).map fun i => cells (start + i)

@[simp] theorem span_zero : span size cells start 0 = [] := rfl

@[simp] theorem length_span : (span size cells start n).length = n := by
  simp [span]

@[simp] theorem length_copy : (copy cells start n).length = n := by
  simp [copy]

theorem copy_add : copy cells start (m + n) = copy cells start m ++ copy cells (start + m) n := by
  simp [copy, List.range_add, Nat.add_assoc]

theorem span_add : span size cells start (m + n) =
    span size cells start m ++ span size cells (start + m) n := by
  simp [span, List.range_add, Nat.add_assoc]

@[simp] theorem span_mod : span size cells (start % size) n = span size cells start n := by
  simp [span]

theorem take_span (h : m ≤ n) : (span size cells start n).take m = span size cells start m := by
  obtain ⟨k, rfl⟩ := Nat.exists_eq_add_of_le h
  rw [span_add]
  simp

theorem drop_span (h : m ≤ n) :
    (span size cells start n).drop m = span size cells ((start + m) % size) (n - m) := by
  obtain ⟨k, rfl⟩ := Nat.exists_eq_add_of_le h
  rw [span_add]
  simp

/-- A cell behind a span may change. -/
theorem span_update_behind (x : α) {k : Nat} (hn : n ≤ k) (hk : k < size) :
    span size (Function.update cells ((start + k) % size) x) start n = span size cells start n := by
  refine List.map_congr_left fun i hi => Function.update_of_ne (fun he => ?_) _ _
  have hi : i < n := List.mem_range.mp hi
  -- the two offsets differ by less than the size, so they are the same cell only if they are equal
  have hmod : i ≡ k [MOD size] := Nat.ModEq.add_left_cancel' start he
  rw [Nat.ModEq, Nat.mod_eq_of_lt (by omega), Nat.mod_eq_of_lt hk] at hmod
  omega

theorem span_update (x : α) (h : n < size) :
    span size (Function.update cells ((start + n) % size) x) start n = span size cells start n :=
  span_update_behind x (Nat.le_refl n) h

theorem span_push (x : α) (h : n < size) :
    span size (Function.update cells ((start + n) % size) x) start (n + 1) =
      span size cells start n ++ [x] := by
  rw [span_add, span_update x h]
  simp [span]

/-- Writing the cell in front of a span extends the span by it. -/
theorem span_push_front (x : α) (h : n < size) :
    span size (Function.update cells (start % size) x) start (n + 1) =
      x :: span size cells (start + 1) n := by
  have hbehind : (start + 1 + (size - 1)) % size = start % size := by
    rw [show start + 1 + (size - 1) = start + size by omega, Nat.add_mod_right]
  rw [Nat.add_comm, span_add, ← hbehind, span_update_behind x (by omega) (by omega), hbehind]
  simp [span]

theorem span_head (n : Nat) :
    span size cells start (n + 1) = cells (start % size) :: span size cells (start + 1) n := by
  rw [Nat.add_comm, span_add]
  simp [span]

theorem copy_eq_span (h : start + n ≤ size) : copy cells start n = span size cells start n := by
  refine List.map_congr_left fun i hi => ?_
  have hi : i < n := List.mem_range.mp hi
  rw [Nat.mod_eq_of_lt (by omega)]

theorem copy_copy (hs : start ≤ size) (hn : size ≤ start + n) (h : n ≤ size) :
    copy cells start (size - start) ++ copy cells 0 (n - (size - start)) = span size cells start n := by
  have hfirst : copy cells start (size - start) = span size cells start (size - start) :=
    copy_eq_span (by omega)
  have hrest : copy cells 0 (n - (size - start)) = span size cells 0 (n - (size - start)) :=
    copy_eq_span (by omega)
  have hend : span size cells (start + (size - start)) (n - (size - start)) =
      span size cells 0 (n - (size - start)) := by
    rw [Nat.add_sub_cancel' hs, ← span_mod, Nat.mod_self]
  calc copy cells start (size - start) ++ copy cells 0 (n - (size - start))
      = span size cells start (size - start) ++ span size cells (start + (size - start)) (n - (size - start)) := by
        rw [hfirst, hrest, hend]
    _ = span size cells start n := by
        rw [← span_add, Nat.add_sub_cancel' (by omega)]

end Storage
