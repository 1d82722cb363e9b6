import Air101.Storage.Bytes

/-!
# Storage.Words

Words of 32 bits in a memory of bytes, least significant byte first.

* `ldw m a`, `stw m a v`: the word at address `a`, and the memory with `v` stored there.
* `ldw_stw_self`, `ldw_stw_apart`: a load behind a store.
* `stw_out`: a store changes its four bytes only.
-/

namespace Storage

/-- The word at address `a`. -/
def ldw (m : Nat → Byte) (a : Nat) : Nat := leNat (slice m a 4)

/-- The memory with the word `v` stored at address `a`. -/
def stw (m : Nat → Byte) (a v : Nat) : Nat → Byte := overlay m a (leBytes 4 v)

theorem ldw_lt (m : Nat → Byte) (a : Nat) : ldw m a < 2 ^ 32 := by
  have h := leNat_lt (slice m a 4)
  rw [slice_length] at h
  exact h

theorem ldw_stw_self {m : Nat → Byte} {a v : Nat} (hv : v < 2 ^ 32) : ldw (stw m a v) a = v := by
  have h := slice_overlay m a (leBytes 4 v)
  rw [leBytes_length] at h
  rw [ldw, stw, h]
  exact leNat_leBytes hv

theorem stw_out {m : Nat → Byte} {a v x : Nat} (h : x < a ∨ a + 4 ≤ x) : stw m a v x = m x := by
  apply overlay_out
  rw [leBytes_length]
  exact h

theorem ldw_stw_apart {m : Nat → Byte} {a b v : Nat} (h : b + 4 ≤ a ∨ a + 4 ≤ b) :
    ldw (stw m a v) b = ldw m b := by
  rw [ldw, stw, slice_overlay_out, ldw]
  rw [leBytes_length]
  exact h

theorem ldw_congr {m m' : Nat → Byte} {a : Nat} (h : ∀ x, a ≤ x → x < a + 4 → m x = m' x) :
    ldw m a = ldw m' a := by
  rw [ldw, ldw, slice_congr fun i hi => h (a + i) (by omega) (by omega)]

end Storage
