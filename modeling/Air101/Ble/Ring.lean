import Air101.Storage.Ring

/-!
# Ble.Ring

The byte ring of the BLE applications (`bt_ringbuffer_*` of `src/app/bleapp/wm_bt_util.c`). Every operation runs under
the mutex of the ring. Pointers into the buffer are offsets from `base`.

* `contents`: the bytes in the ring, oldest first.
* `insert_contents`, `delete_contents`, `peek_contents`: what each operation does to them.
-/

namespace Air101
namespace Ble

open Storage

structure RingBuffer where
  total : Nat
  available : Nat
  base : Nat → UInt8
  head : Nat
  tail : Nat

/-- `bt_ringbuffer_init`. -/
def ringbufferInit (size : Nat) : RingBuffer :=
  { total := size, available := size, base := fun _ => 0, head := 0, tail := 0 }

/-- `bt_ringbuffer_size`. -/
def RingBuffer.size (rb : RingBuffer) : Nat := rb.total - rb.available

/-- A pass of the loop of `bt_ringbuffer_insert`. -/
def RingBuffer.store (rb : RingBuffer) (b : UInt8) : RingBuffer :=
  { rb with
    base := Function.update rb.base rb.tail b
    tail := if rb.tail + 1 ≥ rb.total then 0 else rb.tail + 1 }

/-- `bt_ringbuffer_insert`. -/
def RingBuffer.insert (rb : RingBuffer) (p : List UInt8) : RingBuffer :=
  let length := if p.length > rb.available then rb.available else p.length
  let rb := (p.take length).foldl RingBuffer.store rb
  { rb with available := rb.available - length }

/-- `bt_ringbuffer_delete`. -/
def RingBuffer.delete (rb : RingBuffer) (length : Nat) : RingBuffer :=
  let length := if length > rb.size then rb.size else length
  let head := rb.head + length
  { rb with
    head := if head ≥ rb.total then head - rb.total else head
    available := rb.available + length }

/-- The loop of `bt_ringbuffer_peek`. -/
def peekLoop (rb : RingBuffer) : Nat → Nat → List UInt8
  | _, 0 => []
  | b, n + 1 => rb.base b :: peekLoop rb (if b + 1 ≥ rb.total then 0 else b + 1) n

/-- `bt_ringbuffer_peek`: the bytes that are copied. -/
def RingBuffer.peek (rb : RingBuffer) (offset length : Nat) : List UInt8 :=
  peekLoop rb ((rb.head + offset) % rb.total) (if offset + length > rb.size then rb.size - offset else length)

/-- The pointers of a ring agree with its count. -/
structure RingBuffer.Wf (rb : RingBuffer) : Prop where
  head_lt : rb.head < rb.total
  available_le : rb.available ≤ rb.total
  tail_eq : rb.tail = (rb.head + rb.size) % rb.total

/-- The bytes in the ring. -/
def RingBuffer.contents (rb : RingBuffer) : List UInt8 := span rb.total rb.base rb.head rb.size

theorem ringbufferInit_wf {size : Nat} (h : 0 < size) : (ringbufferInit size).Wf :=
  ⟨h, Nat.le_refl _, by simp [ringbufferInit, RingBuffer.size]⟩

theorem contents_init (size : Nat) : (ringbufferInit size).contents = [] := by
  simp [RingBuffer.contents, RingBuffer.size, ringbufferInit]

section Ring

variable {rb : RingBuffer}

@[simp] theorem length_contents (rb : RingBuffer) : rb.contents.length = rb.size := length_span

theorem wrap_eq {k total : Nat} (h : k < total) : (if k + 1 ≥ total then 0 else k + 1) = (k + 1) % total := by
  split
  · rw [show k + 1 = total by omega, Nat.mod_self]
  · rw [Nat.mod_eq_of_lt (by omega)]

theorem foldl_store (rb : RingBuffer) (n : Nat) (p : List UInt8) (h0 : 0 < rb.total) (htail : rb.tail = (rb.head + n) % rb.total)
    (h : n + p.length ≤ rb.total) :
    let rb' := p.foldl RingBuffer.store rb
    rb'.total = rb.total ∧ rb'.available = rb.available ∧ rb'.head = rb.head ∧
      rb'.tail = (rb.head + (n + p.length)) % rb.total ∧
      span rb.total rb'.base rb.head (n + p.length) = span rb.total rb.base rb.head n ++ p := by
  induction p generalizing rb n with
  | nil => exact ⟨rfl, rfl, rfl, htail, by simp⟩
  | cons b p ih =>
    rw [List.length_cons] at h
    have hnext : (rb.store b).tail = ((rb.store b).head + (n + 1)) % (rb.store b).total := by
      show (if rb.tail + 1 ≥ rb.total then 0 else rb.tail + 1) = (rb.head + (n + 1)) % rb.total
      rw [wrap_eq (by rw [htail]; exact Nat.mod_lt _ h0), htail, Nat.mod_add_mod, Nat.add_assoc]
    obtain ⟨ht, ha, hh, htl, hs⟩ := ih (rb.store b) (n + 1) h0 hnext (by
      show n + 1 + p.length ≤ rb.total
      omega)
    have hlen : n + (b :: p).length = n + 1 + p.length := by
      rw [List.length_cons]
      omega
    refine ⟨ht, ha, hh, ?_, ?_⟩
    · rw [hlen]
      exact htl
    · rw [hlen]
      refine hs.trans ?_
      show span rb.total (Function.update rb.base rb.tail b) rb.head (n + 1) ++ p = _
      rw [htail, span_push b (by omega), List.append_assoc, List.singleton_append]

theorem insert_contents {p : List UInt8} (h : rb.Wf) (hp : p.length ≤ rb.available) :
    (rb.insert p).contents = rb.contents ++ p ∧ (rb.insert p).Wf ∧ (rb.insert p).total = rb.total := by
  have hle := h.available_le
  have hlt := h.head_lt
  obtain ⟨ht, ha, hh, htl, hs⟩ := foldl_store rb rb.size p (by omega) h.tail_eq (by rw [RingBuffer.size]; omega)
  have hins : rb.insert p =
      { p.foldl RingBuffer.store rb with available := (p.foldl RingBuffer.store rb).available - p.length } := by
    simp only [RingBuffer.insert, if_neg (Nat.not_lt.mpr hp), List.take_length]
  have hsize : (rb.insert p).size = rb.size + p.length := by
    rw [hins, RingBuffer.size, RingBuffer.size]
    show (p.foldl RingBuffer.store rb).total - ((p.foldl RingBuffer.store rb).available - p.length) = _
    rw [ht, ha]
    omega
  refine ⟨?_, ⟨?_, ?_, ?_⟩, ?_⟩
  · rw [RingBuffer.contents, hsize, hins]
    show span (p.foldl RingBuffer.store rb).total _ (p.foldl RingBuffer.store rb).head _ = _
    rw [ht, hh]
    exact hs
  · rw [hins]
    show (p.foldl RingBuffer.store rb).head < (p.foldl RingBuffer.store rb).total
    rw [hh, ht]
    exact hlt
  · rw [hins]
    show (p.foldl RingBuffer.store rb).available - p.length ≤ (p.foldl RingBuffer.store rb).total
    rw [ha, ht]
    omega
  · rw [hsize, hins]
    show (p.foldl RingBuffer.store rb).tail =
      ((p.foldl RingBuffer.store rb).head + _) % (p.foldl RingBuffer.store rb).total
    rw [htl, hh, ht]
  · rw [hins]
    exact ht

theorem delete_contents (length : Nat) (h : rb.Wf) :
    (rb.delete length).contents = rb.contents.drop length ∧ (rb.delete length).Wf ∧
      (rb.delete length).total = rb.total := by
  have hle := h.available_le
  have hlt := h.head_lt
  obtain ⟨n, hn⟩ : ∃ n, (if length > rb.size then rb.size else length) = n := ⟨_, rfl⟩
  have hnle : n ≤ rb.size := by
    split at hn <;> omega
  have hdrop : rb.contents.drop length = rb.contents.drop n := by
    split at hn
    · rw [List.drop_eq_nil_of_le (by rw [length_contents]; omega),
        List.drop_eq_nil_of_le (by rw [length_contents]; omega)]
    · rw [hn]
  have hsize : rb.size = rb.total - rb.available := rfl
  have hhead : (if rb.head + n ≥ rb.total then rb.head + n - rb.total else rb.head + n) = (rb.head + n) % rb.total := by
    split
    · rw [Nat.mod_eq_sub_mod (by omega), Nat.mod_eq_of_lt (by omega)]
    · rw [Nat.mod_eq_of_lt (by omega)]
  have hdel : rb.delete length = { rb with head := (rb.head + n) % rb.total, available := rb.available + n } := by
    simp only [RingBuffer.delete, hn, hhead]
  have hsize' : (rb.delete length).size = rb.size - n := by
    rw [hdel, RingBuffer.size, hsize]
    show rb.total - (rb.available + n) = _
    omega
  refine ⟨?_, ⟨?_, ?_, ?_⟩, ?_⟩
  · rw [hdrop, RingBuffer.contents, RingBuffer.contents, drop_span hnle, hsize', hdel]
  · rw [hdel]
    exact Nat.mod_lt _ (by omega)
  · rw [hdel]
    show rb.available + n ≤ rb.total
    omega
  · rw [hsize', hdel]
    show rb.tail = ((rb.head + n) % rb.total + (rb.size - n)) % rb.total
    rw [Nat.mod_add_mod, Nat.add_assoc, Nat.add_sub_cancel' hnle]
    exact h.tail_eq
  · rw [hdel]

theorem peekLoop_eq (rb : RingBuffer) {b : Nat} (n : Nat) (hb : b < rb.total) :
    peekLoop rb b n = span rb.total rb.base b n := by
  induction n generalizing b with
  | zero => rfl
  | succ n ih =>
    rw [peekLoop, wrap_eq hb, ih (Nat.mod_lt _ (by omega)), span_mod, Nat.add_comm n 1, span_add]
    simp [span, Nat.mod_eq_of_lt hb]

theorem peek_contents (length : Nat) (h : rb.Wf) : rb.peek 0 length = rb.contents.take length := by
  have hlt := h.head_lt
  rw [RingBuffer.peek, Nat.zero_add, Nat.add_zero, Nat.mod_eq_of_lt hlt, Nat.sub_zero, peekLoop_eq _ _ hlt,
    RingBuffer.contents]
  split
  · rw [List.take_of_length_le (by rw [length_span]; omega)]
  · rw [take_span (by omega)]

end Ring

end Ble
end Air101
