import Air101.Ble.Ring
import Air101.Storage.Queue

/-!
# Ble.Queue

The ring of `Ble.Ring` behind its calls with their results (`src/app/bleapp/wm_bt_util.c`): a call returns a count and
writes bytes to the caller's buffer, and `bt_ringbuffer_peek` asserts that its offset is in the ring.

* `Stands`: a ring stands for the bounded queue with its contents.
* `insert_stands`, `delete_stands`, `peek_stands`, `pop_stands`: each call gives the answer of the queue.
* `ringbuffer_refines`: over every sequence of calls.
-/

namespace Air101
namespace Ble

open Storage

/-- `bt_ringbuffer_insert`: what it returns, and the ring. -/
def ringbufferInsert (rb : RingBuffer) (p : List UInt8) : Nat × RingBuffer :=
  (if p.length > rb.available then rb.available else p.length, rb.insert p)

/-- `bt_ringbuffer_delete`. -/
def ringbufferDelete (rb : RingBuffer) (length : Nat) : Nat × RingBuffer :=
  (if length > rb.size then rb.size else length, rb.delete length)

/-- `bytes_to_copy` of `bt_ringbuffer_peek`; the sum is one of `uint32_t`. -/
def RingBuffer.bytesToCopy (rb : RingBuffer) (offset length : Nat) : Nat :=
  if (offset + length) % 2 ^ 32 > rb.size then rb.size - offset else length

/-- `bt_ringbuffer_peek`: what it returns, and the bytes put to `p`; `none` if the assertion fails. -/
def ringbufferPeek (rb : RingBuffer) (offset length : Nat) : Option (Nat × List UInt8) :=
  if offset ≤ rb.size then
    let bytesToCopy := rb.bytesToCopy offset length
    some (bytesToCopy, peekLoop rb ((rb.head + offset) % rb.total) bytesToCopy)
  else none

/-- `bt_ringbuffer_pop`. -/
def ringbufferPop (rb : RingBuffer) (length : Nat) : Option ((Nat × List UInt8) × RingBuffer) :=
  (ringbufferPeek rb 0 length).map fun r =>
    let head := rb.head + r.1
    (r, { rb with
      head := if head ≥ rb.total then head - rb.total else head
      available := rb.available + r.1 })

inductive Call where
  | insert (p : List UInt8)
  | delete (length : Nat)
  | peek (offset length : Nat)
  | pop (length : Nat)

/-- The lengths and the offset of a call are below 2^31. -/
def Call.Short : Call → Prop
  | .insert p => p.length < 2 ^ 31
  | .delete length | .pop length => length < 2 ^ 31
  | .peek offset length => offset < 2 ^ 31 ∧ length < 2 ^ 31

instance (c : Call) : Decidable c.Short := by
  cases c <;> unfold Call.Short <;> infer_instance

/-- A call on a ring: what it returns and the bytes it gives out, and the ring. -/
def ringStep (rb : RingBuffer) : Call → Option ((Nat × List UInt8) × RingBuffer)
  | .insert p => some (((ringbufferInsert rb p).1, []), (ringbufferInsert rb p).2)
  | .delete length => some (((ringbufferDelete rb length).1, []), (ringbufferDelete rb length).2)
  | .peek offset length => (ringbufferPeek rb offset length).map fun r => (r, rb)
  | .pop length => ringbufferPop rb length

/-- The same call on a queue. -/
def queueStep {n : Nat} (q : BoundedQueue UInt8 n) :
    Call → Option ((Nat × List UInt8) × BoundedQueue UInt8 n)
  | .insert p => some ((min p.length (n - q.items.length), []), q.insert p)
  | .delete length => some ((min length q.items.length, []), q.drop length)
  | .peek offset length =>
    if offset ≤ q.items.length then
      some (((q.peek offset length).length, q.peek offset length), q)
    else none
  | .pop length => some (((q.peek 0 length).length, q.peek 0 length), q.drop length)

/-- A ring of `n` cells stands for a queue. -/
structure Stands {n : Nat} (rb : RingBuffer) (q : BoundedQueue UInt8 n) : Prop where
  wf : rb.Wf
  total : rb.total = n
  contents : rb.contents = q.items

section Calls

variable {n : Nat} {rb : RingBuffer} {q : BoundedQueue UInt8 n}

theorem Stands.size (h : Stands rb q) : rb.size = q.items.length := by
  rw [← h.contents, length_contents]

theorem Stands.available (h : Stands rb q) : rb.available = n - q.items.length := by
  have hle := h.wf.available_le
  have hsize : rb.total - rb.available = q.items.length := h.size
  have htotal := h.total
  omega

theorem insert_take (rb : RingBuffer) (p : List UInt8) : rb.insert p = rb.insert (p.take rb.available) := by
  have hlen : (p.take rb.available).length = min rb.available p.length := List.length_take
  simp only [RingBuffer.insert, hlen]
  by_cases h : p.length > rb.available
  · rw [if_pos h, if_neg (by omega), List.take_take, Nat.min_eq_left (Nat.le_of_lt h), Nat.min_self]
  · rw [if_neg h, if_neg (by omega), List.take_take, Nat.min_eq_right (Nat.not_lt.mp h),
      Nat.min_eq_left (Nat.not_lt.mp h)]

theorem insert_stands (p : List UInt8) (h : Stands rb q) :
    (ringbufferInsert rb p).1 = min p.length (n - q.items.length) ∧ Stands (ringbufferInsert rb p).2 (q.insert p) := by
  have hav := h.available
  have hfits : (p.take rb.available).length ≤ rb.available := by
    rw [List.length_take]
    omega
  obtain ⟨hcont, hwf, htotal⟩ := insert_contents h.wf hfits
  rw [← insert_take] at hcont hwf htotal
  refine ⟨?_, hwf, htotal.trans h.total, ?_⟩
  · rw [ringbufferInsert, hav]
    split <;> omega
  · show (rb.insert p).contents = q.items ++ p.take (min p.length (n - q.items.length))
    rw [hcont, h.contents, hav, Nat.min_comm, ← List.take_take, List.take_length]

theorem delete_stands (length : Nat) (h : Stands rb q) :
    (ringbufferDelete rb length).1 = min length q.items.length ∧
      Stands (ringbufferDelete rb length).2 (q.drop length) := by
  obtain ⟨hcont, hwf, htotal⟩ := delete_contents length h.wf
  refine ⟨?_, hwf, htotal.trans h.total, ?_⟩
  · rw [ringbufferDelete, h.size]
    split <;> omega
  · show (rb.delete length).contents = q.items.drop length
    rw [hcont, h.contents]

theorem bytesToCopy_eq {offset length : Nat} (h : Stands rb q) (hoff : offset ≤ q.items.length)
    (hshort : offset + length < 2 ^ 32) : rb.bytesToCopy offset length = (q.peek offset length).length := by
  rw [RingBuffer.bytesToCopy, Nat.mod_eq_of_lt hshort, h.size, BoundedQueue.peek, List.length_take, List.length_drop]
  split <;> omega

theorem peek_stands {offset length : Nat} (h : Stands rb q) (hshort : offset + length < 2 ^ 32) :
    ringbufferPeek rb offset length =
      if offset ≤ q.items.length then some ((q.peek offset length).length, q.peek offset length) else none := by
  rw [ringbufferPeek, h.size]
  split
  · rename_i hoff
    have hlt := h.wf.head_lt
    have hcopy := bytesToCopy_eq h hoff hshort
    have hle : (q.peek offset length).length ≤ q.items.length - offset := by
      rw [BoundedQueue.peek, List.length_take, List.length_drop]
      omega
    have hbytes : peekLoop rb ((rb.head + offset) % rb.total) (q.peek offset length).length = q.peek offset length := by
      have hdrop : rb.contents.drop offset = _ := drop_span (by rw [h.size]; exact hoff)
      rw [peekLoop_eq rb _ (Nat.mod_lt _ (by omega)), ← take_span (n := rb.size - offset) (by rw [h.size]; exact hle),
        ← hdrop, h.contents]
      show (q.items.drop offset).take ((q.items.drop offset).take length).length = (q.items.drop offset).take length
      rw [List.length_take, ← List.take_take, List.take_length]
    simp only [hcopy, hbytes]
  · rfl

theorem pop_stands {length : Nat} (h : Stands rb q) (hshort : length < 2 ^ 32) :
    ∃ rb', ringbufferPop rb length = some (((q.peek 0 length).length, q.peek 0 length), rb') ∧
      Stands rb' (q.drop length) := by
  obtain ⟨k, hk⟩ : ∃ k, (q.peek 0 length).length = k := ⟨_, rfl⟩
  have hkmin : k = min length q.items.length := by
    rw [← hk, BoundedQueue.peek, List.drop_zero, List.length_take]
  have hkle : k ≤ rb.size := by
    rw [h.size]
    omega
  have hpop : ringbufferPop rb length = some (((q.peek 0 length).length, q.peek 0 length), rb.delete k) := by
    rw [ringbufferPop, peek_stands h (by omega), if_pos (Nat.zero_le _), Option.map_some, hk]
    simp only [RingBuffer.delete, if_neg (Nat.not_lt.mpr hkle)]
  obtain ⟨hcont, hwf, htotal⟩ := delete_contents k h.wf
  refine ⟨rb.delete k, hpop, hwf, htotal.trans h.total, ?_⟩
  show (rb.delete k).contents = q.items.drop length
  rw [hcont, h.contents, hkmin]
  by_cases hlen : length ≤ q.items.length
  · rw [Nat.min_eq_left hlen]
  · rw [Nat.min_eq_right (by omega), List.drop_length, List.drop_eq_nil_of_le (by omega)]

theorem step_stands (c : Call) (hc : c.Short) (h : Stands rb q) :
    Option.Rel (fun x y => x.1 = y.1 ∧ Stands x.2 y.2) (ringStep rb c) (queueStep q c) := by
  cases c with
  | insert p =>
    obtain ⟨hret, hq⟩ := insert_stands p h
    exact .some ⟨by rw [hret], hq⟩
  | delete length =>
    obtain ⟨hret, hq⟩ := delete_stands length h
    exact .some ⟨by rw [hret], hq⟩
  | peek offset length =>
    have hsum : offset + length < 2 ^ 32 := by
      have := hc.1
      have := hc.2
      omega
    simp only [ringStep, queueStep, peek_stands h hsum]
    split
    · exact .some ⟨rfl, h⟩
    · exact .none
  | pop length =>
    have hlen : length < 2 ^ 31 := hc
    obtain ⟨rb', hpop, hq⟩ := pop_stands h (show length < 2 ^ 32 by omega)
    simp only [ringStep, queueStep, hpop]
    exact .some ⟨rfl, hq⟩

theorem Stands.bounds (h : Stands rb q) :
    rb.contents = q.items ∧ rb.size + rb.available = n ∧ rb.head < n ∧ rb.tail < n := by
  have hle := h.wf.available_le
  have htotal := h.total
  have hlt := h.wf.head_lt
  have hsize : rb.size = rb.total - rb.available := rfl
  refine ⟨h.contents, by omega, by omega, ?_⟩
  rw [h.wf.tail_eq, ← htotal]
  exact Nat.mod_lt _ (by omega)

end Calls

/-- From the ring that `bt_ringbuffer_init` makes, every sequence of calls answers as the bounded queue does, the
same assertion fails, if any, and the ring behind it holds the queue, with its counters and pointers in bounds. -/
theorem ringbuffer_refines {n : Nat} (hn : 1 ≤ n) (calls : List Call) (hshort : ∀ c ∈ calls, c.Short) :
    Option.Rel
      (fun ring queue => ring.1 = queue.1 ∧ ring.2.contents = queue.2.items ∧ ring.2.size + ring.2.available = n ∧
        ring.2.head < n ∧ ring.2.tail < n)
      (respond ringStep (ringbufferInit n) calls) (respond queueStep (BoundedQueue.empty UInt8 n) calls) := by
  have hinit : Stands (ringbufferInit n) (BoundedQueue.empty UInt8 n) := ⟨ringbufferInit_wf hn, rfl, contents_init n⟩
  have hrun := respond_sim (R := Stands) (fun rb q c hc h => step_stands c hc h) hshort hinit
  cases hs : respond ringStep (ringbufferInit n) calls with
  | none =>
    rw [hs] at hrun
    cases hq : respond queueStep (BoundedQueue.empty UInt8 n) calls with
    | none => exact .none
    | some y =>
      rw [hq] at hrun
      cases hrun
  | some x =>
    rw [hs] at hrun
    cases hq : respond queueStep (BoundedQueue.empty UInt8 n) calls with
    | none =>
      rw [hq] at hrun
      cases hrun
    | some y =>
      rw [hq] at hrun
      cases hrun with
      | some h => exact .some ⟨h.1, h.2.bounds⟩

/-- Two bytes in a ring of two cells, one taken, one more put in: the ring has gone round its end. -/
theorem ringbuffer_refines_wrap :
    (∀ c ∈ [Call.insert [1, 2, 3], .pop 1, .insert [4], .peek 1 5], c.Short) ∧
    (respond queueStep (BoundedQueue.empty UInt8 2) [.insert [1, 2, 3], .pop 1, .insert [4], .peek 1 5]).map (·.1) =
      some [(2, []), (1, [1]), (1, []), (1, [4])] ∧
    Option.Rel
      (fun ring queue => ring.1 = queue.1 ∧ ring.2.contents = queue.2.items ∧ ring.2.size + ring.2.available = 2 ∧
        ring.2.head < 2 ∧ ring.2.tail < 2)
      (respond ringStep (ringbufferInit 2) [.insert [1, 2, 3], .pop 1, .insert [4], .peek 1 5])
      (respond queueStep (BoundedQueue.empty UInt8 2) [.insert [1, 2, 3], .pop 1, .insert [4], .peek 1 5]) :=
  ⟨by decide, by decide, ringbuffer_refines (by decide) _ (by decide)⟩

end Ble
end Air101
