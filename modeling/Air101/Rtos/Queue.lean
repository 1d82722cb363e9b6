import Air101.Storage.Mem
import Air101.Storage.Nor
import Air101.Storage.Ring

/-!
# Rtos.Queue

The storage area of a queue (`src/os/rtos/source/queue.c`): `prvCopyDataToQueue` and
`prvCopyDataFromQueue` with the pointers they move.

Pointers count from `pcHead`; `pcTail` is the end of the area. A queue of items of size zero is a
semaphore, of which only the count is kept; the mutexes are left out.

* `Holds q items`: the items that a queue holds, the oldest first.
* `copyDataToQueue_holds`, `copyDataFromQueue_holds`: the two functions on them.
-/

namespace Air101
namespace Rtos

open Storage

/-- `xCopyPosition` -/
inductive Position where
  | back
  | front
  | overwrite
  deriving DecidableEq

structure Queue where
  /-- `uxLength` and `uxItemSize` -/
  length : Nat
  itemSize : Nat
  /-- the bytes behind `pcHead` -/
  area : Nat → Byte
  writeTo : Nat
  readFrom : Int
  messagesWaiting : Nat

namespace Queue

/-- `pcTail - pcHead` -/
def tail (q : Queue) : Nat := q.length * q.itemSize

/-- `prvInitialiseNewQueue` with `xQueueGenericReset`. -/
def new (length itemSize : Nat) (area : Nat → Byte) : Queue where
  length
  itemSize
  area
  writeTo := 0
  readFrom := (length - 1) * itemSize
  messagesWaiting := 0

def copyDataToQueue (q : Queue) (item : List Byte) (position : Position) : Queue :=
  if q.itemSize = 0 then { q with messagesWaiting := q.messagesWaiting + 1 }
  else if position = .back then
    let writeTo := q.writeTo + q.itemSize
    { q with
      area := overlay q.area q.writeTo item
      writeTo := if writeTo ≥ q.tail then 0 else writeTo
      messagesWaiting := q.messagesWaiting + 1 }
  else
    let readFrom := q.readFrom - q.itemSize
    let waiting :=
      if position = .overwrite ∧ q.messagesWaiting > 0 then q.messagesWaiting - 1
      else q.messagesWaiting
    { q with
      area := overlay q.area q.readFrom.toNat item
      readFrom := if readFrom < 0 then q.tail - q.itemSize else readFrom
      messagesWaiting := waiting + 1 }

/-- The item at the read pointer, which moves on; the caller counts. -/
def copyDataFromQueue (q : Queue) : List Byte × Queue :=
  if q.itemSize = 0 then ([], q)
  else
    let readFrom := q.readFrom + q.itemSize
    let readFrom := if readFrom ≥ q.tail then 0 else readFrom
    (slice q.area readFrom.toNat q.itemSize, { q with readFrom })

/-- The bytes of a place in the area. -/
def place (q : Queue) (i : Nat) : List Byte := slice q.area (i * q.itemSize) q.itemSize

/-- The items of a queue, the oldest first. -/
structure Holds (q : Queue) (items : List (List Byte)) : Prop where
  count : q.messagesWaiting = items.length
  bound : items.length ≤ q.length
  size : ∀ x ∈ items, x.length = q.itemSize
  ring : 0 < q.itemSize → ∃ r < q.length, q.readFrom = (r * q.itemSize : Nat) ∧
    q.writeTo = (r + 1 + items.length) % q.length * q.itemSize ∧
    span q.length q.place (r + 1) items.length = items

variable {q : Queue} {items : List (List Byte)}

theorem new_holds {length : Nat} (h : 0 < length) (itemSize : Nat) (area : Nat → Byte) :
    (new length itemSize area).Holds [] where
  count := rfl
  bound := Nat.zero_le _
  size := fun _ hx => absurd hx List.not_mem_nil
  ring := by
    intro _
    refine ⟨length - 1, by simp [new]; omega, ?_, ?_, rfl⟩
    · simp only [new]
      push_cast [Nat.one_le_iff_ne_zero.mpr (by omega : length ≠ 0)]
      rfl
    · have hlast : length - 1 + 1 = length := by omega
      simp [new, hlast]

/-- Writing one place leaves the others. -/
theorem place_overlay {i j : Nat} {item : List Byte} (hi : item.length = q.itemSize) :
    slice (overlay q.area (j * q.itemSize) item) (i * q.itemSize) q.itemSize =
      Function.update q.place j item i := by
  by_cases h : i = j
  · subst h
    rw [Function.update_self, ← hi, slice_overlay]
  · rw [Function.update_of_ne h, place]
    apply slice_overlay_out
    rw [hi]
    have hstep : ∀ {a b : Nat}, a < b → a * q.itemSize + q.itemSize ≤ b * q.itemSize := by
      intro a b hab
      rw [← Nat.succ_mul]
      exact Nat.mul_le_mul_right _ hab
    rcases Nat.lt_or_gt_of_ne h with hlt | hgt
    · exact .inl (hstep hlt)
    · exact .inr (hstep hgt)

/-- The items behind a call of `prvCopyDataToQueue`. -/
def put (items : List (List Byte)) (item : List Byte) : Position → List (List Byte)
  | .back => items ++ [item]
  | .front => item :: items
  | .overwrite => item :: items.drop 1

/-- There is room for an item: an overwrite takes the place of the only one. -/
def Room (q : Queue) (items : List (List Byte)) : Position → Prop
  | .overwrite => q.length = 1 ∧ 0 < q.itemSize
  | _ => items.length < q.length

/-- A pointer moves on by a place, around the end of the area. -/
theorem next_place {q : Queue} {i : Nat} (hi : i < q.length) :
    (if i * q.itemSize + q.itemSize ≥ q.tail then 0 else i * q.itemSize + q.itemSize) =
      (i + 1) % q.length * q.itemSize := by
  have hnext : i * q.itemSize + q.itemSize = (i + 1) * q.itemSize := (Nat.succ_mul i q.itemSize).symm
  rw [hnext, tail]
  rcases Nat.lt_or_eq_of_le (Nat.succ_le_of_lt hi) with hlt | heq
  · rw [Nat.mod_eq_of_lt hlt]
    split
    case isTrue hge =>
      have hle := Nat.mul_le_mul_right q.itemSize (Nat.le_of_lt hlt)
      rcases Nat.eq_zero_or_pos q.itemSize with hz | hpos
      · rw [hz, Nat.mul_zero]
      · exact absurd (Nat.mul_lt_mul_of_pos_right hlt hpos) (Nat.not_lt.mpr hge)
    case isFalse => rfl
  · have heq' : i + 1 = q.length := heq
    rw [heq', if_pos (le_refl _), Nat.mod_self, Nat.zero_mul]

/-- The read pointer moves back by a place. -/
theorem previous_place {q : Queue} {i : Nat} (hi : i < q.length) (hs : 0 < q.itemSize) :
    (if ((i * q.itemSize : Nat) : Int) - q.itemSize < 0 then (q.tail : Int) - q.itemSize
      else ((i * q.itemSize : Nat) : Int) - q.itemSize) =
        ((i + (q.length - 1)) % q.length * q.itemSize : Nat) := by
  obtain ⟨n, hn⟩ : ∃ n, q.length = n + 1 := ⟨q.length - 1, by omega⟩
  cases i with
  | zero =>
    rw [Nat.zero_mul, if_pos (by omega), tail, hn, Nat.add_sub_cancel, Nat.zero_add,
      Nat.mod_eq_of_lt (Nat.lt_succ_self n), Nat.succ_mul]
    omega
  | succ k =>
    have hprev : (k + 1 + (q.length - 1)) % q.length = k := by
      rw [hn, Nat.add_sub_cancel, show k + 1 + n = k + (n + 1) by omega, Nat.add_mod_right]
      exact Nat.mod_eq_of_lt (by omega)
    rw [hprev, Nat.succ_mul, if_neg (by omega)]
    omega

/-- A place back and one on again. -/
theorem back_mod {r n : Nat} (hr : r < n) : ((r + (n - 1)) % n + 1) % n = r := by
  rw [Nat.mod_add_mod, show r + (n - 1) + 1 = r + n by omega, Nat.add_mod_right, Nat.mod_eq_of_lt hr]

/-- An item in the place of the read pointer is the first one behind the pointer moved back. -/
theorem front_span {r : Nat} (hr : r < q.length) {item : List Byte} (hitem : item.length = q.itemSize)
    (hn : items.length < q.length) (hspan : span q.length q.place (r + 1) items.length = items) :
    span q.length (place { q with area := overlay q.area (r * q.itemSize) item })
      ((r + (q.length - 1)) % q.length + 1) (items.length + 1) = item :: items := by
  have hplace : place { q with area := overlay q.area (r * q.itemSize) item } =
      Function.update q.place (r % q.length) item := by
    funext i
    rw [Nat.mod_eq_of_lt hr]
    exact place_overlay hitem
  rw [hplace, ← span_mod, back_mod hr, span_push_front item hn, hspan]

theorem copyDataToQueue_holds (h : q.Holds items) {item : List Byte} (hitem : item.length = q.itemSize)
    {position : Position} (hroom : q.Room items position) :
    (q.copyDataToQueue item position).Holds (put items item position) := by
  have hcount := h.count
  have hsize := h.size
  rcases Nat.eq_zero_or_pos q.itemSize with hz | hpos
  case inl =>
    have hno : position ≠ .overwrite := by
      rintro rfl
      exact absurd hroom.2 (by omega)
    rw [copyDataToQueue, if_pos hz]
    cases position with
    | back =>
      refine ⟨by simp [put, hcount], by simpa [put] using Nat.succ_le_of_lt hroom, ?_, fun hp => ?_⟩
      · simpa [put, or_imp, forall_and, hitem] using hsize
      · exact absurd hp (by simp only; omega)
    | front =>
      refine ⟨by simp [put, hcount], by simpa [put] using Nat.succ_le_of_lt hroom, ?_, fun hp => ?_⟩
      · simpa [put, hitem] using hsize
      · exact absurd hp (by simp only; omega)
    | overwrite => exact absurd rfl hno
  case inr =>
    obtain ⟨r, hr, hread, hwrite, hspan⟩ := h.ring hpos
    have hlen : 0 < q.length := by omega
    rw [copyDataToQueue, if_neg (by omega)]
    cases position with
    | back =>
      have hw : (r + 1 + items.length) % q.length < q.length := Nat.mod_lt _ hlen
      rw [if_pos rfl]
      refine ⟨by simp [put, hcount], by simpa [put] using Nat.succ_le_of_lt hroom, ?_, fun _ => ?_⟩
      · simpa [put, or_imp, forall_and, hitem] using hsize
      · refine ⟨r, hr, hread, ?_, ?_⟩
        · simp only [hwrite, put, List.length_append, List.length_singleton]
          rw [next_place hw, Nat.mod_add_mod]
          rfl
        · simp only [put, List.length_append, List.length_singleton]
          have hplace : place { q with area := overlay q.area q.writeTo item } =
              Function.update q.place ((r + 1 + items.length) % q.length) item := by
            funext i
            rw [hwrite]
            exact place_overlay hitem
          have hpush := @span_push _ _ q.place (r + 1) _ item hroom
          rw [hspan] at hpush
          rw [← hpush, ← hplace]
          rfl
    | front =>
      rw [if_neg (by decide)]
      refine ⟨by simp [put, hcount], by simpa [put] using Nat.succ_le_of_lt hroom, ?_, fun _ => ?_⟩
      · simpa [put, hitem] using hsize
      · refine ⟨(r + (q.length - 1)) % q.length, Nat.mod_lt _ hlen, ?_, ?_, ?_⟩
        · simp only [hread]
          exact previous_place hr hpos
        · simp only [hwrite, put, List.length_cons]
          rw [show (r + (q.length - 1)) % q.length + 1 + (items.length + 1) =
              ((r + (q.length - 1)) % q.length + 1) + (items.length + 1) by omega,
            ← Nat.mod_add_mod ((r + (q.length - 1)) % q.length + 1), back_mod hr]
          congr 2
          omega
        · simp only [hread, Int.toNat_natCast]
          exact front_span hr hitem hroom hspan
    | overwrite =>
      obtain ⟨hone, -⟩ := hroom
      have hr0 : r = 0 := by omega
      subst hr0
      have hle : items.length ≤ 1 := hone ▸ h.bound
      have hdrop : items.drop 1 = [] := List.drop_eq_nil_of_le hle
      rw [if_neg (by decide)]
      refine ⟨?_, by simp [put, hdrop, hone], by simp [put, hdrop, hitem], fun _ => ?_⟩
      · simp only [put, hdrop, hcount, List.length_singleton, true_and]
        split
        · omega
        · omega
      · refine ⟨0, hr, ?_, ?_, ?_⟩
        · have hprev := previous_place hr hpos
          rw [hone, Nat.mod_one, Nat.zero_mul] at hprev
          simp only [hread, Nat.zero_mul]
          exact hprev
        · simp only [hwrite, hone, Nat.mod_one]
        · have hfront := @front_span q [] _ hr _ hitem hlen rfl
          simp only [hone, Nat.mod_one] at hfront
          simp only [hread, put, hdrop, hone, Int.toNat_natCast]
          exact hfront

/-- The oldest item is read, and without it the queue holds the others. -/
theorem copyDataFromQueue_holds {x : List Byte} (h : q.Holds (x :: items)) :
    q.copyDataFromQueue.1 = x ∧
      Holds { q.copyDataFromQueue.2 with messagesWaiting := q.messagesWaiting - 1 } items := by
  have hcount := h.count
  have hbound := h.bound
  have hsize := h.size
  rw [List.length_cons] at hcount hbound
  rw [List.forall_mem_cons] at hsize
  rcases Nat.eq_zero_or_pos q.itemSize with hz | hpos
  case inl =>
    have hx : x = [] := List.eq_nil_of_length_eq_zero (hsize.1.trans hz)
    rw [copyDataFromQueue, if_pos hz]
    exact ⟨hx.symm, by simp [hcount], by simp only; omega, hsize.2, fun hp => absurd hp (by simp only; omega)⟩
  case inr =>
    obtain ⟨r, hr, hread, hwrite, hspan⟩ := h.ring hpos
    have hlen : 0 < q.length := by omega
    have hnext : (if q.readFrom + q.itemSize ≥ q.tail then (0 : Int) else q.readFrom + q.itemSize) =
        ((r + 1) % q.length * q.itemSize : Nat) := by
      rw [← next_place hr, hread]
      by_cases htail : r * q.itemSize + q.itemSize ≥ q.tail
      · rw [if_pos htail, if_pos (by exact_mod_cast htail)]
        rfl
      · rw [if_neg htail, if_neg (by exact_mod_cast htail)]
        exact (Int.natCast_add _ _).symm
    rw [List.length_cons, span_head, List.cons.injEq] at hspan
    rw [copyDataFromQueue, if_neg (by omega)]
    simp only [hnext, Int.toNat_natCast]
    refine ⟨hspan.1, by simp [hcount], by simp only; omega, hsize.2, fun _ => ?_⟩
    refine ⟨(r + 1) % q.length, Nat.mod_lt _ hlen, rfl, ?_, ?_⟩
    · simp only [hwrite, List.length_cons]
      rw [Nat.add_assoc ((r + 1) % q.length), Nat.mod_add_mod]
      congr 2
      omega
    · simp only
      rw [← span_mod, Nat.mod_add_mod, span_mod]
      exact hspan.2

end Queue

end Rtos
end Air101
