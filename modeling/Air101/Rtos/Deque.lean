import Air101.Rtos.Calls

/-!
# Rtos.Deque

What a queue is for: a list of items of at most `length`, which grows at both ends and is read at the
front.

* `Deque length items e items'`: the effect `e` of a call on the list.
* `perform_deque`, `failure_deque`: a call has that effect on the items that the queue holds.
-/

namespace Air101
namespace Rtos

open Storage

/-- The effects on the items. A call fails only if the list is full or empty, except for that of a
sender whose time is over: it does not look again. -/
inductive Deque (length : Nat) : List (List Byte) → Effect → List (List Byte) → Prop where
  | silent (items : List (List Byte)) : Deque length items .silent items
  | gaveUp (items : List (List Byte)) : Deque length items .gaveUp items
  | sent {items : List (List Byte)} (item : List Byte) {position : Position} :
    position = .overwrite ∧ length = 1 ∨ items.length < length →
      Deque length items (.sent item position) (Queue.put items item position)
  | received (item : List Byte) (items : List (List Byte)) :
    Deque length (item :: items) (.received item) items
  | peeked (item : List Byte) (items : List (List Byte)) :
    Deque length (item :: items) (.peeked item) (item :: items)
  | full {items : List (List Byte)} : items.length = length → Deque length items .full items
  | empty : Deque length [] .empty []

variable {q : Queue} {items : List (List Byte)} {r : Request}

/-- A call that finds what it wants. -/
theorem perform_deque (h : q.Holds items) (hr : r.Ready q) (hv : r.Valid q) :
    ∃ items', Deque q.length items (r.perform q).1 items' ∧ (r.perform q).2.1.Holds items' := by
  cases r with
  | send item position =>
    have hcount := h.count
    have hroom : q.messagesWaiting < q.length ∨ position = .overwrite := hr
    refine ⟨Queue.put items item position, .sent item ?_, Queue.copyDataToQueue_holds h hv.1 ?_⟩
    · rcases hroom with hlt | hover
      · exact .inr (hcount ▸ hlt)
      · exact .inl ⟨hover, (hv.2 hover).1⟩
    · cases position with
      | back => exact (hroom.resolve_right (by decide)).trans_eq' hcount
      | front => exact (hroom.resolve_right (by decide)).trans_eq' hcount
      | overwrite => exact hv.2 rfl
  | receive =>
    have hpos : q.messagesWaiting > 0 := hr
    rw [h.count] at hpos
    obtain ⟨x, rest, rfl⟩ := List.exists_cons_of_length_pos hpos
    obtain ⟨hx, hrest⟩ := Queue.copyDataFromQueue_holds h
    refine ⟨rest, ?_, hrest⟩
    simp only [Request.perform, hx]
    exact .received x rest
  | peek =>
    have hpos : q.messagesWaiting > 0 := hr
    rw [h.count] at hpos
    obtain ⟨x, rest, rfl⟩ := List.exists_cons_of_length_pos hpos
    obtain ⟨hx, -⟩ := Queue.copyDataFromQueue_holds h
    refine ⟨x :: rest, ?_, h⟩
    simp only [Request.perform, hx]
    exact .peeked x rest

theorem perform_holds (h : q.Holds items) (hr : r.Ready q) (hv : r.Valid q) :
    ∃ items', (r.perform q).2.1.Holds items' :=
  (perform_deque h hr hv).imp fun _ hd => hd.2

/-- A call that does not. -/
theorem failure_deque (h : q.Holds items) (hr : ¬ r.Ready q) :
    Deque q.length items r.failure items := by
  have hcount := h.count
  have hbound := h.bound
  cases r with
  | send item position =>
    have hfull : ¬ (q.messagesWaiting < q.length ∨ position = .overwrite) := hr
    exact .full (by omega)
  | receive =>
    have hzero : q.messagesWaiting = 0 := Nat.eq_zero_of_not_pos hr
    rw [List.eq_nil_of_length_eq_zero (hcount.symm.trans hzero)]
    exact .empty
  | peek =>
    have hzero : q.messagesWaiting = 0 := Nat.eq_zero_of_not_pos hr
    rw [List.eq_nil_of_length_eq_zero (hcount.symm.trans hzero)]
    exact .empty

end Rtos
end Air101
