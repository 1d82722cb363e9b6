import Mathlib.Data.List.Basic

/-!
# Storage.Queue

Queues of bounded length, and machines that answer every call.

* `BoundedQueue`: a list with room for `n` items.
* `respond step s as`: the answers to the calls `as` and the state behind them, if no call fails.
* `respond_sim`: two machines whose steps match up to a relation give the same answers over every run.
-/

namespace Storage

variable {α β σ τ : Type}

/-- A queue with room for `n` items, the oldest first. -/
structure BoundedQueue (α : Type) (n : Nat) where
  items : List α
  bound : items.length ≤ n

namespace BoundedQueue

variable {n : Nat}

def empty (α : Type) (n : Nat) : BoundedQueue α n := ⟨[], Nat.zero_le n⟩

/-- How many of `k` items there is room for. -/
def room (q : BoundedQueue α n) (k : Nat) : Nat := min k (n - q.items.length)

/-- Append as many items as there is room for. -/
def insert (q : BoundedQueue α n) (xs : List α) : BoundedQueue α n where
  items := q.items ++ xs.take (q.room xs.length)
  bound := by
    have hb := q.bound
    rw [List.length_append, List.length_take, room]
    omega

/-- Take the oldest `k` items away. -/
def drop (q : BoundedQueue α n) (k : Nat) : BoundedQueue α n where
  items := q.items.drop k
  bound := by
    have hb := q.bound
    rw [List.length_drop]
    omega

/-- Up to `k` items from `offset` on. -/
def peek (q : BoundedQueue α n) (offset k : Nat) : List α := (q.items.drop offset).take k

theorem ext {q r : BoundedQueue α n} (h : q.items = r.items) : q = r := by
  cases q
  cases r
  cases h
  rfl

end BoundedQueue

/-! ## Machines with answers -/

/-- The answers to a list of calls and the state behind it; `none` if a call fails. -/
def respond (step : σ → α → Option (β × σ)) : σ → List α → Option (List β × σ)
  | s, [] => some ([], s)
  | s, a :: as => (step s a).bind fun x => (respond step x.2 as).bind fun r => some (x.1 :: r.1, r.2)

theorem rel_bind {α' β' : Type} {R : α → α' → Prop} {S : β → β' → Prop} {o : Option α} {o' : Option α'}
    {f : α → Option β} {f' : α' → Option β'} (h : Option.Rel R o o')
    (hf : ∀ x y, R x y → Option.Rel S (f x) (f' y)) : Option.Rel S (o.bind f) (o'.bind f') := by
  cases h with
  | none => exact .none
  | some h => exact hf _ _ h

/-- A simulation of the steps by equal answers is one of the runs. -/
theorem respond_sim {step : σ → α → Option (β × σ)} {step' : τ → α → Option (β × τ)} {P : α → Prop}
    {R : σ → τ → Prop}
    (hstep : ∀ s t a, P a → R s t → Option.Rel (fun x y => x.1 = y.1 ∧ R x.2 y.2) (step s a) (step' t a))
    {as : List α} (hP : ∀ a ∈ as, P a) {s : σ} {t : τ} (h : R s t) :
    Option.Rel (fun x y => x.1 = y.1 ∧ R x.2 y.2) (respond step s as) (respond step' t as) := by
  induction as generalizing s t with
  | nil => exact .some ⟨rfl, h⟩
  | cons a as ih =>
    refine rel_bind (hstep s t a (hP a List.mem_cons_self) h) fun x y hxy => ?_
    refine rel_bind (ih (fun b hb => hP b (List.mem_cons_of_mem _ hb)) hxy.2) fun c d hcd => ?_
    exact .some ⟨by rw [hxy.1, hcd.1], hcd.2⟩

end Storage
