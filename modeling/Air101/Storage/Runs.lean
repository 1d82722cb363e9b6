import Mathlib.Data.List.Basic

/-!
# Storage.Runs

Runs of a state machine given by a step function: a list of calls takes it from state to state.

* `runs step s cs`: the state after the calls `cs`.
* `trace step s cs`: every call with the state it is made in.
* `trace_inv`: an invariant that the steps meeting a condition preserve holds in every state of a
  run all of whose steps meet it. `runs_inv` is the same for the last state.
-/

namespace Storage

variable {σ α : Type} (step : σ → α → σ)

/-- The state after a list of calls. -/
def runs (s : σ) (cs : List α) : σ := cs.foldl step s

/-- The calls of a run, each with the state it is made in. -/
def trace : σ → List α → List (σ × α)
  | _, [] => []
  | s, c :: cs => (s, c) :: trace (step s c) cs

@[simp] theorem runs_nil (s : σ) : runs step s [] = s := rfl

@[simp] theorem runs_cons (s : σ) (c : α) (cs : List α) :
    runs step s (c :: cs) = runs step (step s c) cs := rfl

theorem runs_append (s : σ) (cs ds : List α) :
    runs step s (cs ++ ds) = runs step (runs step s cs) ds := List.foldl_append

theorem trace_append (s : σ) (cs ds : List α) :
    trace step s (cs ++ ds) = trace step s cs ++ trace step (runs step s cs) ds := by
  induction cs generalizing s with
  | nil => rfl
  | cons c cs ih => rw [List.cons_append, trace, trace, ih, List.cons_append, runs_cons]

variable {step}

theorem mem_of_mem_trace {s : σ} {cs : List α} {p : σ × α} (h : p ∈ trace step s cs) : p.2 ∈ cs := by
  induction cs generalizing s with
  | nil => simp [trace] at h
  | cons c cs ih =>
    rcases List.mem_cons.mp h with rfl | h
    · exact List.mem_cons_self
    · exact List.mem_cons_of_mem _ (ih h)

/-- A call of a run is made after the calls before it. -/
theorem eq_runs_of_mem_trace {s : σ} {cs : List α} {p : σ × α} (h : p ∈ trace step s cs) :
    ∃ pre rest, cs = pre ++ p.2 :: rest ∧ p.1 = runs step s pre := by
  induction cs generalizing s with
  | nil => simp [trace] at h
  | cons c cs ih =>
    rcases List.mem_cons.mp h with rfl | h
    · exact ⟨[], cs, rfl, rfl⟩
    · obtain ⟨pre, rest, rfl, hp⟩ := ih h
      exact ⟨c :: pre, rest, rfl, hp⟩

/-- The steps of a run keep an invariant if each step that meets the run's condition does. -/
theorem trace_inv (Inv : σ → Prop) (Ok : σ → α → Prop)
    (hstep : ∀ s c, Ok s c → Inv s → Inv (step s c)) {s : σ} {cs : List α}
    (hok : ∀ p ∈ trace step s cs, Ok p.1 p.2) (hs : Inv s) :
    (∀ p ∈ trace step s cs, Inv p.1) ∧ Inv (runs step s cs) := by
  induction cs generalizing s with
  | nil => exact ⟨by simp [trace], hs⟩
  | cons c cs ih =>
    simp only [trace, List.mem_cons, forall_eq_or_imp] at hok ⊢
    obtain ⟨hall, hend⟩ := ih hok.2 (hstep s c hok.1 hs)
    exact ⟨⟨hs, hall⟩, hend⟩

theorem runs_inv (Inv : σ → Prop) (Ok : σ → α → Prop)
    (hstep : ∀ s c, Ok s c → Inv s → Inv (step s c)) {s : σ} {cs : List α}
    (hok : ∀ p ∈ trace step s cs, Ok p.1 p.2) (hs : Inv s) : Inv (runs step s cs) :=
  (trace_inv Inv Ok hstep hok hs).2

end Storage
