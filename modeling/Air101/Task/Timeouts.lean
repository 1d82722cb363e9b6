import Air101.Storage.Deltas
import Air101.Storage.Runs
import Mathlib.Algebra.Ring.Nat

/-!
# Task.Timeouts

The timeout list of a task (`platform/common/task/wm_wl_timers.c`). An entry carries the 32-bit
difference of its time to the entry before it.

The calls return the new list and the 32-bit additions and subtractions they made, so that one can say
that none of them wraps.

* `tlsTimeoutP_deltas`, `tlsUntimeoutP_deltas`: the calls are the delta list operations.
* `Timeouts.step_bounded`: every entry is due at a time that fits 32 bits, because it was once handed
  over as one.
* `Timeouts.timeouts_run`: what the calls do to the absolute times, in every run.
-/

namespace Air101
namespace Task

open Storage

variable {H A : Type}

/-- `struct tls_timeo`. -/
structure Timeo (H A : Type) where
  h : H
  arg : A
  time : BitVec 32

/-- The arithmetic of a call. -/
inductive Arith where
  | sub (a b : BitVec 32)
  | add (a b : BitVec 32)

/-- The operation does not wrap. -/
def Arith.Exact : Arith → Prop
  | .sub a b => b.toNat ≤ a.toNat
  | .add a b => a.toNat + b.toNat < 2 ^ 32

abbrev Timeouts (H A : Type) := List (Timeo H A)

/-- The `for` loop of `tls_timeout_p` with the new entry `timeout`: go on as long as the next entry is
due no later than it. -/
def insertLoop (timeout : Timeo H A) : Timeouts H A → Timeouts H A × List Arith
  | [] => ([], [])
  | t :: rest =>
    let timeout' := { timeout with time := timeout.time - t.time }
    match rest with
    | [] => ([t, timeout'], [.sub timeout.time t.time])
    | next :: rest' =>
      if timeout'.time < next.time then
        (t :: timeout' :: { next with time := next.time - timeout'.time } :: rest',
          [.sub timeout.time t.time, .sub next.time timeout'.time])
      else
        let tail := insertLoop timeout' (next :: rest')
        (t :: tail.1, .sub timeout.time t.time :: tail.2)

/-- `tls_timeout_p`; `heap` says whether the entry can be allocated. -/
def tlsTimeoutP (heap : Bool) (msecs : BitVec 32) (handler : H) (arg : A) (timeo : Timeouts H A) :
    Timeouts H A × List Arith :=
  if heap = false then (timeo, [])
  else
    let timeout : Timeo H A := { h := handler, arg := arg, time := msecs }
    match timeo with
    | [] => ([timeout], [])
    | t :: rest =>
      if msecs < t.time then
        (timeout :: { t with time := t.time - msecs } :: rest, [.sub t.time msecs])
      else insertLoop timeout (t :: rest)

variable [DecidableEq H] [DecidableEq A]

/-- `tls_untimeout_p`. -/
def tlsUntimeoutP (handler : H) (arg : A) : Timeouts H A → Timeouts H A × List Arith
  | [] => ([], [])
  | t :: rest =>
    if t.h = handler ∧ t.arg = arg then
      match rest with
      | [] => ([], [])
      | next :: rest' => ({ next with time := next.time + t.time } :: rest', [.add next.time t.time])
    else
      let tail := tlsUntimeoutP handler arg rest
      (t :: tail.1, tail.2)

/-- One pass of `tls_timeouts_mbox_fetch_p` from the label `again` on. `needed` is what
`tls_arch_mbox_fetch` returns, `none` for `SYS_ARCH_TIMEOUT`. The second component is the handler to
call before the next pass. -/
def fetchPass (needed : Option (BitVec 32)) (timeo : Timeouts H A) :
    Timeouts H A × Option (H × A) × List Arith :=
  match timeo with
  | [] => ([], none, [])
  | t :: rest =>
    match (if 0 < t.time then needed else none) with
    | none => (rest, some (t.h, t.arg), [])
    | some timeNeeded =>
      if timeNeeded < t.time then
        ({ t with time := t.time - timeNeeded } :: rest, none, [.sub t.time timeNeeded])
      else ({ t with time := 0 } :: rest, none, [])

namespace Timeouts

inductive Call (H A : Type) where
  | timeout (heap : Bool) (msecs : BitVec 32) (handler : H) (arg : A)
  | untimeout (handler : H) (arg : A)
  | fetch (needed : Option (BitVec 32))

def step (timeo : Timeouts H A) : Call H A → Timeouts H A
  | .timeout heap msecs handler arg => (tlsTimeoutP heap msecs handler arg timeo).1
  | .untimeout handler arg => (tlsUntimeoutP handler arg timeo).1
  | .fetch needed => (fetchPass needed timeo).1

def arithmetic (timeo : Timeouts H A) : Call H A → List Arith
  | .timeout heap msecs handler arg => (tlsTimeoutP heap msecs handler arg timeo).2
  | .untimeout handler arg => (tlsUntimeoutP handler arg timeo).2
  | .fetch needed => (fetchPass needed timeo).2.2

end Timeouts

/-! ## The calls on delta lists -/

section Deltas

omit [DecidableEq H] [DecidableEq A]

/-- The list with its differences as numbers. -/
def deltas (timeo : Timeouts H A) : List ((H × A) × Nat) :=
  timeo.map fun t => ((t.h, t.arg), t.time.toNat)

@[simp] theorem deltas_nil : deltas ([] : Timeouts H A) = [] := rfl

@[simp] theorem deltas_cons (t : Timeo H A) (timeo : Timeouts H A) :
    deltas (t :: timeo) = ((t.h, t.arg), t.time.toNat) :: deltas timeo := rfl

/-- The loop is entered, and goes on, at an entry that is due no later than the new one. -/
theorem insertLoop_deltas (t : Timeo H A) (rest : Timeouts H A) (timeout : Timeo H A)
    (hle : t.time ≤ timeout.time) :
    deltas (insertLoop timeout (t :: rest)).1 =
        insertDelta (timeout.h, timeout.arg) timeout.time.toNat (deltas (t :: rest)) ∧
      ∀ o ∈ (insertLoop timeout (t :: rest)).2, o.Exact := by
  induction rest generalizing t timeout with
  | nil =>
    have hnat := BitVec.le_def.mp hle
    rw [deltas_cons, deltas_nil, insertDelta, if_neg (Nat.not_lt.mpr hnat), ← BitVec.toNat_sub_of_le hle]
    simp only [insertLoop, List.mem_singleton, forall_eq]
    exact ⟨rfl, hnat⟩
  | cons next rest ih =>
    have hnat := BitVec.le_def.mp hle
    rw [deltas_cons, insertDelta, if_neg (Nat.not_lt.mpr hnat), ← BitVec.toNat_sub_of_le hle]
    by_cases hlt : timeout.time - t.time < next.time
    · have hsub' := BitVec.toNat_sub_of_le (BitVec.le_of_lt hlt)
      rw [deltas_cons, insertDelta, if_pos (BitVec.lt_def.mp hlt), ← hsub']
      simp only [insertLoop, if_pos hlt, List.mem_cons, List.not_mem_nil, or_false, forall_eq_or_imp,
        forall_eq]
      exact ⟨rfl, hnat, BitVec.le_def.mp (BitVec.le_of_lt hlt)⟩
    · have hle' := BitVec.not_lt.mp hlt
      obtain ⟨hlist, hexact⟩ := ih next { timeout with time := timeout.time - t.time } hle'
      simp only [insertLoop, if_neg hlt, List.mem_cons, forall_eq_or_imp]
      exact ⟨congrArg _ hlist, hnat, hexact⟩

theorem tlsTimeoutP_deltas (msecs : BitVec 32) (handler : H) (arg : A) (timeo : Timeouts H A) :
    deltas (tlsTimeoutP true msecs handler arg timeo).1 =
        insertDelta (handler, arg) msecs.toNat (deltas timeo) ∧
      ∀ o ∈ (tlsTimeoutP true msecs handler arg timeo).2, o.Exact := by
  unfold tlsTimeoutP
  rw [if_neg (by simp)]
  cases timeo with
  | nil => exact ⟨rfl, by simp⟩
  | cons t rest =>
    simp only []
    split
    · rename_i hlt
      have hlt' := BitVec.lt_def.mp hlt
      have hsub := BitVec.toNat_sub_of_le (BitVec.le_of_lt hlt)
      simp only [deltas_cons, insertDelta, List.mem_singleton, forall_eq]
      rw [if_pos hlt', hsub]
      exact ⟨rfl, Nat.le_of_lt hlt'⟩
    · rename_i hge
      exact insertLoop_deltas t rest _ (BitVec.not_lt.mp hge)

end Deltas

/-! ## Absolute times -/

/-- The entries with the time left until they are due. -/
def due (timeo : Timeouts H A) : List ((H × A) × Nat) := absolute 0 (deltas timeo)

theorem tlsUntimeoutP_deltas (handler : H) (arg : A) (timeo : Timeouts H A) (b : Nat)
    (hb : ∀ e ∈ absolute b (deltas timeo), e.2 < 2 ^ 32) :
    deltas (tlsUntimeoutP handler arg timeo).1 = removeDelta (fun x => x = (handler, arg)) (deltas timeo) ∧
      ∀ o ∈ (tlsUntimeoutP handler arg timeo).2, o.Exact := by
  induction timeo generalizing b with
  | nil => exact ⟨rfl, by simp [tlsUntimeoutP]⟩
  | cons t rest ih =>
    have hmatch : decide ((t.h, t.arg) = (handler, arg)) = true ↔ t.h = handler ∧ t.arg = arg := by
      rw [decide_eq_true_iff, Prod.mk.injEq]
    rw [tlsUntimeoutP.eq_def, deltas_cons, removeDelta]
    simp only []
    split
    · rename_i heq
      rw [if_pos (hmatch.mpr heq)]
      cases rest with
      | nil => exact ⟨rfl, by simp⟩
      | cons next rest =>
        have hnext : next.time.toNat + t.time.toNat < 2 ^ 32 := by
          have hdue := hb ((next.h, next.arg), b + t.time.toNat + next.time.toNat) (by simp)
          simp only [] at hdue
          omega
        refine ⟨?_, by simpa [Arith.Exact] using hnext⟩
        simp only [deltas_cons, addDelta, BitVec.toNat_add, Nat.mod_eq_of_lt hnext]
    · rename_i hne
      rw [if_neg (fun h => hne (hmatch.mp h))]
      obtain ⟨hlist, hexact⟩ := ih (b + t.time.toNat) fun e he => hb e (by simp [he])
      exact ⟨by simp only [deltas_cons, hlist], hexact⟩

omit [DecidableEq H] [DecidableEq A] in
/-- When an entry fires it is the first that is due; time passes for the others by what it had left. -/
theorem fetchPass_fires {needed : Option (BitVec 32)} {timeo : Timeouts H A} {x : H × A}
    (h : (fetchPass needed timeo).2.1 = some x) :
    ∃ d rest, due timeo = (x, d) :: rest ∧
      due (fetchPass needed timeo).1 = rest.map fun e => (e.1, e.2 - d) := by
  cases timeo with
  | nil => simp [fetchPass] at h
  | cons t rest =>
    simp only [fetchPass] at h ⊢
    split at h
    · refine ⟨t.time.toNat, absolute t.time.toNat (deltas rest), ?_, ?_⟩
      · rw [← Option.some.inj h, due, deltas_cons, absolute_cons, Nat.zero_add]
      · have hshift := absolute_shift 0 t.time.toNat (deltas rest)
        rwa [Nat.zero_add] at hshift
    · split at h <;> simp at h

omit [DecidableEq H] [DecidableEq A] in
/-- When none fires, all of them are due sooner by the same time. -/
theorem fetchPass_waits {needed : Option (BitVec 32)} {timeo : Timeouts H A}
    (h : (fetchPass needed timeo).2.1 = none) :
    ∃ d, due (fetchPass needed timeo).1 = (due timeo).map fun e => (e.1, e.2 - d) := by
  cases timeo with
  | nil => exact ⟨0, rfl⟩
  | cons t rest =>
    simp only [fetchPass] at h ⊢
    split at h
    · simp at h
    · rename_i n _
      -- the time that passes is at most what the first entry had left
      have hpass : ∀ (u : BitVec 32) (d : Nat), t.time.toNat = u.toNat + d →
          due ({ t with time := u } :: rest) = (due (t :: rest)).map fun e => (e.1, e.2 - d) := by
        intro u d hd
        simp only [due, deltas_cons, absolute_cons, List.map_cons, Nat.zero_add, hd]
        rw [← absolute_shift, Nat.add_sub_cancel]
      split
      · rename_i hlt
        have hle := BitVec.le_of_lt hlt
        have hnat := BitVec.le_def.mp hle
        refine ⟨n.toNat, hpass _ _ ?_⟩
        rw [BitVec.toNat_sub_of_le hle]
        omega
      · exact ⟨t.time.toNat, hpass _ _ (by simp)⟩

omit [DecidableEq H] [DecidableEq A] in
theorem fetchPass_exact (needed : Option (BitVec 32)) (timeo : Timeouts H A) :
    ∀ o ∈ (fetchPass needed timeo).2.2, o.Exact := by
  cases timeo with
  | nil => simp [fetchPass]
  | cons t rest =>
    simp only [fetchPass]
    split
    · simp
    · split
      · rename_i hlt
        simpa [Arith.Exact] using Nat.le_of_lt (BitVec.lt_def.mp hlt)
      · simp

namespace Timeouts

/-- Every entry is due at a time that fits 32 bits. -/
def Bounded (timeo : Timeouts H A) : Prop := ∀ e ∈ due timeo, e.2 < 2 ^ 32

/-- What a call does to the absolute times. An insertion goes behind the entries due no later and before
the ones due later; a removal takes the first match. -/
def Effect (timeo timeo' : Timeouts H A) : Call H A → Prop
  | .timeout true msecs handler arg => ∃ pre post, due timeo = pre ++ post ∧
      due timeo' = pre ++ ((handler, arg), msecs.toNat) :: post ∧
      (∀ e ∈ pre, e.2 ≤ msecs.toNat) ∧ ∀ e ∈ post, msecs.toNat < e.2
  | .timeout false _ _ _ => timeo' = timeo
  | .untimeout handler arg => due timeo' = (due timeo).eraseP fun e => e.1 = (handler, arg)
  | .fetch _ => ∃ d, ∀ e ∈ due timeo', ∃ f ∈ due timeo, e = (f.1, f.2 - d)

theorem step_effect {timeo : Timeouts H A} (hb : Bounded timeo) (c : Call H A) :
    Effect timeo (step timeo c) c ∧ ∀ o ∈ arithmetic timeo c, o.Exact := by
  cases c with
  | timeout heap msecs handler arg =>
    cases heap with
    | true =>
      obtain ⟨hlist, hexact⟩ := tlsTimeoutP_deltas msecs handler arg timeo
      obtain ⟨pre, post, hl, hins, hpre, hpost⟩ :=
        absolute_insertDelta (handler, arg) msecs.toNat 0 (deltas timeo)
      rw [Nat.zero_add] at hins hpre hpost
      exact ⟨⟨pre, post, hl, by rw [due, step, hlist, hins], hpre, hpost⟩, hexact⟩
    | false => exact ⟨rfl, by simp [arithmetic, tlsTimeoutP]⟩
  | untimeout handler arg =>
    obtain ⟨hlist, hexact⟩ := tlsUntimeoutP_deltas handler arg timeo 0 hb
    refine ⟨?_, hexact⟩
    rw [Effect, due, step, hlist, absolute_removeDelta, due]
  | fetch needed =>
    refine ⟨?_, fetchPass_exact needed timeo⟩
    cases hf : (fetchPass needed timeo).2.1 with
    | some x =>
      obtain ⟨d, rest, hdue, hdue'⟩ := fetchPass_fires hf
      refine ⟨d, fun e he => ?_⟩
      rw [step, hdue'] at he
      obtain ⟨f, hmem, rfl⟩ := List.mem_map.mp he
      exact ⟨f, by rw [hdue]; exact List.mem_cons_of_mem _ hmem, rfl⟩
    | none =>
      obtain ⟨d, hdue'⟩ := fetchPass_waits hf
      refine ⟨d, fun e he => ?_⟩
      rw [step, hdue'] at he
      obtain ⟨f, hmem, rfl⟩ := List.mem_map.mp he
      exact ⟨f, hmem, rfl⟩

/-- A new entry is due at the 32-bit time it was handed over with, the others no later than before. -/
theorem step_bounded (timeo : Timeouts H A) (c : Call H A) (hb : Bounded timeo) : Bounded (step timeo c) := by
  have heff := (step_effect hb c).1
  cases c with
  | timeout heap msecs handler arg =>
    cases heap with
    | true =>
      obtain ⟨pre, post, hl, hins, _, _⟩ := heff
      intro e he
      rw [hins] at he
      rcases List.mem_append.mp he with he | he
      · exact hb e (by rw [hl]; exact List.mem_append_left _ he)
      · rcases List.mem_cons.mp he with rfl | he
        · exact msecs.isLt
        · exact hb e (by rw [hl]; exact List.mem_append_right _ he)
    | false => exact heff ▸ hb
  | untimeout handler arg =>
    intro e he
    rw [show due _ = _ from heff] at he
    exact hb e (List.mem_of_mem_eraseP he)
  | fetch needed =>
    obtain ⟨d, hall⟩ := heff
    intro e he
    obtain ⟨f, hf, rfl⟩ := hall e he
    exact Nat.lt_of_le_of_lt (Nat.sub_le _ _) (hb f hf)

/-- In every run from the empty list the calls have their effect on the absolute times, and no addition
or subtraction wraps. -/
theorem timeouts_run (cs : List (Call H A)) : ∀ p ∈ trace step [] cs,
    Effect p.1 (step p.1 p.2) p.2 ∧ ∀ o ∈ arithmetic p.1 p.2, o.Exact := by
  intro p hp
  have hstart : Bounded ([] : Timeouts H A) := by simp [Bounded, due]
  have hinv := (trace_inv Bounded (fun _ _ => True) (fun s c _ hs => step_bounded s c hs)
    (fun _ _ => trivial) hstart).1 p hp
  exact step_effect hinv p.2

/-- Handler 1 is set to 100 and handler 2 to 30, which comes out again. -/
theorem timeouts_run_two :
    due (step [⟨2, 0, 30⟩, ⟨1, 0, 70⟩] (.untimeout 2 0) : Timeouts Nat Nat) = [((1, 0), 100)] :=
  (timeouts_run [.timeout true 100 1 0, .timeout true 30 2 0, .untimeout 2 0]
    ([⟨2, 0, 30⟩, ⟨1, 0, 70⟩], .untimeout 2 0) (by simp [trace, step, tlsTimeoutP])).1

end Timeouts
end Task
end Air101
