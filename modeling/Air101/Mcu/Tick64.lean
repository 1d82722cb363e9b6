import Air101.Storage.Paths
import Air101.Timer.Isolation

/-!
# Mcu.Tick64

The 64-bit microsecond tick of `app/port/luat_mcu_air101.c`. A repeating timer with the period `(u32)(-1)` counts
microseconds; `utimer_cb`, called by `TIMER0_5_IRQHandler`, counts its overflows in `us_timer_ticks`.
`luat_mcu_tick64` reads that first and the counter of the timer after it.

A step is a count of the hardware, a run of the handler, or one of the two reads. The handler runs at any time after
an overflow, but before the next one.

* `Timely`: the counter is read with no overflow since `us_timer_ticks` was last up to date.
* `step_time`: no timely step takes the time back, and a timely read returns it.
* `tick64_monotone`: in a run of timely steps the ticks returned do not decrease.
* `tick64_decreases`: they do when the tick is read behind an overflow and before its interrupt.
-/

namespace Air101
namespace Mcu

open Storage
open Timer

/-- The period that `luat_mcu_tick64_init` programs. -/
def timeout : BitVec 32 := -1#32

structure Sys where
  /-- `HR_TIMER0_5_CSR`. -/
  csr : BitVec 32
  /-- `HR_TIMER0_CNT + 4 * u64_tick_timer_id`. -/
  cnt : BitVec 32
  usTimerTicks : BitVec 32
  /-- `ret` of the call of `luat_mcu_tick64` in execution, after its first read. -/
  ret : Option (BitVec 64)
  log : List (BitVec 64)

inductive Act where
  | count
  /-- `TIMER0_5_IRQHandler`. -/
  | irq
  /-- `luat_mcu_tick64` up to its read of `us_timer_ticks`. -/
  | readTicks
  | readCnt

/-- `((uint64_t) us_timer_ticks) << 32`. -/
def high (usTimerTicks : BitVec 32) : BitVec 64 := usTimerTicks.setWidth 64 <<< 32

/-- `utimer_cb`. -/
def utimerCb (usTimerTicks : BitVec 32) : BitVec 32 := usTimerTicks + 1#32

/-- A step, with `id` for `u64_tick_timer_id`; a second overflow does not come before the handler. -/
def step (id : Nat) (s : Sys) : Act → Option Sys
  | .count =>
    if s.cnt = timeout then
      if pending s.csr id then none else some { s with csr := s.csr ||| timerIntClr id, cnt := 0#32 }
    else some { s with cnt := s.cnt + 1#32 }
  | .irq =>
    let timerCsr := s.csr
    some { s with
      csr := csrWrite s.csr timerCsr
      usTimerTicks := if pending timerCsr id then utimerCb s.usTimerTicks else s.usTimerTicks }
  | .readTicks =>
    match s.ret with
    | none => some { s with ret := some (high s.usTimerTicks) }
    | some _ => none
  | .readCnt =>
    match s.ret with
    | none => none
    | some ret => some { s with ret := none, log := s.log ++ [ret + s.cnt.setWidth 64] }

/-- Behind `luat_mcu_tick64_init`. -/
def start (id : Nat) : Sys :=
  { csr := timerIntEn id ||| timerEn id, cnt := 0#32, usTimerTicks := 0#32, ret := none, log := [] }

/-- The counter is read when no overflow is pending and `us_timer_ticks` is what the call has read; and
`us_timer_ticks` does not overflow itself. -/
def Timely (id : Nat) (s : Sys) : Act → Prop
  | .readCnt => pending s.csr id = false ∧ s.ret = some (high s.usTimerTicks)
  | .irq => pending s.csr id = true → s.usTimerTicks ≠ -1#32
  | .count | .readTicks => True

/-- The ticks returned do not decrease. -/
def Monotone (s : Sys) : Prop := s.log.Pairwise fun v w => v.toNat ≤ w.toNat

/-- The microseconds since the start. -/
def time (id : Nat) (s : Sys) : Nat :=
  (s.usTimerTicks.toNat + (pending s.csr id).toNat) * 2 ^ 32 + s.cnt.toNat

section Steps

variable {id : Nat} {s s' : Sys}

theorem timeout_toNat : timeout.toNat = 2 ^ 32 - 1 := rfl

theorem high_add_toNat (t c : BitVec 32) : (high t + c.setWidth 64).toNat = t.toNat * 2 ^ 32 + c.toNat := by
  have ht := t.isLt
  have hc := c.isLt
  simp only [high, BitVec.toNat_add, BitVec.toNat_shiftLeft, BitVec.toNat_setWidth, Nat.shiftLeft_eq]
  omega

theorem succ_toNat {v : BitVec 32} (h : v ≠ -1#32) : (v + 1#32).toNat = v.toNat + 1 := by
  have hlt := v.isLt
  have hne : v.toNat ≠ 2 ^ 32 - 1 := fun he => h (BitVec.eq_of_toNat_eq he)
  rw [BitVec.toNat_add]
  show (v.toNat + 1) % 2 ^ 32 = _
  omega

theorem pending_handled (hid : id < 6) (csr : BitVec 32) : pending (csrWrite csr csr) id = false := by
  rw [pending_csrWrite hid, Bool.and_not_self]

/-- A step does not take the time back, and a read of the counter returns it. -/
theorem step_time (hid : id < 6) (a : Act) (ht : Timely id s a) (h : step id s a = some s') :
    time id s ≤ time id s' ∧
      (s'.log = s.log ∨ ∃ v : BitVec 64, s'.log = s.log ++ [v] ∧ v.toNat = time id s) := by
  cases a with
  | count =>
    simp only [step] at h
    split at h
    · rename_i hend
      split at h
      · cases h
      · rename_i hp
        cases h
        have hp : pending s.csr id = false := Bool.eq_false_iff.mpr hp
        refine ⟨?_, .inl rfl⟩
        simp only [time, pending_expire hid, hp, hend, timeout_toNat]
        simp
        omega
    · rename_i hend
      cases h
      refine ⟨?_, .inl rfl⟩
      simp only [time, succ_toNat hend]
      omega
  | irq =>
    cases h
    refine ⟨?_, .inl rfl⟩
    simp only [time, pending_handled hid]
    cases hp : pending s.csr id with
    | true =>
      rw [if_pos rfl, utimerCb, succ_toNat (ht hp)]
      simp
    | false => simp
  | readTicks =>
    simp only [step] at h
    split at h
    · cases h
      exact ⟨Nat.le_refl _, .inl rfl⟩
    · cases h
  | readCnt =>
    obtain ⟨hp, hret⟩ := ht
    simp only [step, hret] at h
    cases h
    refine ⟨Nat.le_refl _, .inr ⟨_, rfl, ?_⟩⟩
    rw [high_add_toNat, time, hp]
    simp

/-- What a run of timely steps keeps: the ticks returned are in order and not in the future. -/
structure InTime (id : Nat) (s : Sys) : Prop where
  monotone : Monotone s
  past : ∀ v ∈ s.log, v.toNat ≤ time id s

theorem start_inTime (id : Nat) : InTime id (start id) := ⟨.nil, by simp [start]⟩

theorem step_inTime (hid : id < 6) (a : Act) (ht : Timely id s a) (h : step id s a = some s') (hs : InTime id s) :
    InTime id s' := by
  obtain ⟨hle, hlog | ⟨v, hlog, hv⟩⟩ := step_time hid a ht h
  · refine ⟨?_, ?_⟩
    · rw [Monotone, hlog]
      exact hs.monotone
    · rw [hlog]
      exact fun w hw => Nat.le_trans (hs.past w hw) hle
  · refine ⟨?_, ?_⟩
    · rw [Monotone, hlog, List.pairwise_append]
      refine ⟨hs.monotone, List.pairwise_singleton _ _, fun w hw u hu => ?_⟩
      rw [List.mem_singleton.mp hu, hv]
      exact hs.past w hw
    · rw [hlog]
      intro w hw
      rcases List.mem_append.mp hw with hw | hw
      · exact Nat.le_trans (hs.past w hw) hle
      · rw [List.mem_singleton.mp hw, hv]
        exact hle

end Steps

/-- In every run whose steps are all timely, the values that the calls of `luat_mcu_tick64` return do not
decrease. -/
theorem tick64_monotone {id : Nat} (hid : id < 6) {as : List Act} {s : Sys}
    (h : Path (fun s a s' => step id s a = some s' ∧ Timely id s a) (start id) as s) : Monotone s :=
  (h.inv (InTime id) (fun _ a _ hr hs => step_inTime hid a hr.2 hr.1 hs) (start_inTime id)).monotone

theorem tick64_monotone_once : ∃ s, Monotone s ∧ s.log = [1#64] := by
  have hpath : Path (fun s a s' => step 0 s a = some s' ∧ Timely 0 s a) (start 0) [.count, .readTicks, .readCnt] _ :=
    .cons ⟨rfl, trivial⟩ (.cons ⟨rfl, trivial⟩ (.cons ⟨rfl, by decide, rfl⟩ (.nil _)))
  exact ⟨_, tick64_monotone (by decide) hpath, by decide⟩

/-- Counts that do not reach the end of the period. -/
theorem exec_counts {id : Nat} {s : Sys} (k : Nat) (as : List Act) (h : s.cnt.toNat + k < 2 ^ 32) :
    exec (step id) s (List.replicate k .count ++ as) = exec (step id) { s with cnt := s.cnt + BitVec.ofNat 32 k } as := by
  induction k generalizing s with
  | zero => simp
  | succ k ih =>
    have hend : s.cnt ≠ timeout := fun he => by
      rw [he, timeout_toNat] at h
      omega
    have hstep : step id s .count = some { s with cnt := s.cnt + 1#32 } := if_neg hend
    rw [List.replicate_succ, List.cons_append, exec, hstep]
    show exec (step id) { s with cnt := s.cnt + 1#32 } (List.replicate k .count ++ as) = _
    rw [ih (by rw [succ_toNat hend]; omega), BitVec.add_assoc, show 1#32 + BitVec.ofNat 32 k = BitVec.ofNat 32 (k + 1) by
      rw [Nat.add_comm, BitVec.ofNat_add]]

/-- The counter runs to the end of its period and the tick is read; then it overflows, and the tick is read again
before the handler has run. -/
theorem tick64_decreases :
    ∃ s, exec (step 0) (start 0)
        (List.replicate (2 ^ 32 - 1) .count ++ [.readTicks, .readCnt, .count, .readTicks, .readCnt]) = some s ∧
      s.log = [0xFFFFFFFF#64, 0#64] ∧ ¬ Monotone s := by
  let s : Sys :=
    { csr := timerIntEn 0 ||| timerEn 0 ||| timerIntClr 0
      cnt := 0#32
      usTimerTicks := 0#32
      ret := none
      log := [0xFFFFFFFF#64, 0#64] }
  refine ⟨s, ?_, rfl, by simp [s, Monotone]⟩
  rw [exec_counts _ _ (by decide)]
  rfl

end Mcu
end Air101
