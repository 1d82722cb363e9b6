import Air101.Rtos.Delays

/-!
# Rtos.TimeOut

`vTaskInternalSetTimeOutState` and `xTaskCheckForTimeOut` (`src/os/rtos/source/tasks.c`), with which a
call that blocks more than once keeps to its time, and `vTaskDelayUntil`, with which a task runs every so
many ticks.

* `checkForTimeOut_clock`: a check says whether the time is over, and moves the rest of it to the clock.
* `recheck_exact`: the first of several checks that ends the wait is the first one behind the deadline.
* `periodic_exact`: the times at which such a task wakes.
-/

namespace Air101
namespace Rtos

open Storage.Agenda

/-- `xNumOfOverflows` and `xTickCount` -/
structure Clock where
  numOfOverflows : Nat
  tickCount : Nat

/-- `TimeOut_t` -/
structure TimeOut where
  overflowCount : Nat
  timeOnEntering : Nat

/-- `vTaskInternalSetTimeOutState` -/
def setTimeOutState (c : Clock) : TimeOut := ⟨c.numOfOverflows, c.tickCount⟩

/-- `xTaskCheckForTimeOut`: whether the time is over, and the two variables. -/
def checkForTimeOut (c : Clock) (t : TimeOut) (ticksToWait : Nat) : Bool × TimeOut × Nat :=
  let elapsedTime := (c.tickCount + (tickSize - t.timeOnEntering)) % tickSize
  if ticksToWait = maxDelay then (false, t, ticksToWait)
  else if c.numOfOverflows ≠ t.overflowCount ∧ c.tickCount ≥ t.timeOnEntering then (true, t, 0)
  else if elapsedTime < ticksToWait then (false, setTimeOutState c, ticksToWait - elapsedTime)
  else (true, t, 0)

/-- The clock `now` ticks after the start. -/
def clock (now : Nat) : Clock := ⟨now / tickSize % tickSize, now % tickSize⟩

/-- The checks of a call at some times, up to the first that says that its time is over. -/
def recheck (t : TimeOut) (ticksToWait : Nat) : List Nat → Option Nat
  | [] => none
  | now :: times =>
    let r := checkForTimeOut (clock now) t ticksToWait
    if r.1 then some now else recheck r.2.1 r.2.2 times

variable {since k ticks : Nat}

/-- The value of a clock a while later. -/
theorem clock_add (since : Nat) (hk : k < tickSize) :
    (since % tickSize + k < tickSize ∧ (since + k) % tickSize = since % tickSize + k) ∨
      (tickSize ≤ since % tickSize + k ∧ (since + k) % tickSize + tickSize = since % tickSize + k) := by
  have hlt : since % tickSize < tickSize := Nat.mod_lt since tickSize_pos
  rcases Nat.lt_or_ge (since % tickSize + k) tickSize with hin | hout
  · exact .inl ⟨hin, (add_this_round hin).1⟩
  · refine .inr ⟨hout, ?_⟩
    rw [Nat.add_mod, Nat.mod_eq_of_lt hk, Nat.mod_eq_sub_mod hout, Nat.mod_eq_of_lt (by omega)]
    omega

theorem elapsed_eq (hk : k < tickSize) :
    ((since + k) % tickSize + (tickSize - since % tickSize)) % tickSize = k := by
  have hlt : since % tickSize < tickSize := Nat.mod_lt since tickSize_pos
  rcases clock_add since hk with ⟨-, hmod⟩ | ⟨hout, hmod⟩
  · rw [hmod, show since % tickSize + k + (tickSize - since % tickSize) = k + tickSize by omega,
      Nat.add_mod_right, Nat.mod_eq_of_lt hk]
  · rw [show (since + k) % tickSize + (tickSize - since % tickSize) = k by omega,
      Nat.mod_eq_of_lt hk]

/-- Within one round the count of overflows is the same, or the clock shows less. -/
theorem not_all_around (hk : k < tickSize) :
    ¬ ((clock (since + k)).numOfOverflows ≠ (clock since).numOfOverflows ∧
      (clock (since + k)).tickCount ≥ (clock since).tickCount) := by
  rintro ⟨hover, htick⟩
  rcases Nat.lt_or_ge (since % tickSize + k) tickSize with hin | hout
  · refine hover ?_
    have heq := (add_this_round hin).2
    have hdiv : (since + k) / tickSize = since / tickSize := by
      have hnow := round_add since tickSize
      refine Nat.div_eq_of_lt_le (by omega) ?_
      rw [Nat.add_mul, Nat.one_mul]
      omega
    rw [clock, clock, hdiv]
  · exact absurd ((wrap_iff hk).mpr hout) (Nat.not_lt.mpr htick)

theorem checkForTimeOut_clock (hticks : ticks ≠ maxDelay) (hk : k < tickSize) :
    checkForTimeOut (clock (since + k)) (setTimeOutState (clock since)) ticks =
      if k < ticks then (false, setTimeOutState (clock (since + k)), ticks - k)
      else (true, setTimeOutState (clock since), 0) := by
  rw [checkForTimeOut, if_neg hticks, if_neg (by exact not_all_around hk)]
  have helapsed := @elapsed_eq since k hk
  simp only [setTimeOutState, clock, helapsed]

/-- The times of the checks are in order, with less than a round of the clock between two of them. -/
def Close (since : Nat) : List Nat → Prop
  | [] => True
  | now :: times => since ≤ now ∧ now - since < tickSize ∧ Close now times

/-- A call that checks its time again and again gives up at the first check from its deadline on. -/
theorem recheck_exact {times : List Nat} (hticks : ticks < maxDelay) (h : Close since times) :
    recheck (setTimeOutState (clock since)) ticks times =
      times.find? fun now => since + ticks ≤ now := by
  induction times generalizing since ticks with
  | nil => rfl
  | cons now times ih =>
    obtain ⟨hle, hlt, hrest⟩ := h
    obtain ⟨k, rfl⟩ := Nat.exists_eq_add_of_le hle
    rw [Nat.add_sub_cancel_left] at hlt
    rw [recheck, checkForTimeOut_clock (by omega) hlt, List.find?_cons]
    by_cases hk : k < ticks
    · have hearly : ¬ since + ticks ≤ since + k := by omega
      have hmore := @ih (since + k) (ticks - k) (by omega) hrest
      simp only [if_pos hk, hearly, decide_false, Bool.false_eq_true, if_false, hmore]
      rw [show since + k + (ticks - k) = since + ticks by omega]
    · have hover : since + ticks ≤ since + k := by omega
      simp only [if_neg hk, hover, decide_true, if_true]

/-- Ten ticks from 5 ticks before the clock wraps around. -/
theorem recheck_exact_wrap :
    recheck (setTimeOutState (clock (tickSize - 5))) 10 [tickSize - 1, tickSize + 3, tickSize + 7] =
      some (tickSize + 7) := by
  rw [recheck_exact (by decide) (by simp [Close, tickSize])]
  rfl

/-! ## Tasks that run every so many ticks -/

/-- `vTaskDelayUntil`: the new `*pxPreviousWakeTime`, and the ticks for which the task blocks, if it
does. -/
def delayUntil (tickCount previousWakeTime timeIncrement : Nat) : Nat × Option Nat :=
  let timeToWake := (previousWakeTime + timeIncrement) % tickSize
  let shouldDelay : Bool :=
    if tickCount < previousWakeTime then timeToWake < previousWakeTime && timeToWake > tickCount
    else timeToWake < previousWakeTime || timeToWake > tickCount
  (timeToWake,
    if shouldDelay then some ((timeToWake + (tickSize - tickCount)) % tickSize) else none)

/-- The calls of a task at some times: the tick until which it sleeps, if it does. -/
def periodic (previousWakeTime timeIncrement : Nat) : List Nat → List (Option Nat)
  | [] => []
  | now :: times =>
    let r := delayUntil (now % tickSize) previousWakeTime timeIncrement
    r.2.map (now + ·) :: periodic r.1 timeIncrement times

variable {wake inc : Nat}

theorem delayUntil_clock (hinc : inc < tickSize) (hk : k < tickSize) :
    delayUntil ((wake + k) % tickSize) (wake % tickSize) inc =
      ((wake + inc) % tickSize, if k < inc then some (inc - k) else none) := by
  have hlt : wake % tickSize < tickSize := Nat.mod_lt wake tickSize_pos
  have htick := clock_add wake hk
  have hwake := clock_add wake hinc
  have hrest : k < inc →
      ((wake + inc) % tickSize + (tickSize - (wake + k) % tickSize)) % tickSize = inc - k := by
    intro hearly
    have helapsed := @elapsed_eq (wake + k) (inc - k) (by omega)
    rwa [show wake + k + (inc - k) = wake + inc by omega] at helapsed
  rw [delayUntil, Nat.mod_add_mod]
  generalize (wake + k) % tickSize = tick at htick hrest ⊢
  generalize (wake + inc) % tickSize = time at hwake hrest ⊢
  generalize wake % tickSize = previous at hlt htick hwake ⊢
  by_cases hearly : k < inc
  · have hshould : (if tick < previous then time < previous && time > tick
        else time < previous || time > tick) = true := by
      split
      · simp only [Bool.and_eq_true, decide_eq_true_eq]
        omega
      · simp only [Bool.or_eq_true, decide_eq_true_eq]
        omega
    simp only [hshould, if_true, hrest hearly, if_pos hearly]
  · have hshould : (if tick < previous then time < previous && time > tick
        else time < previous || time > tick) = false := by
      split
      · simp only [Bool.and_eq_false_iff, decide_eq_false_iff_not]
        omega
      · simp only [Bool.or_eq_false_iff, decide_eq_false_iff_not]
        omega
    simp only [hshould, Bool.false_eq_true, if_false, if_neg hearly]

/-- Each call comes behind the wake time before it, by less than a round of the clock. -/
def OnTime (wake inc : Nat) : List Nat → Prop
  | [] => True
  | now :: times => wake ≤ now ∧ now - wake < tickSize ∧ OnTime (wake + inc) inc times

/-- The wake times do not drift, whenever the task calls: a call that comes before the next one sleeps
until it, and one that is late does not sleep. -/
theorem periodic_exact {times : List Nat} (hinc : inc < tickSize) (h : OnTime wake inc times) :
    periodic (wake % tickSize) inc times = times.mapIdx fun k now =>
      if now < wake + (k + 1) * inc then some (wake + (k + 1) * inc) else none := by
  induction times generalizing wake with
  | nil => rfl
  | cons now times ih =>
    obtain ⟨hle, hlt, hrest⟩ := h
    obtain ⟨k, rfl⟩ := Nat.exists_eq_add_of_le hle
    rw [Nat.add_sub_cancel_left] at hlt
    rw [periodic, delayUntil_clock hinc hlt, List.mapIdx_cons, ih hrest]
    have hnext : ∀ j : Nat, wake + inc + (j + 1) * inc = wake + (j + 1 + 1) * inc := by
      intro j
      rw [Nat.succ_mul (j + 1), Nat.add_assoc, Nat.add_comm inc]
    simp only [hnext, Nat.zero_add, Nat.one_mul, Nat.add_lt_add_iff_left]
    congr 1
    split
    · rw [Option.map_some]
      congr 1
      omega
    · rfl

/-- Every 10 ticks from 5 ticks before the clock wraps around; the second call is late. -/
theorem periodic_exact_wrap :
    periodic (tickSize - 5) 10 [tickSize - 4, tickSize + 20, tickSize + 21] =
      [some (tickSize + 5), none, some (tickSize + 25)] := by
  exact @periodic_exact (tickSize - 5) 10 [tickSize - 4, tickSize + 20, tickSize + 21] (by decide)
    (by simp [OnTime, tickSize])

end Rtos
end Air101
