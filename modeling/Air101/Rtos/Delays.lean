import Air101.Storage.Agenda

/-!
# Rtos.Delays

Tasks that wait for a time (`src/os/rtos/source/tasks.c`): the delayed lists and the tick.

`TickType_t` has 32 bits. A list holds its tasks with the values of their list items. Tasks that are in
none of the lists are ready. What a function returns beside the state are the tasks it makes ready. Of
`xTaskRemoveFromEventList` and `vTaskPlaceOnEventList` only the part that concerns the state item is
here; the event lists of a queue are in `Rtos.Calls`.
-/

namespace Air101
namespace Rtos

variable {ι : Type}

def tickSize : Nat := 0x100000000

/-- `portMAX_DELAY` -/
def maxDelay : Nat := 0xffffffff

theorem tickSize_pos : 0 < tickSize := by decide

structure Delays (ι : Type) where
  tickCount : Nat
  numOfOverflows : Nat
  nextTaskUnblockTime : Nat
  delayed : List (ι × Nat)
  overflowDelayed : List (ι × Nat)
  suspendedTasks : List ι
  pendingReady : List ι
  schedulerSuspended : Nat
  pendedTicks : Nat

/-- `vListInsert`: in order of the item values. The end marker has the value `portMAX_DELAY`. -/
def vListInsert (i : ι) (value : Nat) (l : List (ι × Nat)) : List (ι × Nat) :=
  if value = maxDelay then l ++ [(i, value)]
  else l.takeWhile (fun e => e.2 ≤ value) ++ (i, value) :: l.dropWhile (fun e => e.2 ≤ value)

def headValue : List (ι × Nat) → Nat
  | [] => maxDelay
  | e :: _ => e.2

namespace Delays

/-- `prvResetNextTaskUnblockTime` -/
def resetNextTaskUnblockTime (s : Delays ι) : Delays ι :=
  { s with nextTaskUnblockTime := headValue s.delayed }

/-- `prvAddCurrentTaskToDelayedList` -/
def addCurrentTaskToDelayedList (s : Delays ι) (i : ι) (ticksToWait : Nat)
    (canBlockIndefinitely : Bool) : Delays ι :=
  if ticksToWait = maxDelay ∧ canBlockIndefinitely then
    { s with suspendedTasks := s.suspendedTasks ++ [i] }
  else
    let timeToWake := (s.tickCount + ticksToWait) % tickSize
    if timeToWake < s.tickCount then
      { s with overflowDelayed := vListInsert i timeToWake s.overflowDelayed }
    else
      { s with
        delayed := vListInsert i timeToWake s.delayed
        nextTaskUnblockTime :=
          if timeToWake < s.nextTaskUnblockTime then timeToWake else s.nextTaskUnblockTime }

/-- `taskSWITCH_DELAYED_LISTS`, with its assertion. -/
def switchDelayedLists (s : Delays ι) : Option (Delays ι) :=
  if s.delayed = [] then
    some (resetNextTaskUnblockTime { s with
      delayed := s.overflowDelayed
      overflowDelayed := s.delayed
      numOfOverflows := (s.numOfOverflows + 1) % tickSize })
  else none

/-- The loop of `xTaskIncrementTick`: the tasks whose time has come, the others, and the next unblock
time. -/
def unblockLoop (tick : Nat) : List (ι × Nat) → List ι × List (ι × Nat) × Nat
  | [] => ([], [], maxDelay)
  | e :: l =>
    if tick < e.2 then ([], e :: l, e.2)
    else
      let r := unblockLoop tick l
      (e.1 :: r.1, r.2)

def serve (s : Delays ι) : List ι × Delays ι :=
  if s.tickCount ≥ s.nextTaskUnblockTime then
    let r := unblockLoop s.tickCount s.delayed
    (r.1, { s with delayed := r.2.1, nextTaskUnblockTime := r.2.2 })
  else ([], s)

/-- `xTaskIncrementTick` while the scheduler runs. -/
def incrementTick (s : Delays ι) : Option (List ι × Delays ι) :=
  let s := { s with tickCount := (s.tickCount + 1) % tickSize }
  (if s.tickCount = 0 then s.switchDelayedLists else some s).map serve

def incrementTicks : Nat → Delays ι → Option (List ι × Delays ι)
  | 0, s => some ([], s)
  | n + 1, s =>
    match s.incrementTick with
    | none => none
    | some (woken, s) => (incrementTicks n s).map fun r => (woken ++ r.1, r.2)

variable [DecidableEq ι]

/-- `uxListRemove` of the state items of some tasks. -/
def remove (s : Delays ι) (l : List ι) : Delays ι :=
  { s with
    delayed := s.delayed.filter fun e => e.1 ∉ l
    overflowDelayed := s.overflowDelayed.filter fun e => e.1 ∉ l
    suspendedTasks := s.suspendedTasks.filter fun i => i ∉ l }

/-- `xTaskResumeAll`, when it lets the scheduler run again: the tasks of the pending ready list, and
those whose time has come meanwhile. -/
def resume (s : Delays ι) : Option (List ι × Delays ι) :=
  let moved := { s.remove s.pendingReady with pendingReady := [] }
  let moved := if s.pendingReady = [] then moved else moved.resetNextTaskUnblockTime
  (incrementTicks s.pendedTicks { moved with pendedTicks := 0 })

def Ready (s : Delays ι) (i : ι) : Prop :=
  i ∉ s.delayed.map Prod.fst ∧ i ∉ s.overflowDelayed.map Prod.fst ∧ i ∉ s.suspendedTasks

instance (s : Delays ι) (i : ι) : Decidable (s.Ready i) := inferInstanceAs (Decidable (_ ∧ _ ∧ _))

end Delays

/-- What happens to the waiting tasks: a task begins to wait, for a number of ticks or for an event
only; or ticks pass, before which some tasks are called for an event, and some tasks' time comes. -/
inductive Waiting (ι : Type) where
  | silent
  | sleeps (i : ι) (ticks : Nat)
  | waits (i : ι)
  | passes (called : List ι) (ticks : Nat) (expired : List ι)

inductive DelayAction (ι : Type) where
  | tick
  | suspendAll
  | resumeAll
  /-- a running task enters a delayed list -/
  | block (i : ι) (ticks : Nat) (canBlockIndefinitely : Bool)
  /-- `xTaskRemoveFromEventList` takes a task from an event list -/
  | call (i : ι)

namespace Delays

variable [DecidableEq ι]

/-- A step. A task that is ready blocks for at least one tick; a task that is called waits and was not
called before. -/
def step (s : Delays ι) : DelayAction ι → Option (Waiting ι × Delays ι)
  | .tick =>
    if s.schedulerSuspended = 0 then
      s.incrementTick.map fun r => (.passes [] 1 r.1, r.2)
    else some (.silent, { s with pendedTicks := (s.pendedTicks + 1) % tickSize })
  | .suspendAll => some (.silent, { s with schedulerSuspended := s.schedulerSuspended + 1 })
  | .resumeAll =>
    if s.schedulerSuspended = 0 then none
    else if s.schedulerSuspended = 1 then
      (resume { s with schedulerSuspended := 0 }).map fun r =>
        (.passes s.pendingReady s.pendedTicks r.1, r.2)
    else some (.silent, { s with schedulerSuspended := s.schedulerSuspended - 1 })
  | .block i ticks canBlockIndefinitely =>
    if s.Ready i ∧ 0 < ticks ∧ ticks < tickSize then
      some (if ticks = maxDelay ∧ canBlockIndefinitely then .waits i else .sleeps i ticks,
        s.addCurrentTaskToDelayedList i ticks canBlockIndefinitely)
    else none
  | .call i =>
    if ¬ s.Ready i ∧ i ∉ s.pendingReady then
      if s.schedulerSuspended = 0 then some (.passes [i] 0 [], s.remove [i])
      else some (.silent, { s with pendingReady := s.pendingReady ++ [i] })
    else none

def start : Delays ι where
  tickCount := 0
  numOfOverflows := 0
  nextTaskUnblockTime := maxDelay
  delayed := []
  overflowDelayed := []
  suspendedTasks := []
  pendingReady := []
  schedulerSuspended := 0
  pendedTicks := 0

end Delays

end Rtos
end Air101
