import Air101.Rtos.Queue
import Air101.Storage.Tally

/-!
# Rtos.Calls

Tasks and interrupt handlers at one queue (`src/os/rtos/source/queue.c`): `xQueueGenericSend`,
`xQueueReceive` and `xQueuePeek` with `prvLockQueue` and `prvUnlockQueue`, and their variants for
interrupt handlers.

A step is one critical section of a task, or a call from an interrupt handler, which may come between
any two of them. A task whose scheduler is suspended is the only one that goes on. When the time of a
call is over is not modelled: `xTaskCheckForTimeOut` says so at any call, and a blocked task may be
taken from its list at any time. The types of queues with mutexes, queue sets, `xQueueReset` and
`vQueueDelete` are left out.
-/

namespace Air101
namespace Rtos

open Storage

/-- The tasks waiting to send, and those waiting to receive. -/
inductive Side where
  | send
  | receive
  deriving DecidableEq

inductive Request where
  | send (item : List Byte) (position : Position)
  | receive
  | peek

/-- What a step does to the items, or the answer of a call that fails. -/
inductive Effect where
  | silent
  | sent (item : List Byte) (position : Position)
  | received (item : List Byte)
  | peeked (item : List Byte)
  | full
  | empty
  | gaveUp

namespace Request

def side : Request → Side
  | .send _ _ => .send
  | .receive => .receive
  | .peek => .receive

/-- What the assertions at the beginning of a call demand. -/
def Valid (q : Queue) : Request → Prop
  | .send item position =>
    item.length = q.itemSize ∧ (position = .overwrite → q.length = 1 ∧ 0 < q.itemSize)
  | _ => True

instance (q : Queue) (r : Request) : Decidable (r.Valid q) := by
  cases r with
  | send item position => exact inferInstanceAs (Decidable (_ ∧ (_ → _)))
  | receive => exact inferInstanceAs (Decidable True)
  | peek => exact inferInstanceAs (Decidable True)

/-- The condition in the first critical section. -/
def Ready (q : Queue) : Request → Prop
  | .send _ position => q.messagesWaiting < q.length ∨ position = .overwrite
  | _ => q.messagesWaiting > 0

instance (q : Queue) (r : Request) : Decidable (r.Ready q) := by
  cases r with
  | send item position => exact inferInstanceAs (Decidable (_ ∨ _))
  | receive => exact inferInstanceAs (Decidable (_ > _))
  | peek => exact inferInstanceAs (Decidable (_ > _))

/-- What the call does then: its effect, the queue, and the list that it takes a task from. -/
def perform (q : Queue) : Request → Effect × Queue × Side
  | .send item position => (.sent item position, q.copyDataToQueue item position, .receive)
  | .receive =>
    let r := q.copyDataFromQueue
    (.received r.1, { r.2 with messagesWaiting := q.messagesWaiting - 1 }, .send)
  | .peek => (.peeked q.copyDataFromQueue.1, q, .receive)

/-- `errQUEUE_FULL` or `errQUEUE_EMPTY` -/
def failure : Request → Effect
  | .send _ _ => .full
  | .receive => .empty
  | .peek => .empty

/-- `prvIsQueueFull` or `prvIsQueueEmpty` -/
def Blocked (q : Queue) (r : Request) : Prop :=
  match r.side with
  | .send => q.messagesWaiting = q.length
  | .receive => q.messagesWaiting = 0

instance (q : Queue) (r : Request) : Decidable (r.Blocked q) := by
  unfold Blocked
  cases r.side with
  | send => exact inferInstanceAs (Decidable (_ = _))
  | receive => exact inferInstanceAs (Decidable (_ = _))

end Request

/-- What follows when the scheduler is resumed: another turn of the loop, a wait on the list, or the
end of the call. -/
inductive After where
  | retry (woken : Bool)
  | block
  | timeout
  deriving DecidableEq

/-- What a task does next. `woken` is set if it was taken from the list because of the other side. -/
inductive Stage where
  | entry (woken : Bool)
  | suspendAll
  | lockQueue
  | checkForTimeOut
  | isBlocked
  | placeOnEventList
  | unlockQueue (side : Side) (next : After)
  | resumeAll (next : After)
  | blocked
  | timedOut
  deriving DecidableEq

/-- A call of a task; `waits` says whether `xTicksToWait` is not 0. -/
structure Call where
  request : Request
  waits : Bool
  stage : Stage

/-- A task is taken from its event list: it does not block, or not any longer. -/
def Stage.wake : Stage → Stage
  | .blocked => .entry true
  | .unlockQueue side .block => .unlockQueue side (.retry true)
  | .resumeAll .block => .resumeAll (.retry true)
  | stage => stage

def Call.goto (c : Call) (stage : Stage) : Call := { c with stage }

variable {ι : Type}

/-- The queue with its event lists, and the tasks with their priorities. `lock .receive` is `cTxLock`:
the items sent since the queue was locked; `lock .send` is `cRxLock`. -/
structure Sys (ι : Type) where
  q : Queue
  waiters : Side → List ι
  lock : Side → Int
  priority : ι → Nat
  calls : ι → Option Call
  /-- the task that has suspended the scheduler -/
  suspended : Option ι

/-- `queueUNLOCKED` -/
def unlocked : Int := -1

/-- `vListInsert` into an event list: behind all tasks of at least the same priority. -/
def insertByPriority (priority : ι → Nat) (i : ι) (l : List ι) : List ι :=
  l.takeWhile (fun j => priority i ≤ priority j) ++
    i :: l.dropWhile (fun j => priority i ≤ priority j)

namespace Sys

variable [DecidableEq ι]

/-- `xTaskRemoveFromEventList`, `n` times as long as there is a task. -/
def wake (s : Sys ι) (side : Side) (n : Nat) : Sys ι :=
  { s with
    waiters := Function.update s.waiters side ((s.waiters side).drop n)
    calls := mapOn ((s.waiters side).take n) (Option.map fun c => c.goto c.stage.wake) s.calls }

def setCall (s : Sys ι) (i : ι) (c : Option Call) : Sys ι :=
  { s with calls := Function.update s.calls i c }

/-- The first critical section of a call. -/
def entry (s : Sys ι) (i : ι) (c : Call) : Effect × Sys ι :=
  if c.request.Ready s.q then
    let (effect, q, side) := c.request.perform s.q
    (effect, ({ s with q }.setCall i none).wake side 1)
  else if !c.waits then (c.request.failure, s.setCall i none)
  else (.silent, s.setCall i (some (c.goto .suspendAll)))

/-- `prvLockQueue` -/
def lockQueue (s : Sys ι) : Sys ι :=
  { s with lock := fun side => if s.lock side = unlocked then 0 else s.lock side }

/-- One of the two loops of `prvUnlockQueue`. -/
def unlockQueue (s : Sys ι) (side : Side) : Sys ι :=
  { s.wake side (s.lock side).toNat with lock := Function.update s.lock side unlocked }

/-- The next critical section of a task; `expired` is what `xTaskCheckForTimeOut` says. -/
def turn (s : Sys ι) (i : ι) (expired : Bool) : Option (Effect × Sys ι) :=
  match s.calls i with
  | none => none
  | some c =>
    match c.stage with
    | .entry _ => if s.suspended = none then some (s.entry i c) else none
    | .suspendAll =>
      if s.suspended = none then
        some (.silent, { s.setCall i (some (c.goto .lockQueue)) with suspended := some i })
      else none
    | .lockQueue => some (.silent, s.lockQueue.setCall i (some (c.goto .checkForTimeOut)))
    | .checkForTimeOut =>
      -- when the time is over there are no ticks left to wait
      some (.silent, s.setCall i (some (if expired then
        { c with waits := false, stage := .unlockQueue .receive .timeout } else c.goto .isBlocked)))
    | .isBlocked =>
      some (.silent, s.setCall i (some (c.goto (if c.request.Blocked s.q then .placeOnEventList
        else .unlockQueue .receive (.retry false)))))
    | .placeOnEventList =>
      let side := c.request.side
      some (.silent,
        { s.setCall i (some (c.goto (.unlockQueue .receive .block))) with
          waiters := Function.update s.waiters side
            (insertByPriority s.priority i (s.waiters side)) })
    | .unlockQueue .receive next =>
      some (.silent, (s.setCall i (some (c.goto (.unlockQueue .send next)))).unlockQueue .receive)
    | .unlockQueue .send next =>
      some (.silent, (s.setCall i (some (c.goto (.resumeAll next)))).unlockQueue .send)
    | .resumeAll next =>
      match next with
      | .retry woken =>
        some (.silent, { s.setCall i (some (c.goto (.entry woken))) with suspended := none })
      | .block => some (.silent, { s.setCall i (some (c.goto .blocked)) with suspended := none })
      | .timeout =>
        if c.request.side = .send then
          some (.gaveUp, { s.setCall i none with suspended := none })
        else some (.silent, { s.setCall i (some (c.goto .timedOut)) with suspended := none })
    | .blocked => none
    | .timedOut =>
      if s.suspended = none then
        if s.q.messagesWaiting = 0 then some (.empty, s.setCall i none)
        else some (.silent, s.setCall i (some (c.goto (.entry false))))
      else none

/-- The calls for interrupt handlers. They leave the lists of a locked queue alone and count; the
count must not pass `queueINT8_MAX`. -/
def fromISR (s : Sys ι) (r : Request) : Option (Effect × Sys ι) :=
  if r.Ready s.q then
    match r with
    | .peek => some (.peeked s.q.copyDataFromQueue.1, s)
    | r =>
      let (effect, q, side) := r.perform s.q
      if s.lock side = unlocked then some (effect, { s with q }.wake side 1)
      else if s.lock side = 127 then none
      else some (effect, { s with q, lock := Function.update s.lock side (s.lock side + 1) })
  else some (r.failure, s)

end Sys

inductive Action (ι : Type) where
  | call (i : ι) (request : Request) (waits : Bool)
  | turn (i : ι) (expired : Bool)
  | timeout (i : ι)
  | fromISR (request : Request)

variable [DecidableEq ι]

/-- A step. A blocked task whose time is over is taken from its list by the tick, which a suspended
scheduler puts off. -/
def step (s : Sys ι) : Action ι → Option (Effect × Sys ι)
  | .call i request waits =>
    if s.calls i = none ∧ s.suspended = none ∧ request.Valid s.q then
      some (.silent, s.setCall i (some ⟨request, waits, .entry false⟩))
    else none
  | .turn i expired => s.turn i expired
  | .timeout i =>
    match s.calls i with
    | none => none
    | some c =>
      if c.stage = .blocked ∧ s.suspended = none then
        let side := c.request.side
        some (.silent,
          { s.setCall i (some (c.goto (.entry false))) with
            waiters := Function.update s.waiters side ((s.waiters side).erase i) })
      else none
  | .fromISR request => if request.Valid s.q then s.fromISR request else none

def Sys.start (q : Queue) (priority : ι → Nat) : Sys ι where
  q
  waiters := fun _ => []
  lock := fun _ => unlocked
  priority
  calls := fun _ => none
  suspended := none

end Rtos
end Air101
