import Air101.Storage.Paths
import Air101.Task.Ledger

/-!
# Task.Mailbox

The message layer of the wl task (`platform/common/task/wm_wl_task.c`, `wm_wl_mbox.c`): callers of
`tls_wl_task_callback`, `tls_wl_task_callback_static`, `tls_wl_task_add_timeout` and
`tls_wl_task_untimeout` post messages to one mailbox, and `task_thread` handles them.

A message is a record of its own, or one of the records `wl_msg`, which the calls with the same `msg_id`
share. A step is one access to such a record, or one attempt to send: `tls_os_queue_send` succeeds exactly
when the mailbox has room. The reads and writes of `cnt` in `cnt++` and `cnt--` are steps of their own.
The `type` of a record of `wl_msg` never changes once it was posted, so it is left out, and so are the
timeouts that `task_thread` serves while it waits.

Every call draws a ticket; `asked`, `status` and `handled` are what an observer writes down.
-/

namespace Air101
namespace Task

open Storage

/-- What a message asks `task_thread` to do. -/
inductive Work where
  | callback (function ctx : Nat)
  | timeout (msecs h arg : Nat)
  | untimeout (h arg : Nat)
  deriving DecidableEq, Repr

/-- A message in the mailbox, with the ticket of the call that posted it. -/
inductive Msg where
  | own (ticket : Nat) (work : Work)
  | shared (ticket : Nat) (id : Fin 9)
  deriving DecidableEq, Repr

def Msg.ticket : Msg → Nat
  | .own k _ => k
  | .shared k _ => k

/-- A record of `wl_msg`. -/
structure Slot where
  function : Nat
  ctx : Nat
  cnt : BitVec 8

inductive Request where
  | callback (function ctx : Nat) (block : Bool)
  | callbackStatic (function ctx : Nat) (block : Bool) (id : Fin 9)
  | addTimeout (msecs h arg : Nat)
  | untimeout (h arg : Nat)

/-- What `task_thread` is to do for a call. -/
def Request.work : Request → Work
  | .callback function ctx _ => .callback function ctx
  | .callbackStatic function ctx _ _ => .callback function ctx
  | .addTimeout msecs h arg => .timeout msecs h arg
  | .untimeout h arg => .untimeout h arg

/-- Whether a call posts with `tls_mbox_post`, rather than with `tls_mbox_trypost`. -/
def Request.block : Request → Bool
  | .callback _ _ block => block
  | .callbackStatic _ _ block _ => block
  | .addTimeout _ _ _ => true
  | .untimeout _ _ => true

/-- Where a caller stands; `tries` counts the attempts to send that have failed. -/
inductive Caller where
  | idle
  | posting (ticket : Nat) (work : Work) (block : Bool) (tries : Nat)
  | tested (ticket : Nat) (id : Fin 9) (function ctx : Nat) (block : Bool)
  | wroteFunction (ticket : Nat) (id : Fin 9) (function ctx : Nat) (block : Bool)
  | sending (ticket : Nat) (id : Fin 9) (function ctx : Nat) (block : Bool) (tries : Nat)
  | posted (ticket : Nat) (id : Fin 9)
  | loaded (ticket : Nat) (id : Fin 9) (cnt : BitVec 8)

/-- Where `task_thread` stands. -/
inductive Thread where
  | fetch
  | got (msg : Msg)
  | tookFunction (ticket : Nat) (id : Fin 9) (function : Nat)
  | took (ticket : Nat) (id : Fin 9) (function ctx : Nat)
  | loaded (ticket : Nat) (id : Fin 9) (function ctx : Nat) (cnt : BitVec 8)
  | calling (ticket function ctx : Nat)

/-- The mailbox with its size, the shared records, the callers and the thread, and the observer's notes. -/
structure Sys where
  size : Nat
  valid : Bool
  mbox : List Msg
  wlMsg : Fin 9 → Slot
  callers : Nat → Caller
  thread : Thread
  tickets : Nat
  asked : Nat → Work
  status : Nat → CallStatus
  handled : List (Nat × Work)

namespace Sys

def Room (s : Sys) : Prop := s.mbox.length < s.size

instance (s : Sys) : Decidable s.Room := inferInstanceAs (Decidable (s.mbox.length < s.size))

def goto (s : Sys) (j : Nat) (c : Caller) : Sys := { s with callers := Function.update s.callers j c }

def ret (s : Sys) (j k : Nat) (st : CallStatus) : Sys :=
  { s.goto j .idle with status := Function.update s.status k st }

def setSlot (s : Sys) (id : Fin 9) (x : Slot) : Sys := { s with wlMsg := Function.update s.wlMsg id x }

def send (s : Sys) (m : Msg) : Sys := { s with mbox := s.mbox ++ [m] }

def draw (s : Sys) (w : Work) (st : CallStatus) : Sys :=
  { s with
    tickets := s.tickets + 1
    asked := Function.update s.asked s.tickets w
    status := Function.update s.status s.tickets st }

/-- A call begins, up to its first attempt to send, or in `tls_wl_task_callback_static` up to its first
write; `heap` says whether `tls_mem_alloc` finds memory. -/
def begin (s : Sys) (j : Nat) (r : Request) (heap : Bool) : Sys :=
  match r with
  | .callbackStatic function ctx block id =>
    if 0#8 < (s.wlMsg id).cnt then s.draw r.work .failed
    else if s.valid = true then (s.draw r.work .running).goto j (.tested s.tickets id function ctx block)
    else s.draw r.work .failed
  | r =>
    if s.valid = true ∧ heap = true then
      (s.draw r.work .running).goto j (.posting s.tickets r.work r.block 0)
    else s.draw r.work .failed

/-- The next step of a caller in its call. A blocking post that fails ten times returns like one that
succeeds. -/
def go (s : Sys) (j : Nat) : Option Sys :=
  match s.callers j with
  | .idle => none
  | .posting k w block tries =>
    if s.Room then some ((s.send (.own k w)).ret j k .succeeded)
    else if block = true then
      if tries + 1 < 10 then some (s.goto j (.posting k w block (tries + 1)))
      else some (s.ret j k .succeeded)
    else some (s.ret j k .failed)
  | .tested k id function ctx block =>
    some ((s.setSlot id { s.wlMsg id with function := function }).goto j
      (.wroteFunction k id function ctx block))
  | .wroteFunction k id function ctx block =>
    some ((s.setSlot id { s.wlMsg id with ctx := ctx }).goto j (.sending k id function ctx block 0))
  | .sending k id function ctx block tries =>
    if s.Room then some ((s.send (.shared k id)).goto j (.posted k id))
    else if block = true then
      if tries + 1 < 10 then some (s.goto j (.sending k id function ctx block (tries + 1)))
      else some (s.goto j (.posted k id))
    else some (s.ret j k .failed)
  | .posted k id => some (s.goto j (.loaded k id (s.wlMsg id).cnt))
  | .loaded k id cnt =>
    some ((s.setSlot id { s.wlMsg id with cnt := cnt + 1#8 }).ret j k .succeeded)

/-- `task_thread` does what a message asks for. -/
def handle (s : Sys) (k : Nat) (w : Work) : Sys :=
  { s with handled := s.handled ++ [(k, w)], thread := .fetch }

/-- The next step of `task_thread`; it blocks on an empty mailbox. -/
def threadStep (s : Sys) : Option Sys :=
  match s.thread with
  | .fetch =>
    match s.mbox with
    | [] => none
    | m :: rest => some { s with mbox := rest, thread := .got m }
  | .got (.own k w) => some (s.handle k w)
  | .got (.shared k id) => some { s with thread := .tookFunction k id (s.wlMsg id).function }
  | .tookFunction k id function => some { s with thread := .took k id function (s.wlMsg id).ctx }
  | .took k id function ctx => some { s with thread := .loaded k id function ctx (s.wlMsg id).cnt }
  | .loaded k id function ctx cnt =>
    some { s.setSlot id { s.wlMsg id with cnt := cnt - 1#8 } with thread := .calling k function ctx }
  | .calling k function ctx => some (s.handle k (.callback function ctx))

end Sys

/-- A step: a caller begins a call, a caller goes on, or the thread goes on. -/
inductive Act where
  | call (j : Nat) (r : Request) (heap : Bool)
  | go (j : Nat)
  | thread

def Act.isThread : Act → Bool
  | .thread => true
  | _ => false

/-- One step; `none` where the caller is in a call, or has none, or the thread blocks. -/
def Sys.step (s : Sys) : Act → Option Sys
  | .call j r heap =>
    match s.callers j with
    | .idle => some (s.begin j r heap)
    | _ => none
  | .go j => s.go j
  | .thread => s.threadStep

/-- After `tls_wl_task_init` and `tls_wl_task_run` with a mailbox of the given size. -/
def Sys.start (size : Nat) : Sys :=
  { size := if size = 0 then 10 else size
    valid := true
    mbox := []
    wlMsg := fun _ => ⟨0, 0, 0#8⟩
    callers := fun _ => .idle
    thread := .fetch
    tickets := 0
    asked := fun _ => .callback 0 0
    status := fun _ => .unused
    handled := [] }

end Task
end Air101
