import Air101.Storage.Runs
import Mathlib.Algebra.Ring.Nat
import Mathlib.Logic.Function.Basic

/-!
# Timer.Csr

The hardware timers (`platform/drivers/timer/wm_timer.c`): six timers share the register `HR_TIMER0_5_CSR`, with
four bits of configuration for each and one bit that is set while its interrupt is pending. Software clears that bit
by writing 1 to it (`csrWrite`).

A step is one access to the register with the code up to the next one, or an expiration, which may come between
any two of them. A call starts only when the one before it has done its last access.

`log` is what an observer writes down: the expirations of started timers and the calls of their callbacks.
`HR_TIMER_CFG`, the periods and the clock gate have registers of their own and are left out.
-/

namespace Air101
namespace Timer

open Storage

def timerMsUnit (n : Nat) : BitVec 32 := 1#32 <<< (0 + 5 * n)
def timerOneTime (n : Nat) : BitVec 32 := 1#32 <<< (1 + 5 * n)
def timerEn (n : Nat) : BitVec 32 := 1#32 <<< (2 + 5 * n)
def timerIntEn (n : Nat) : BitVec 32 := 1#32 <<< (3 + 5 * n)
def timerIntClr (n : Nat) : BitVec 32 := 1#32 <<< (4 + 5 * n)

/-- The bits of the register that are set while an interrupt is pending. -/
def pendingMask : BitVec 32 := 0x21084210#32

/-- A write: configuration bits take the value written, pending bits are cleared where it has a 1. -/
def csrWrite (csr value : BitVec 32) : BitVec 32 :=
  (value &&& ~~~pendingMask) ||| (csr &&& pendingMask &&& ~~~value)

def pending (csr : BitVec 32) (j : Nat) : Bool := csr.getLsbD (4 + 5 * j)

def config (csr : BitVec 32) (j : Nat) : BitVec 4 := csr.extractLsb' (5 * j) 4

/-- The places where the driver reads the register, changes the value and writes it back; `i` is the timer that the
operation is on. -/
inductive Rmw where
  /-- `tls_timer_create`. -/
  | configure (i : Nat) (isRepeat ms : Bool)
  /-- `tls_timer_start`. -/
  | enable (i : Nat)
  /-- The first of `tls_timer_stop`. -/
  | clear (i : Nat)
  /-- The second of `tls_timer_stop`. -/
  | disable (i : Nat)
  /-- The second of `tls_timer_stop` in `tls_timer_destroy`, which then gives up the timer. -/
  | release (i : Nat)
  /-- `TIMER0_5_IRQHandler`, which then calls the callbacks. -/
  | handle

def Rmw.timer : Rmw → Option Nat
  | .configure i _ _ | .enable i | .clear i | .disable i | .release i => some i
  | .handle => none

/-- The value that is written, for the value `timerCsr` that was read. -/
def Rmw.value (timerCsr : BitVec 32) : Rmw → BitVec 32
  | .configure i isRepeat ms =>
    let timerCsr := if isRepeat then timerCsr &&& ~~~timerOneTime i else timerCsr ||| timerOneTime i
    let timerCsr := if ms then timerCsr ||| timerMsUnit i else timerCsr &&& ~~~timerMsUnit i
    timerCsr ||| timerIntClr i
  | .enable i => timerCsr ||| timerIntEn i ||| timerEn i
  | .clear i => timerCsr ||| timerIntClr i
  | .disable i | .release i => timerCsr &&& ~~~timerEn i
  | .handle => timerCsr

inductive Obs where
  | expired (j : Nat)
  | called (j : Nat) (callback : Nat)
  deriving DecidableEq

structure Sys where
  /-- `HR_TIMER0_5_CSR`. -/
  csr : BitVec 32
  /-- `wm_timer_bitmap`. -/
  bitmap : BitVec 8
  /-- `timer_context[j].callback`. -/
  callback : Nat → Option Nat
  /-- What the call in execution has still to do. -/
  todo : List Rmw
  fetched : Bool
  timerCsr : BitVec 32
  log : List Obs

inductive Call where
  | create (isRepeat ms : Bool) (callback : Option Nat)
  | start (timerId : Nat)
  | stop (timerId : Nat)
  | change (timerId : Nat)
  | destroy (timerId : Nat)
  | irq

def Sys.onTimer (s : Sys) (i : Nat) (todo : List Rmw) : Sys :=
  if s.bitmap.getLsbD i then { s with todo, fetched := false } else s

def freeTimer (bitmap : BitVec 8) : Option Nat := (List.range 6).find? fun i => !bitmap.getLsbD i

/-- A call up to its first access. -/
def Sys.call (s : Sys) : Call → Sys
  | .create isRepeat ms callback =>
    match freeTimer s.bitmap with
    | none => s
    | some i =>
      { s with
        bitmap := s.bitmap ||| 1#8 <<< i
        callback := Function.update s.callback i callback
        todo := [.configure i isRepeat ms]
        fetched := false }
  | .start i => s.onTimer i [.enable i]
  | .stop i => s.onTimer i [.clear i, .disable i]
  | .change i => s.onTimer i [.clear i, .disable i, .enable i]
  | .destroy i => s.onTimer i [.clear i, .release i]
  | .irq => { s with todo := [.handle], fetched := false }

def Sys.callbacks (s : Sys) : List Obs :=
  (List.range 6).filterMap fun j => if pending s.timerCsr j then (s.callback j).map (.called j) else none

/-- A write, with the code up to the next access. -/
def Sys.write (s : Sys) (a : Rmw) (rest : List Rmw) : Sys :=
  let s := { s with csr := csrWrite s.csr (a.value s.timerCsr), todo := rest, fetched := false }
  match a with
  | .handle => { s with log := s.log ++ s.callbacks }
  | .release i =>
    { s with callback := Function.update s.callback i none, bitmap := s.bitmap &&& ~~~(1#8 <<< i) }
  | _ => s

def Sys.started (s : Sys) (j : Nat) : Bool :=
  s.bitmap.getLsbD j && s.csr.getLsbD (2 + 5 * j) && (s.callback j).isSome

inductive Step where
  | call (c : Call)
  | access
  | expire (j : Nat)

def step (s : Sys) : Step → Sys
  | .call c => match s.todo with
    | [] => s.call c
    | _ => s
  | .access => match s.todo with
    | [] => s
    | a :: rest => if s.fetched then s.write a rest else { s with timerCsr := s.csr, fetched := true }
  | .expire j =>
    { s with
      csr := s.csr ||| timerIntClr j
      log := if s.started j then s.log ++ [.expired j] else s.log }

def init : Sys :=
  { csr := 0#32, bitmap := 0#8, callback := fun _ => none, todo := [], fetched := false, timerCsr := 0#32, log := [] }

end Timer
end Air101
