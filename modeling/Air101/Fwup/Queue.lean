import Air101.Fwup.Sessions
import Air101.Storage.Paths
import Mathlib

/-!
# Fwup.Queue

The update task and its clients (`platform/common/fwup/wm_fwup.c`): `fwup_scheduler` walks over
`wait_list`, which any number of tasks extend through `tls_fwup_request_sync`, while others call
`tls_fwup_enter`, `tls_fwup_exit` and `tls_fwup_reset`.

A step is what happens between two places where another task may be seen. `list_lock` makes the test of
`tls_fwup_request_async` for an empty list and its append one step; the scheduler deletes under the same
lock, but reads the list without it. A read of a `next` pointer and the walk's test of it are one step,
since only the scheduler takes elements away.

The request of a call lives on its client's stack, so a client's number stands for it in `wait_list`.
A copy to a NULL cache is an exception of the CPU, and `trap_c` resets the system.

* `client_moves`, `append_spec`, `post_spec`: what the steps of clients do; `sched_moves`: what a step of
  the scheduler does.
* `step_owned`: a waiting request belongs to a call that waits for it.
* `exit_alone`, `reset_alone`, `enter_alone`: the calls whose two steps no other task comes between are
  those of the sequential model.
-/

namespace Air101
namespace Fwup

open Storage
open Crypto
open Fls

/-- Where a client stands in the call it is making. -/
inductive Pc where
  | idle
  | called
  | checked
  | posting
  | waiting
  | exiting
  | resetting
  | entering
  deriving DecidableEq, Repr

/-- A client: its call, with the arguments of `tls_fwup_request_sync`, the status in its request and
whether its semaphore has been released. `epoch` is the one in which its session id was tested. -/
structure Client where
  pc : Pc
  sessionId : Nat
  data : List Byte
  status : ReqStatus
  released : Bool
  epoch : Nat

/-- A client that makes no call. -/
def Client.fresh : Client := ⟨.idle, 0, [], .idle, false, 0⟩

/-- Where `fwup_scheduler` stands. In its walk over the list it has an element and, in `temp`, the
element behind it, `none` for the list's head. -/
inductive Sched where
  | receive
  | started
  | setBusy
  | fetch
  | process (i : Nat) (temp : Option Nat)
  | delete (i : Nat) (temp : Option Nat)
  | test (i : Nat) (temp : Option Nat)
  | clear (i : Nat) (temp : Option Nat)
  | finish (i : Nat) (temp : Option Nat)
  | advance (temp : Option Nat)
  deriving DecidableEq, Repr

/-- The module, its task and its clients. `installed` is `fwup != NULL`; `queue` counts the messages in
`fwup_msg_queue`. `epoch` counts how often the counters of the stream were cleared; the code has no
such variable. -/
structure Sys where
  fwup : State
  installed : Bool
  waitList : List Nat
  queue : Nat
  sched : Sched
  clients : Nat → Client
  epoch : Nat

namespace Sys

/-- The record of one client changes. -/
def set (s : Sys) (i : Nat) (c : Client) : Sys :=
  { s with clients := fun j => if j = i then c else s.clients j }

/-- A client goes on in its call. -/
def goto (s : Sys) (i : Nat) (pc : Pc) : Sys := s.set i { s.clients i with pc := pc }

/-- `tls_sys_reset`: everything but the flash starts again. -/
def boot (s : Sys) : Sys :=
  { fwup := reboot s.fwup
    installed := false
    waitList := []
    queue := 0
    sched := .receive
    clients := fun _ => .fresh
    epoch := s.epoch }

/-- `TLS_FWUP_STATE_BUSY` in `current_state`. -/
def markBusy (s : Sys) (b : Bool) : Sys :=
  { s with fwup := { s.fwup with currentState := { s.fwup.currentState with busy := b } } }

end Sys

/-- The element behind `i`, `none` for the list's head. -/
def nextOf (i : Nat) : List Nat → Option Nat
  | [] => none
  | x :: xs => if x = i then xs.head? else nextOf i xs

section Scheduler

variable (hw : Engine) (t : Target)

/-- The next step of `fwup_scheduler`; it blocks in `tls_os_queue_receive` on an empty queue. -/
def Sys.schedStep (junk : List Byte) (heap : Bool) (s : Sys) : Option Sys :=
  match s.sched with
  | .receive => if s.queue = 0 then none else some { s with queue := s.queue - 1, sched := .started }
  | .started => some { s with sched := if s.waitList = [] then .fetch else .setBusy }
  | .setBusy => some { s.markBusy true with sched := .fetch }
  | .fetch =>
    match s.waitList with
    | [] => some { s with sched := .receive }
    | i :: rest => some { s with sched := .process i rest.head? }
  | .process i temp =>
    match s.fwup.request hw t junk heap (s.clients i).data with
    | none => some s.boot
    | some (f, st) =>
      some { s.set i { s.clients i with status := st } with fwup := f, sched := .delete i temp }
  | .delete i temp => some { s with waitList := s.waitList.erase i, sched := .test i temp }
  | .test i temp => some { s with sched := if s.waitList = [] then .clear i temp else .finish i temp }
  | .clear i temp => some { s.markBusy false with sched := .finish i temp }
  | .finish i temp =>
    if s.fwup.resets (s.clients i).status then some s.boot
    else some { s.set i { s.clients i with released := true } with sched := .advance temp }
  | .advance none => some { s with sched := .receive }
  | .advance (some i) => some { s with sched := .process i (nextOf i s.waitList) }

/-- What a step can be: of the scheduler, with what the stack and the heap give it; of a client in
`tls_fwup_request_sync` and `tls_fwup_request_async`; of a client in one of the other calls, up to the
end of its tests or in its critical section. -/
inductive Act where
  | sched (junk : List Byte) (heap : Bool)
  | call (i sessionId : Nat) (data : List Byte) (sem : Bool)
  | check (i : Nat)
  | append (i : Nat)
  | post (i : Nat)
  | wake (i : Nat)
  | exitTest (i sessionId : Nat)
  | resetTest (i sessionId : Nat)
  | enterTest (i : Nat) (mem : Bool)
  | exitCommit (i : Nat)
  | resetCommit (i : Nat)
  | enterCommit (i sessionId : Nat) (mem : Option (List Byte))

def Act.isSched : Act → Bool
  | .sched _ _ => true
  | _ => false

/-- One step; `none` where it is not the next one of its task, or the task blocks. A call that returns an
error leaves its client idle. -/
def Sys.step (s : Sys) : Act → Option Sys
  | .sched junk heap => s.schedStep hw t junk heap
  | .call i sessionId data sem =>
    if (s.clients i).pc = .idle then
      if s.installed = true ∧ sessionId = s.fwup.currentSessionId ∧ data ≠ [] ∧ sem = true then
        some (s.set i ⟨.called, sessionId, data, (s.clients i).status, false, (s.clients i).epoch⟩)
      else some s
    else none
  | .check i =>
    if (s.clients i).pc = .called then
      if (s.clients i).sessionId = s.fwup.currentSessionId then
        some (s.set i { s.clients i with pc := .checked, epoch := s.epoch })
      else some (s.goto i .idle)
    else none
  | .append i =>
    if (s.clients i).pc = .checked then
      some { s.set i { s.clients i with
          pc := if s.waitList = [] then .posting else .waiting
          status := .idle } with
        waitList := s.waitList ++ [i] }
    else none
  | .post i =>
    if (s.clients i).pc = .posting then
      some { s.goto i .waiting with queue := if s.queue < 4 then s.queue + 1 else s.queue }
    else none
  | .wake i =>
    if (s.clients i).pc = .waiting ∧ (s.clients i).released = true then some (s.goto i .idle) else none
  | .exitTest i sessionId =>
    if (s.clients i).pc = .idle then
      if s.installed = true ∧ exitCheck sessionId s.fwup = .ok then some (s.goto i .exiting) else some s
    else none
  | .resetTest i sessionId =>
    if (s.clients i).pc = .idle then
      if s.installed = true ∧ exitCheck sessionId s.fwup = .ok then some (s.goto i .resetting) else some s
    else none
  | .enterTest i mem =>
    if (s.clients i).pc = .idle then
      let s := { s with installed := s.installed || mem }
      if s.installed = true ∧ s.fwup.busy = false then some (s.goto i .entering) else some s
    else none
  | .exitCommit i =>
    if (s.clients i).pc = .exiting then
      some { s.goto i .idle with
        fwup := { s.fwup.clear with currentSessionId := 0, busy := false }
        epoch := s.epoch + 1 }
    else none
  | .resetCommit i =>
    if (s.clients i).pc = .resetting then
      some { s.goto i .idle with fwup := s.fwup.clear, epoch := s.epoch + 1 }
    else none
  | .enterCommit i sessionId mem =>
    if (s.clients i).pc = .entering ∧ sessionId ≠ 0 then
      some { s.goto i .idle with
        fwup := { s.fwup.clear with
          currentSessionId := sessionId
          busy := true
          fast := (tlsFlsFastWriteInit mem s.fwup.fast).2 }
        epoch := s.epoch + 1 }
    else none

end Scheduler

/-! ## Steps of clients -/

section Clients

variable {hw : Engine} {t : Target} {s s' : Sys} {a : Act} {i : Nat} {temp : Option Nat}

/-- A client has still to post the message for its append to an empty list. -/
def Sys.Posting (s : Sys) (i : Nat) : Prop := (s.clients i).pc = .posting

/-- The list, the messages and the scheduler are as they were. -/
structure Sys.SameQueue (s s' : Sys) : Prop where
  list : s'.waitList = s.waitList
  queue : s'.queue = s.queue
  sched : s'.sched = s.sched
  posting : ∀ i, s'.Posting i ↔ s.Posting i

/-- The steps that do not touch the list. -/
def Act.Quiet : Act → Prop
  | .sched _ _ => False
  | .append _ => False
  | .post _ => False
  | _ => True

theorem act_cases (a : Act) : (∃ junk heap, a = .sched junk heap) ∨ (∃ i, a = .append i) ∨
    (∃ i, a = .post i) ∨ a.Quiet := by
  cases a with
  | sched junk heap => exact .inl ⟨junk, heap, rfl⟩
  | append i => exact .inr (.inl ⟨i, rfl⟩)
  | post i => exact .inr (.inr (.inl ⟨i, rfl⟩))
  | _ => exact .inr (.inr (.inr trivial))

/-- A client that has no request in the list goes on: the record `c` replaces its old one. -/
structure Sys.Moves (s s' : Sys) (i : Nat) (c : Client) : Prop where
  list : s'.waitList = s.waitList
  queue : s'.queue = s.queue
  sched : s'.sched = s.sched
  clients : s'.clients = (s.set i c).clients
  old : (s.clients i).pc ≠ .posting ∧ ((s.clients i).pc = .waiting → (s.clients i).released = true)
  new : c.pc ≠ .posting ∧ c.pc ≠ .waiting
  called : c.pc = .called → c.released = false
  checked : c.pc = .checked → (s.clients i).pc = .called ∧ c.released = (s.clients i).released
  tested : c.pc = .checked → c.sessionId = s.fwup.currentSessionId ∧ c.epoch = s.epoch

theorem posting_set {c : Client} (hold : (s.clients i).pc ≠ .posting) (hnew : c.pc ≠ .posting) (j : Nat) :
    (s.set i c).Posting j ↔ s.Posting j := by
  unfold Sys.Posting Sys.set
  simp only []
  split
  · rename_i hj
    rw [hj]
    exact ⟨fun h => absurd h hnew, fun h => absurd h hold⟩
  · rfl

theorem Sys.Moves.same {c : Client} (h : s.Moves s' i c) : s.SameQueue s' := by
  refine ⟨h.list, h.queue, h.sched, ?_⟩
  intro j
  unfold Sys.Posting
  rw [h.clients]
  exact posting_set h.old.1 h.new.1 j

theorem moves_refused (hpc : (s.clients i).pc = .idle) (hlist : s'.waitList = s.waitList)
    (hqueue : s'.queue = s.queue) (hsched : s'.sched = s.sched) (hclients : s'.clients = s.clients) :
    s.Moves s' i (s.clients i) := by
  refine ⟨hlist, hqueue, hsched, ?_, by simp [hpc], by simp [hpc], by simp [hpc], by simp [hpc],
    by simp [hpc]⟩
  rw [hclients]
  funext j
  unfold Sys.set
  simp only []
  split
  · rename_i hj
    rw [hj]
  · rfl

/-- The steps of a client other than its append and its post. -/
theorem client_moves (h : s.step hw t a = some s') (hq : a.Quiet) : ∃ i c, s.Moves s' i c := by
  cases a with
  | sched junk heap => exact absurd hq id
  | append i => exact absurd hq id
  | post i => exact absurd hq id
  | call i sessionId data sem =>
    simp only [Sys.step] at h
    split at h
    · rename_i hpc
      split at h
      · cases h
        exact ⟨i, _, rfl, rfl, rfl, rfl, by simp [hpc], by simp, by simp, by simp, by simp⟩
      · cases h
        exact ⟨i, _, moves_refused hpc rfl rfl rfl rfl⟩
    · cases h
  | check i =>
    simp only [Sys.step] at h
    split at h
    · rename_i hpc
      split at h
      · rename_i hid
        cases h
        exact ⟨i, _, rfl, rfl, rfl, rfl, by simp [hpc], by simp, by simp, by simp [hpc],
          fun _ => ⟨hid, rfl⟩⟩
      · cases h
        exact ⟨i, _, rfl, rfl, rfl, rfl, by simp [hpc], by simp, by simp, by simp, by simp⟩
    · cases h
  | wake i =>
    simp only [Sys.step] at h
    split at h
    · rename_i hpc
      cases h
      exact ⟨i, _, rfl, rfl, rfl, rfl, by simp [hpc], by simp, by simp, by simp, by simp⟩
    · cases h
  | exitTest i sessionId =>
    simp only [Sys.step] at h
    split at h
    · rename_i hpc
      split at h
      · cases h
        exact ⟨i, _, rfl, rfl, rfl, rfl, by simp [hpc], by simp, by simp, by simp, by simp⟩
      · cases h
        exact ⟨i, _, moves_refused hpc rfl rfl rfl rfl⟩
    · cases h
  | resetTest i sessionId =>
    simp only [Sys.step] at h
    split at h
    · rename_i hpc
      split at h
      · cases h
        exact ⟨i, _, rfl, rfl, rfl, rfl, by simp [hpc], by simp, by simp, by simp, by simp⟩
      · cases h
        exact ⟨i, _, moves_refused hpc rfl rfl rfl rfl⟩
    · cases h
  | enterTest i mem =>
    simp only [Sys.step] at h
    split at h
    · rename_i hpc
      split at h
      · cases h
        exact ⟨i, _, rfl, rfl, rfl, rfl, by simp [hpc], by simp, by simp, by simp, by simp⟩
      · cases h
        exact ⟨i, _, moves_refused hpc rfl rfl rfl rfl⟩
    · cases h
  | exitCommit i =>
    simp only [Sys.step] at h
    split at h
    · rename_i hpc
      cases h
      exact ⟨i, _, rfl, rfl, rfl, rfl, by simp [hpc], by simp, by simp, by simp, by simp⟩
    · cases h
  | resetCommit i =>
    simp only [Sys.step] at h
    split at h
    · rename_i hpc
      cases h
      exact ⟨i, _, rfl, rfl, rfl, rfl, by simp [hpc], by simp, by simp, by simp, by simp⟩
    · cases h
  | enterCommit i sessionId mem =>
    simp only [Sys.step] at h
    split at h
    · rename_i hpc
      cases h
      exact ⟨i, _, rfl, rfl, rfl, rfl, by simp [hpc], by simp, by simp, by simp, by simp⟩
    · cases h

theorem client_quiet (h : s.step hw t a = some s') (hq : a.Quiet) : s.SameQueue s' := by
  obtain ⟨i, c, hmoves⟩ := client_moves h hq
  exact hmoves.same

/-- What an append does. -/
theorem append_spec (h : s.step hw t (.append i) = some s') :
    (s.clients i).pc = .checked ∧ s'.waitList = s.waitList ++ [i] ∧ s'.queue = s.queue ∧
      s'.sched = s.sched ∧
      (s.waitList = [] → s'.Posting i ∧ ∀ j, s'.Posting j → j = i ∨ s.Posting j) ∧
      (s.waitList ≠ [] → ∀ j, s'.Posting j ↔ s.Posting j) := by
  simp only [Sys.step] at h
  split at h
  · rename_i hpc
    cases h
    refine ⟨hpc, rfl, rfl, rfl, ?_, ?_⟩
    · intro hnil
      constructor
      · simp [Sys.Posting, Sys.set, hnil]
      · intro j hj
        by_cases hji : j = i
        · exact .inl hji
        · refine .inr ?_
          simpa [Sys.Posting, Sys.set, hji] using hj
    · intro hne j
      have := posting_set (s := s) (c := { s.clients i with
        pc := if s.waitList = [] then .posting else .waiting, status := .idle })
        (by rw [hpc]; decide) (by simp [hne]) j
      exact this
  · cases h

/-- What a post does. -/
theorem post_spec (h : s.step hw t (.post i) = some s') :
    s.Posting i ∧ s'.waitList = s.waitList ∧ s'.queue = (if s.queue < 4 then s.queue + 1 else s.queue) ∧
      s'.sched = s.sched ∧ ∀ j, s'.Posting j → j ≠ i ∧ s.Posting j := by
  simp only [Sys.step] at h
  split at h
  · rename_i hpc
    cases h
    refine ⟨hpc, rfl, rfl, rfl, ?_⟩
    intro j hj
    have hji : j ≠ i := by
      rintro rfl
      simp [Sys.Posting, Sys.goto, Sys.set] at hj
    exact ⟨hji, by simpa [Sys.Posting, Sys.goto, Sys.set, hji] using hj⟩
  · cases h

theorem posting_same {c : Client} (h : c.pc = (s.clients i).pc) (j : Nat) :
    (s.set i c).Posting j ↔ s.Posting j := by
  unfold Sys.Posting Sys.set
  simp only []
  split
  · rename_i hj
    rw [hj, h]
  · rfl

theorem append_clients (h : s.step hw t (.append i) = some s') :
    s'.clients = (s.set i { s.clients i with
      pc := if s.waitList = [] then .posting else .waiting
      status := .idle }).clients ∧ s'.fwup = s.fwup ∧ s'.epoch = s.epoch := by
  simp only [Sys.step] at h
  split at h
  · cases h
    exact ⟨rfl, rfl, rfl⟩
  · cases h

theorem post_clients (h : s.step hw t (.post i) = some s') :
    s'.clients = (s.goto i .waiting).clients ∧ s'.fwup = s.fwup ∧ s'.epoch = s.epoch := by
  simp only [Sys.step] at h
  split at h
  · cases h
    exact ⟨rfl, rfl, rfl⟩
  · cases h

theorem set_same (s : Sys) (i : Nat) (c : Client) : (s.set i c).clients i = c := if_pos rfl

theorem set_other (s : Sys) {i j : Nat} (c : Client) (h : j ≠ i) : (s.set i c).clients j = s.clients j :=
  if_neg h

/-! ## Whose requests wait -/

/-- The client is in a call whose request has not been completed. -/
def Client.Waits (c : Client) : Prop := (c.pc = .posting ∨ c.pc = .waiting) ∧ c.released = false

/-- The element of the walk is in the list until it is deleted, and its client waits until it is
released; the element in `temp` is in the list. -/
def Sys.Walk (s : Sys) : Sched → Prop
  | .process i temp => i ∈ s.waitList ∧ ∀ j, temp = some j → j ∈ s.waitList ∧ j ≠ i
  | .delete i temp => i ∈ s.waitList ∧ ∀ j, temp = some j → j ∈ s.waitList ∧ j ≠ i
  | .test i temp => i ∉ s.waitList ∧ (s.clients i).Waits ∧ ∀ j, temp = some j → j ∈ s.waitList
  | .clear i temp => i ∉ s.waitList ∧ (s.clients i).Waits ∧ ∀ j, temp = some j → j ∈ s.waitList
  | .finish i temp => i ∉ s.waitList ∧ (s.clients i).Waits ∧ ∀ j, temp = some j → j ∈ s.waitList
  | .advance temp => ∀ j, temp = some j → j ∈ s.waitList
  | _ => True

/-- Every request in the list is there once and belongs to a call that waits for it. -/
structure Sys.Owned (s : Sys) : Prop where
  nodup : s.waitList.Nodup
  waits : ∀ i ∈ s.waitList, (s.clients i).Waits
  fresh : ∀ i, (s.clients i).pc = .called ∨ (s.clients i).pc = .checked → (s.clients i).released = false
  walk : s.Walk s.sched

theorem Sys.Walk.mono {q : Sched} (h : s.Walk q) (hsub : ∀ j ∈ s.waitList, j ∈ s'.waitList)
    (hout : ∀ j, j ∉ s.waitList → (s.clients j).Waits → j ∉ s'.waitList ∧ (s'.clients j).Waits) :
    s'.Walk q := by
  have hdone : ∀ i temp, (i ∉ s.waitList ∧ (s.clients i).Waits ∧
      ∀ j, temp = some j → j ∈ s.waitList) →
      i ∉ s'.waitList ∧ (s'.clients i).Waits ∧ ∀ j, temp = some j → j ∈ s'.waitList := by
    rintro i temp ⟨hi, hw, htemp⟩
    exact ⟨(hout i hi hw).1, (hout i hi hw).2, fun j hj => hsub j (htemp j hj)⟩
  cases q with
  | process i temp => exact ⟨hsub i h.1, fun j hj => ⟨hsub j (h.2 j hj).1, (h.2 j hj).2⟩⟩
  | delete i temp => exact ⟨hsub i h.1, fun j hj => ⟨hsub j (h.2 j hj).1, (h.2 j hj).2⟩⟩
  | test i temp => exact hdone i temp h
  | clear i temp => exact hdone i temp h
  | finish i temp => exact hdone i temp h
  | advance temp => exact fun j hj => hsub j (h j hj)
  | _ => trivial

theorem Sys.Moves.owned {c : Client} (h : s.Moves s' i c) (hs : s.Owned) : s'.Owned := by
  -- the moving client does not wait for a request
  have hkeep : ∀ j, (s.clients j).Waits → s'.clients j = s.clients j := by
    intro j hj
    rw [h.clients, set_other]
    rintro rfl
    rcases hj.1 with hpc | hpc
    · exact h.old.1 hpc
    · have := h.old.2 hpc
      rw [hj.2] at this
      cases this
  refine ⟨by rw [h.list]; exact hs.nodup, ?_, ?_, ?_⟩
  · intro j hj
    rw [h.list] at hj
    rw [hkeep j (hs.waits j hj)]
    exact hs.waits j hj
  · intro j hj
    rw [h.clients] at hj ⊢
    by_cases hji : j = i
    · subst hji
      rw [set_same] at hj ⊢
      rcases hj with hpc | hpc
      · exact h.called hpc
      · obtain ⟨hold, hrel⟩ := h.checked hpc
        rw [hrel]
        exact hs.fresh j (.inl hold)
    · rw [set_other s c hji] at hj ⊢
      exact hs.fresh j hj
  · rw [h.sched]
    refine hs.walk.mono (by rw [h.list]; exact fun _ hj => hj) ?_
    intro j hj hw
    rw [h.list, hkeep j hw]
    exact ⟨hj, hw⟩

theorem append_owned (h : s.step hw t (.append i) = some s') (hs : s.Owned) : s'.Owned := by
  obtain ⟨hpc, hlist, _, hsched, _, _⟩ := append_spec h
  have hclients := (append_clients h).1
  have hni : i ∉ s.waitList := by
    intro hi
    have := (hs.waits i hi).1
    rw [hpc] at this
    simp at this
  have hnew : (s'.clients i).Waits := by
    rw [hclients, set_same]
    refine ⟨?_, hs.fresh i (.inr hpc)⟩
    simp only []
    split
    · exact .inl rfl
    · exact .inr rfl
  have hother : ∀ j, j ≠ i → s'.clients j = s.clients j := by
    intro j hj
    rw [hclients, set_other s _ hj]
  refine ⟨?_, ?_, ?_, ?_⟩
  · rw [hlist, List.nodup_append]
    refine ⟨hs.nodup, by simp, ?_⟩
    intro x hx y hy
    rw [List.mem_singleton] at hy
    rintro rfl
    exact hni (hy ▸ hx)
  · intro j hj
    by_cases hji : j = i
    · rw [hji]
      exact hnew
    · rw [hlist, List.mem_append, List.mem_singleton] at hj
      rw [hother j hji]
      exact hs.waits j (hj.resolve_right hji)
  · intro j hj
    by_cases hji : j = i
    · rw [hji]
      exact hnew.2
    · rw [hother j hji] at hj ⊢
      exact hs.fresh j hj
  · rw [hsched]
    refine hs.walk.mono (by rw [hlist]; exact fun j hj => List.mem_append_left _ hj) ?_
    intro j hj hw
    have hji : j ≠ i := by
      rintro rfl
      have := hw.1
      rw [hpc] at this
      simp at this
    rw [hother j hji, hlist, List.mem_append, List.mem_singleton]
    exact ⟨not_or.mpr ⟨hj, hji⟩, hw⟩

theorem post_owned (h : s.step hw t (.post i) = some s') (hs : s.Owned) : s'.Owned := by
  obtain ⟨hpc, hlist, _, hsched, _⟩ := post_spec h
  have hclients := (post_clients h).1
  unfold Sys.goto at hclients
  have hkeep : ∀ j, (s.clients j).Waits → (s'.clients j).Waits := by
    intro j hw
    rw [hclients]
    by_cases hji : j = i
    · subst hji
      rw [set_same]
      exact ⟨.inr rfl, hw.2⟩
    · rw [set_other s _ hji]
      exact hw
  refine ⟨by rw [hlist]; exact hs.nodup, ?_, ?_, ?_⟩
  · intro j hj
    rw [hlist] at hj
    exact hkeep j (hs.waits j hj)
  · intro j hj
    rw [hclients] at hj ⊢
    by_cases hji : j = i
    · subst hji
      rw [set_same] at hj
      simp at hj
    · rw [set_other s _ hji] at hj ⊢
      exact hs.fresh j hj
  · rw [hsched]
    refine hs.walk.mono (by rw [hlist]; exact fun _ hj => hj) ?_
    intro j hj hw
    rw [hlist]
    exact ⟨hj, hkeep j hw⟩

theorem nextOf_head (i : Nat) (rest : List Nat) : nextOf i (i :: rest) = rest.head? := if_pos rfl

theorem nextOf_mem {l : List Nat} (hl : l.Nodup) {i j : Nat} (h : nextOf i l = some j) : j ∈ l ∧ j ≠ i := by
  induction l with
  | nil => cases h
  | cons x xs ih =>
    obtain ⟨hx, hxs⟩ := List.nodup_cons.mp hl
    unfold nextOf at h
    split at h
    · rename_i hxi
      have hj : j ∈ xs := List.mem_of_head? h
      refine ⟨List.mem_cons_of_mem x hj, ?_⟩
      rintro rfl
      rw [hxi] at hx
      exact hx hj
    · obtain ⟨hj, hji⟩ := ih hxs h
      exact ⟨List.mem_cons_of_mem x hj, hji⟩

theorem boot_owned (s : Sys) : s.boot.Owned :=
  ⟨List.nodup_nil, fun _ h => (by cases h), fun _ _ => rfl, trivial⟩

theorem waits_status {st : ReqStatus} {j : Nat} (hw : (s.clients j).Waits) :
    ((s.set i { s.clients i with status := st }).clients j).Waits := by
  by_cases hji : j = i
  · subst hji
    rw [set_same]
    exact hw
  · rw [set_other s _ hji]
    exact hw

/-- What a step of the scheduler can do. -/
inductive SchedMoves (hw : Engine) (t : Target) (s : Sys) : Sys → Prop where
  | receive (hpc : s.sched = .receive) (hq : s.queue ≠ 0) :
      SchedMoves hw t s { s with queue := s.queue - 1, sched := .started }
  | started (hpc : s.sched = .started) :
      SchedMoves hw t s { s with sched := if s.waitList = [] then .fetch else .setBusy }
  | setBusy (hpc : s.sched = .setBusy) : SchedMoves hw t s { s.markBusy true with sched := .fetch }
  | fetchNone (hpc : s.sched = .fetch) (hl : s.waitList = []) :
      SchedMoves hw t s { s with sched := .receive }
  | fetch {i : Nat} {rest : List Nat} (hpc : s.sched = .fetch) (hl : s.waitList = i :: rest) :
      SchedMoves hw t s { s with sched := .process i rest.head? }
  | boot {i : Nat} {temp : Option Nat} (hpc : s.sched = .process i temp ∨ s.sched = .finish i temp) :
      SchedMoves hw t s s.boot
  | process {i : Nat} {temp : Option Nat} {junk : List Byte} {heap : Bool} {f : State} {st : ReqStatus}
      (hpc : s.sched = .process i temp)
      (hreq : s.fwup.request hw t junk heap (s.clients i).data = some (f, st)) :
      SchedMoves hw t s
        { s.set i { s.clients i with status := st } with fwup := f, sched := .delete i temp }
  | delete {i : Nat} {temp : Option Nat} (hpc : s.sched = .delete i temp) :
      SchedMoves hw t s { s with waitList := s.waitList.erase i, sched := .test i temp }
  | test {i : Nat} {temp : Option Nat} (hpc : s.sched = .test i temp) :
      SchedMoves hw t s
        { s with sched := if s.waitList = [] then .clear i temp else .finish i temp }
  | clear {i : Nat} {temp : Option Nat} (hpc : s.sched = .clear i temp) :
      SchedMoves hw t s { s.markBusy false with sched := .finish i temp }
  | finish {i : Nat} {temp : Option Nat} (hpc : s.sched = .finish i temp) :
      SchedMoves hw t s
        { s.set i { s.clients i with released := true } with sched := .advance temp }
  | advanceNone (hpc : s.sched = .advance none) : SchedMoves hw t s { s with sched := .receive }
  | advance {i : Nat} (hpc : s.sched = .advance (some i)) :
      SchedMoves hw t s { s with sched := .process i (nextOf i s.waitList) }

theorem sched_moves {junk : List Byte} {heap : Bool} (h : s.schedStep hw t junk heap = some s') :
    SchedMoves hw t s s' := by
  unfold Sys.schedStep at h
  cases hpc : s.sched with
  | receive =>
    rw [hpc] at h
    simp only [] at h
    split at h
    · cases h
    · rename_i hq
      cases h
      exact .receive hpc hq
  | started =>
    rw [hpc] at h
    cases h
    exact .started hpc
  | setBusy =>
    rw [hpc] at h
    cases h
    exact .setBusy hpc
  | fetch =>
    rw [hpc] at h
    simp only [] at h
    split at h
    · rename_i hl
      cases h
      exact .fetchNone hpc hl
    · rename_i i rest hl
      cases h
      exact .fetch hpc hl
  | process i temp =>
    rw [hpc] at h
    simp only [] at h
    split at h
    · cases h
      exact .boot (.inl hpc)
    · rename_i f st hreq
      cases h
      exact .process hpc hreq
  | delete i temp =>
    rw [hpc] at h
    cases h
    exact .delete hpc
  | test i temp =>
    rw [hpc] at h
    cases h
    exact .test hpc
  | clear i temp =>
    rw [hpc] at h
    cases h
    exact .clear hpc
  | finish i temp =>
    rw [hpc] at h
    simp only [] at h
    split at h
    · cases h
      exact .boot (.inr hpc)
    · cases h
      exact .finish hpc
  | advance temp =>
    rw [hpc] at h
    cases temp with
    | none =>
      cases h
      exact .advanceNone hpc
    | some j =>
      cases h
      exact .advance hpc

theorem sched_owned {junk : List Byte} {heap : Bool} (h : s.schedStep hw t junk heap = some s')
    (hs : s.Owned) : s'.Owned := by
  have hwalk := hs.walk
  cases sched_moves h with
  | receive hpc hq => exact ⟨hs.nodup, hs.waits, hs.fresh, trivial⟩
  | started hpc =>
    refine ⟨hs.nodup, hs.waits, hs.fresh, ?_⟩
    simp only []
    split
    · trivial
    · trivial
  | setBusy hpc => exact ⟨hs.nodup, hs.waits, hs.fresh, trivial⟩
  | fetchNone hpc hl => exact ⟨hs.nodup, hs.waits, hs.fresh, trivial⟩
  | @fetch i rest hpc hl =>
    refine ⟨hs.nodup, hs.waits, hs.fresh, ?_⟩
    refine ⟨by rw [hl]; exact List.mem_cons_self, ?_⟩
    intro j hj
    rw [← nextOf_head i rest, ← hl] at hj
    exact nextOf_mem hs.nodup hj
  | boot hpc => exact boot_owned s
  | @process i temp junk heap f st hpc hreq =>
    rw [hpc] at hwalk
    refine ⟨hs.nodup, ?_, ?_, hwalk⟩
    · intro j hj
      exact waits_status (hs.waits j hj)
    · intro j hj
      simp only [Sys.set] at hj ⊢
      split at hj
      · rename_i hji
        rw [if_pos hji]
        exact hs.fresh i hj
      · rename_i hji
        rw [if_neg hji]
        exact hs.fresh j hj
  | @delete i temp hpc =>
    rw [hpc] at hwalk
    refine ⟨hs.nodup.erase i, ?_, hs.fresh, ?_⟩
    · intro j hj
      exact hs.waits j (List.mem_of_mem_erase hj)
    · refine ⟨hs.nodup.not_mem_erase, hs.waits i hwalk.1, ?_⟩
      intro j hj
      exact (List.mem_erase_of_ne (hwalk.2 j hj).2).mpr (hwalk.2 j hj).1
  | test hpc =>
    rw [hpc] at hwalk
    refine ⟨hs.nodup, hs.waits, hs.fresh, ?_⟩
    simp only []
    split
    · exact hwalk
    · exact hwalk
  | clear hpc =>
    rw [hpc] at hwalk
    exact ⟨hs.nodup, hs.waits, hs.fresh, hwalk⟩
  | @finish i temp hpc =>
    rw [hpc] at hwalk
    obtain ⟨hni, hw, htemp⟩ := hwalk
    refine ⟨hs.nodup, ?_, ?_, htemp⟩
    · intro j hj
      have hji : j ≠ i := by
        rintro rfl
        exact hni hj
      change ((s.set i _).clients j).Waits
      rw [set_other s _ hji]
      exact hs.waits j hj
    · intro j hj
      simp only [Sys.set] at hj ⊢
      split at hj
      · rename_i hji
        rcases hw.1 with hpc' | hpc'
        · rw [hpc'] at hj
          simp at hj
        · rw [hpc'] at hj
          simp at hj
      · rename_i hji
        rw [if_neg hji]
        exact hs.fresh j hj
  | advanceNone hpc => exact ⟨hs.nodup, hs.waits, hs.fresh, trivial⟩
  | @advance j hpc =>
    rw [hpc] at hwalk
    refine ⟨hs.nodup, hs.waits, hs.fresh, hwalk j rfl, ?_⟩
    intro k hk
    exact nextOf_mem hs.nodup hk

theorem step_owned (h : s.step hw t a = some s') (hs : s.Owned) : s'.Owned := by
  rcases act_cases a with ⟨junk, heap, rfl⟩ | ⟨i, rfl⟩ | ⟨i, rfl⟩ | hq
  · exact sched_owned h hs
  · exact append_owned h hs
  · exact post_owned h hs
  · obtain ⟨i, c, hmoves⟩ := client_moves h hq
    exact hmoves.owned hs

/-! ## Calls without another task in between -/

/-- The two steps of `tls_fwup_exit`. -/
theorem exit_alone {sessionId : Nat} (hpc : (s.clients i).pc = .idle) (hin : s.installed = true)
    (hok : (tlsFwupExit sessionId s.fwup).1 = .ok) :
    ∃ s', exec (Sys.step hw t) s [.exitTest i sessionId, .exitCommit i] = some s' ∧
      s'.fwup = (tlsFwupExit sessionId s.fwup).2 := by
  have hcheck : exitCheck sessionId s.fwup = .ok := by
    unfold tlsFwupExit at hok
    cases hc : exitCheck sessionId s.fwup with
    | ok => rfl
    | _ =>
      rw [hc] at hok
      cases hok
  have htest : s.step hw t (.exitTest i sessionId) = some (s.goto i .exiting) := by
    simp only [Sys.step]
    rw [if_pos hpc, if_pos ⟨hin, hcheck⟩]
  have hexiting : ((s.goto i .exiting).clients i).pc = .exiting := by
    rw [Sys.goto, set_same]
  unfold tlsFwupExit
  rw [hcheck]
  simp only [exec, htest]
  simp only [Sys.step]
  rw [if_pos hexiting]
  exact ⟨_, rfl, rfl⟩

/-- The two steps of `tls_fwup_reset`. -/
theorem reset_alone {sessionId : Nat} (hpc : (s.clients i).pc = .idle) (hin : s.installed = true)
    (hok : (tlsFwupReset sessionId s.fwup).1 = .ok) :
    ∃ s', exec (Sys.step hw t) s [.resetTest i sessionId, .resetCommit i] = some s' ∧
      s'.fwup = (tlsFwupReset sessionId s.fwup).2 := by
  have hcheck : exitCheck sessionId s.fwup = .ok := by
    unfold tlsFwupReset at hok
    cases hc : exitCheck sessionId s.fwup with
    | ok => rfl
    | _ =>
      rw [hc] at hok
      cases hok
  have htest : s.step hw t (.resetTest i sessionId) = some (s.goto i .resetting) := by
    simp only [Sys.step]
    rw [if_pos hpc, if_pos ⟨hin, hcheck⟩]
  have hresetting : ((s.goto i .resetting).clients i).pc = .resetting := by
    rw [Sys.goto, set_same]
  unfold tlsFwupReset
  rw [hcheck]
  simp only [exec, htest]
  simp only [Sys.step]
  rw [if_pos hresetting]
  exact ⟨_, rfl, rfl⟩

/-- The two steps of `tls_fwup_enter`. -/
theorem enter_alone {sessionId : Nat} {mem : Option (List Byte)} (hpc : (s.clients i).pc = .idle)
    (hin : s.installed = true) (hid : sessionId ≠ 0) (hfree : s.fwup.busy = false) (heap : Bool) :
    ∃ s', exec (Sys.step hw t) s [.enterTest i heap, .enterCommit i sessionId mem] = some s' ∧
      s'.fwup = (tlsFwupEnter sessionId mem s.fwup).2 := by
  have hinst : (s.installed || heap) = true := by rw [hin, Bool.true_or]
  have htest : s.step hw t (.enterTest i heap) =
      some (Sys.goto { s with installed := s.installed || heap } i .entering) := by
    simp only [Sys.step]
    rw [if_pos hpc, if_pos ⟨hinst, hfree⟩]
  have hentering : ((Sys.goto { s with installed := s.installed || heap } i .entering).clients i).pc =
      .entering := by
    rw [Sys.goto, set_same]
  unfold tlsFwupEnter
  rw [if_neg (by rw [hfree]; decide)]
  simp only [exec, htest]
  simp only [Sys.step]
  rw [if_pos ⟨hentering, hid⟩]
  exact ⟨_, rfl, rfl⟩

end Clients

end Fwup
end Air101
