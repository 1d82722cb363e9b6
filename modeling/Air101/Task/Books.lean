import Air101.Task.Slot

/-!
# Task.Books

The calls of the wl task layer in a `Ledger`, with the tickets of the messages in the order they were
sent.

* `Orderly`: no blocking post gives up, no two calls are on one shared record at a time, and no `cnt++` and
  `cnt--` of one record overlap.
* `step_ledger`: every orderly step is one of the books.
-/

namespace Air101
namespace Task

open Storage

/-! ## The books -/

/-- Where a caller stands for the ledger. -/
def Caller.stage : Caller → Stage
  | .idle => .idle
  | .posting k _ _ _ => .before k
  | .tested k _ _ _ _ => .before k
  | .wroteFunction k _ _ _ _ => .before k
  | .sending k _ _ _ _ _ => .before k
  | .posted k _ => .after k
  | .loaded k _ _ => .after k

/-- The ticket of the message the thread has in hand. -/
def Thread.held : Thread → List Nat
  | .fetch => []
  | .got m => [m.ticket]
  | .tookFunction k _ _ => [k]
  | .took k _ _ _ => [k]
  | .loaded k _ _ _ _ => [k]
  | .calling k _ _ => [k]

namespace Sys

/-- The tickets of the messages that wait to be handled. -/
def pending (s : Sys) : List Nat := s.thread.held ++ s.mbox.map Msg.ticket

/-- The tickets of the messages handled so far. -/
def done (s : Sys) : List Nat := s.handled.map Prod.fst

/-- The books of the message layer. -/
def ledger (s : Sys) : Ledger := ⟨s.done ++ s.pending, s.tickets, s.status, Caller.stage ∘ s.callers⟩

end Sys

/-- What a caller does on the shared record `id`. -/
def Caller.role (id : Fin 9) : Caller → Option Role
  | .tested k i function ctx _ => if i = id then some (.tested k function ctx) else none
  | .wroteFunction k i function ctx _ => if i = id then some (.wroteFunction k function ctx) else none
  | .sending k i function ctx _ _ => if i = id then some (.sending k function ctx) else none
  | .posted k i => if i = id then some (.posted k) else none
  | .loaded k i cnt => if i = id then some (.loaded k cnt) else none
  | _ => none

/-- A step that gives up no blocking post, begins no call on a shared record that another call is on, and
reads no `cnt` between the read and the write of another step. -/
def Orderly (s : Sys) : Act → Prop
  | .call _ (.callbackStatic _ _ _ id) _ => ∀ i, (s.callers i).role id = none
  | .call _ _ _ => True
  | .go j =>
    match s.callers j with
    | .posting _ _ block tries => block = true → s.Room ∨ tries + 1 < 10
    | .sending _ _ _ _ block tries => block = true → s.Room ∨ tries + 1 < 10
    | .posted _ id => ∀ k function ctx cnt, s.thread ≠ .loaded k id function ctx cnt
    | _ => True
  | .thread =>
    match s.thread with
    | .took _ id _ _ => ∀ i k cnt, (s.callers i).role id ≠ some (.loaded k cnt)
    | _ => True

/-- The orderly steps. -/
def Ordered (s : Sys) (a : Act) (s' : Sys) : Prop := s.step a = some s' ∧ Orderly s a

section Books

variable {s s' : Sys} {a : Act} {j : Nat}

theorem stage_goto (s : Sys) (j : Nat) (c : Caller) :
    Caller.stage ∘ (s.goto j c).callers = Function.update (Caller.stage ∘ s.callers) j c.stage :=
  Function.comp_update _ _ _ _

/-- A caller that stays where it is for the ledger. -/
theorem goto_step {c : Caller} (h : c.stage = (s.callers j).stage) : Ledger.Step s.ledger (s.goto j c).ledger := by
  have hkept : (s.goto j c).ledger = s.ledger := by
    unfold Sys.ledger
    have hstage : Function.update (Caller.stage ∘ s.callers) j (s.callers j).stage = Caller.stage ∘ s.callers :=
      Function.update_eq_self j _
    rw [stage_goto, h, hstage]
    rfl
  rw [hkept]
  exact .skip _

theorem begin_ledger (s : Sys) (w : Work) {c : Caller} (hc : c.stage = .before s.tickets) :
    ((s.draw w .running).goto j c).ledger = s.ledger.begin j := by
  unfold Sys.ledger Ledger.begin
  rw [stage_goto, hc]
  rfl

theorem ret_ledger (s : Sys) (j k : Nat) (st : CallStatus) :
    (s.ret j k st).ledger = s.ledger.finish j k st := by
  unfold Sys.ledger Ledger.finish
  congr 1
  exact stage_goto s j .idle

theorem send_posted (s : Sys) (m : Msg) :
    (s.send m).done ++ (s.send m).pending = s.done ++ s.pending ++ [m.ticket] := by
  simp [Sys.done, Sys.pending, Sys.send]

theorem begin_step (hj : s.callers j = .idle) (r : Request) (heap : Bool) :
    Ledger.Step s.ledger (s.begin j r heap).ledger := by
  have hidle : s.ledger.stage j = .idle := by
    unfold Sys.ledger
    simp only [Function.comp_apply, hj]
    rfl
  unfold Sys.begin
  split
  · split
    · exact .refuse _
    · split
      · rw [begin_ledger s _ rfl]
        exact .begin _ j hidle
      · exact .refuse _
  · split
    · rw [begin_ledger s _ rfl]
      exact .begin _ j hidle
    · exact .refuse _

theorem go_step (h : s.go j = some s') (ho : Orderly s (.go j)) : Ledger.Step s.ledger s'.ledger := by
  have hstage : s.ledger.stage j = (s.callers j).stage := rfl
  unfold Sys.go at h
  simp only [Orderly] at ho
  cases hc : s.callers j with
  | idle =>
    rw [hc] at h
    cases h
  | posting k w block tries =>
    rw [hc] at h ho hstage
    simp only [] at h ho
    split at h
    · cases h
      rw [ret_ledger]
      have hsend : (s.send (.own k w)).ledger.finish j k .succeeded =
          (s.ledger.post j k).finish j k .succeeded := by
        unfold Sys.ledger Ledger.finish Ledger.post
        simp only [send_posted, Function.update_idem]
        rfl
      rw [hsend]
      exact .send _ j k hstage
    · rename_i hfull
      split at h
      · rename_i hblock
        split at h
        · cases h
          exact goto_step (by rw [hc]; rfl)
        · rename_i hlast
          exact absurd ((ho hblock).resolve_left hfull) hlast
      · cases h
        rw [ret_ledger]
        exact .fail _ j k hstage
  | tested k id function ctx block =>
    rw [hc] at h
    cases h
    exact goto_step (s := s.setSlot id { s.wlMsg id with function := function })
      (by change _ = (s.callers j).stage; rw [hc]; rfl)
  | wroteFunction k id function ctx block =>
    rw [hc] at h
    cases h
    exact goto_step (s := s.setSlot id { s.wlMsg id with ctx := ctx })
      (by change _ = (s.callers j).stage; rw [hc]; rfl)
  | sending k id function ctx block tries =>
    rw [hc] at h ho hstage
    simp only [] at h ho
    split at h
    · cases h
      have hled : ((s.send (.shared k id)).goto j (.posted k id)).ledger = s.ledger.post j k := by
        unfold Sys.ledger Ledger.post
        rw [stage_goto]
        congr 1
        exact send_posted s (.shared k id)
      rw [hled]
      exact .post _ j k hstage
    · rename_i hfull
      split at h
      · rename_i hblock
        split at h
        · cases h
          exact goto_step (by rw [hc]; rfl)
        · rename_i hlast
          exact absurd ((ho hblock).resolve_left hfull) hlast
      · cases h
        rw [ret_ledger]
        exact .fail _ j k hstage
  | posted k id =>
    rw [hc] at h
    cases h
    exact goto_step (by rw [hc]; rfl)
  | loaded k id cnt =>
    rw [hc] at h hstage
    cases h
    rw [ret_ledger]
    exact .close _ j k hstage

theorem thread_ledger (h : s.threadStep = some s') : s'.ledger = s.ledger := by
  have hposted : s'.done ++ s'.pending = s.done ++ s.pending ∧ s'.tickets = s.tickets ∧
      s'.status = s.status ∧ s'.callers = s.callers := by
    unfold Sys.threadStep at h
    split at h
    · rename_i hpc
      split at h
      · cases h
      · rename_i m rest hm
        cases h
        simp [Sys.done, Sys.pending, hpc, hm, Thread.held]
    · rename_i k w hpc
      cases h
      simp [Sys.done, Sys.pending, Sys.handle, hpc, Thread.held, Msg.ticket]
    · rename_i k id hpc
      cases h
      simp [Sys.done, Sys.pending, hpc, Thread.held, Msg.ticket]
    · rename_i k id function hpc
      cases h
      simp [Sys.done, Sys.pending, hpc, Thread.held]
    · rename_i k id function ctx hpc
      cases h
      simp [Sys.done, Sys.pending, hpc, Thread.held]
    · rename_i k id function ctx cnt hpc
      cases h
      simp [Sys.done, Sys.pending, Sys.setSlot, hpc, Thread.held]
    · rename_i k function ctx hpc
      cases h
      simp [Sys.done, Sys.pending, Sys.handle, hpc, Thread.held]
  obtain ⟨hp, ht, hs, hc⟩ := hposted
  unfold Sys.ledger
  rw [hp, ht, hs, hc]

/-- Every orderly step is one of the books. -/
theorem step_ledger (h : Ordered s a s') : Ledger.Step s.ledger s'.ledger := by
  obtain ⟨hstep, ho⟩ := h
  cases a with
  | call j r heap =>
    simp only [Sys.step] at hstep
    split at hstep
    · rename_i hj
      cases hstep
      exact begin_step hj r heap
    · cases hstep
  | go j => exact go_step hstep ho
  | thread =>
    rw [thread_ledger hstep]
    exact .skip _

end Books

end Task
end Air101
