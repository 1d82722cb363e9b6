import Air101.Ble.Ring
import Air101.Storage.Runs

/-!
# Ble.Passthrough

The UART pass-through of the BLE server (`src/app/bleapp/wm_ble_uart_if.c`): `wm_uart_task` inserts what the UART
receives into a ring, and `wm_dispatch_task` and the callback `wm_uart_sent_cb`, which runs in the BLE host task, take
it out and send it. Each of the two reads the size of the ring, peeks into the buffer `wm_buffer` they share,
dispatches it and, if that succeeds, deletes what it peeked. Each of these is a step.

`tls_ble_server_demo_api_send_msg` refuses while `g_send_pending` is set, and may fail for other reasons. The event
that a message was sent clears `g_send_pending` and calls `wm_uart_sent_cb`.

* `passthrough_stream`: while every accepted payload is what the ring begins with, and the other task has none left to delete,
  the payloads and the ring are the bytes inserted.
* `exclusive_ok`: rounds that do not overlap meet this.
* `passthrough_sent_twice`: with overlapping rounds a payload is sent twice.
-/

namespace Air101
namespace Ble

open Storage

/-- The two tasks that send. -/
inductive Task where
  | dispatch
  | sentCb
  deriving DecidableEq

def Task.other : Task → Task
  | .dispatch => .sentCb
  | .sentCb => .dispatch

/-- How far a task is, with its `rx_len`. -/
inductive Stage where
  | idle
  | woken
  | sized (rxLen : Nat)
  | peeked (rxLen : Nat)
  | accepted (rxLen : Nat)
  deriving DecidableEq

structure Sys where
  ring : RingBuffer
  wmBuffer : Nat → UInt8
  thresh : Nat
  sendPending : Bool
  stage : Task → Stage
  inserted : List UInt8
  delivered : List UInt8

inductive Step where
  /-- `wm_uart_task` inserts. -/
  | insert (p : List UInt8)
  /-- `wm_dispatch_task` receives `WM_MSG_AVAILABLE`. -/
  | available
  /-- `ble_server_indication_sent_cb`. -/
  | complete
  | size (t : Task)
  | peek (t : Task)
  /-- `tls_ble_server_demo_api_send_msg`; `rc` is whether the message can be sent if none is pending. -/
  | dispatch (t : Task) (rc : Bool)
  | delete (t : Task)

def uartDefaultThresh : Nat := 244

/-- The `rx_len` for a ring of the given size. -/
def rxLen (thresh size : Nat) : Nat :=
  if thresh ≠ 0 then if min thresh size < thresh then 0 else min thresh size
  else min uartDefaultThresh size

def Sys.setStage (s : Sys) (t : Task) (stage : Stage) : Sys := { s with stage := Function.update s.stage t stage }

/-- `bs` is copied to the start of the buffer. -/
def overwrite (buf : Nat → UInt8) (bs : List UInt8) : Nat → UInt8 := fun k => bs.getD k (buf k)

def step (s : Sys) : Step → Sys
  | .insert p =>
    if p.length ≤ s.ring.available then { s with ring := s.ring.insert p, inserted := s.inserted ++ p } else s
  | .available => if s.stage .dispatch = .idle then s.setStage .dispatch .woken else s
  | .complete =>
    if s.stage .sentCb = .idle ∧ s.sendPending = true then { s with sendPending := false }.setStage .sentCb .woken else s
  | .size t =>
    if s.stage t = .woken then
      s.setStage t (if rxLen s.thresh s.ring.size > 0 then .sized (rxLen s.thresh s.ring.size) else .idle)
    else s
  | .peek t => match s.stage t with
    | .sized n => { s with wmBuffer := overwrite s.wmBuffer (s.ring.peek 0 n) }.setStage t (.peeked n)
    | _ => s
  | .dispatch t rc => match s.stage t with
    | .peeked n =>
      if s.sendPending then s.setStage t .idle
      else if rc then
        { s with sendPending := true, delivered := s.delivered ++ copy s.wmBuffer 0 n }.setStage t (.accepted n)
      else s.setStage t .idle
    | _ => s
  | .delete t => match s.stage t with
    | .accepted n => { s with ring := s.ring.delete n }.setStage t .idle
    | _ => s

/-- The pass-through after `ble_uart_init`. -/
def init (thresh : Nat) : Sys :=
  { ring := ringbufferInit 2048, wmBuffer := fun _ => 0, thresh, sendPending := false, stage := fun _ => .idle
    inserted := [], delivered := [] }

/-- The bytes of a payload that was accepted and is still in the ring. -/
def Stage.undeleted : Stage → Nat
  | .accepted n => n
  | _ => 0

/-- An accepted payload is what the ring begins with, and the other task has none left to delete. -/
def ok (s : Sys) : Step → Bool
  | .dispatch t true => match s.stage t with
    | .peeked n => s.sendPending ||
      ((s.stage t.other).undeleted == 0 && decide (n ≤ s.ring.size) && (copy s.wmBuffer 0 n == s.ring.peek 0 n))
    | _ => true
  | _ => true

section Stream

variable {s : Sys}

/-- The bytes of accepted payloads that are still in the ring. -/
def Sys.undeleted (s : Sys) : Nat := (s.stage .dispatch).undeleted + (s.stage .sentCb).undeleted

/-- The accepted payloads, then what the ring holds behind the ones still to be deleted, are the bytes inserted. -/
structure Stream (s : Sys) : Prop where
  wf : s.ring.Wf
  le : s.undeleted ≤ s.ring.size
  eq : s.delivered ++ s.ring.contents.drop s.undeleted = s.inserted

theorem undeleted_eq (s : Sys) (t : Task) : s.undeleted = (s.stage t).undeleted + (s.stage t.other).undeleted := by
  cases t with
  | dispatch => rfl
  | sentCb => exact Nat.add_comm _ _

theorem other_ne (t : Task) : t.other ≠ t := by
  cases t <;> decide

theorem undeleted_setStage (s : Sys) (t : Task) (stage : Stage) :
    (s.setStage t stage).undeleted = stage.undeleted + (s.stage t.other).undeleted := by
  rw [undeleted_eq _ t]
  show (Function.update s.stage t stage t).undeleted + (Function.update s.stage t stage t.other).undeleted = _
  rw [Function.update_self, Function.update_of_ne (other_ne t)]

theorem stream_setStage {t : Task} {stage : Stage} (h : Stream s) (h0 : (s.stage t).undeleted = 0)
    (h1 : stage.undeleted = 0) : Stream (s.setStage t stage) := by
  have hu : (s.setStage t stage).undeleted = s.undeleted := by
    rw [undeleted_setStage, undeleted_eq s t, h0, h1]
  refine ⟨h.wf, ?_, ?_⟩
  · rw [hu]
    exact h.le
  · rw [hu]
    exact h.eq

theorem stream_insert {p : List UInt8} (h : Stream s) (hp : p.length ≤ s.ring.available) :
    Stream { s with ring := s.ring.insert p, inserted := s.inserted ++ p } := by
  obtain ⟨hc, hwf, -⟩ := insert_contents h.wf hp
  have hle : s.undeleted ≤ s.ring.contents.length := by
    rw [length_contents]
    exact h.le
  refine ⟨hwf, ?_, ?_⟩
  · show s.undeleted ≤ (s.ring.insert p).size
    rw [← length_contents, hc, List.length_append]
    omega
  · show s.delivered ++ (s.ring.insert p).contents.drop s.undeleted = s.inserted ++ p
    rw [hc, List.drop_append_of_le_length hle, ← List.append_assoc, h.eq]

theorem stream_accept {t : Task} {n : Nat} (h : Stream s) (hstage : s.stage t = .peeked n)
    (hother : (s.stage t.other).undeleted = 0) (hn : n ≤ s.ring.size) (hbuf : copy s.wmBuffer 0 n = s.ring.peek 0 n) :
    Stream ({ s with sendPending := true, delivered := s.delivered ++ copy s.wmBuffer 0 n }.setStage t (.accepted n)) := by
  have hnone : s.undeleted = 0 := by
    rw [undeleted_eq s t, hstage, hother]
    rfl
  have heq := h.eq
  rw [hnone, List.drop_zero] at heq
  refine ⟨h.wf, ?_, ?_⟩
  · rw [undeleted_setStage]
    show n + (s.stage t.other).undeleted ≤ s.ring.size
    omega
  · rw [undeleted_setStage]
    show s.delivered ++ copy s.wmBuffer 0 n ++ s.ring.contents.drop (n + (s.stage t.other).undeleted) = s.inserted
    rw [hother, Nat.add_zero, hbuf, peek_contents n h.wf, List.append_assoc, List.take_append_drop, heq]

theorem stream_delete {t : Task} {n : Nat} (h : Stream s) (hstage : s.stage t = .accepted n) :
    Stream ({ s with ring := s.ring.delete n }.setStage t .idle) := by
  obtain ⟨hc, hwf, -⟩ := delete_contents n h.wf
  have hu : s.undeleted = n + (s.stage t.other).undeleted := by
    rw [undeleted_eq s t, hstage]
    rfl
  have hle := h.le
  have heq := h.eq
  refine ⟨hwf, ?_, ?_⟩
  · rw [undeleted_setStage]
    show 0 + (s.stage t.other).undeleted ≤ (s.ring.delete n).size
    rw [← length_contents, hc, List.length_drop, length_contents]
    omega
  · rw [undeleted_setStage]
    show s.delivered ++ (s.ring.delete n).contents.drop (0 + (s.stage t.other).undeleted) = s.inserted
    rw [hc, List.drop_drop, Nat.zero_add, ← hu]
    exact heq

theorem stream_step (l : Step) (hok : ok s l = true) (h : Stream s) : Stream (step s l) := by
  cases l with
  | insert p =>
    simp only [step]
    split
    · rename_i hp
      exact stream_insert h hp
    · exact h
  | available =>
    simp only [step]
    split
    · rename_i hidle
      exact stream_setStage h (by rw [hidle]; rfl) rfl
    · exact h
  | complete =>
    simp only [step]
    split
    · rename_i hidle
      have hs : Stream { s with sendPending := false } := ⟨h.wf, h.le, h.eq⟩
      exact stream_setStage hs (by show (s.stage .sentCb).undeleted = 0; rw [hidle.1]; rfl) rfl
    · exact h
  | size t =>
    simp only [step]
    split
    · rename_i hwoken
      refine stream_setStage h (by rw [hwoken]; rfl) ?_
      split <;> rfl
    · exact h
  | peek t =>
    simp only [step]
    split
    · rename_i n hsized
      have hs : Stream { s with wmBuffer := overwrite s.wmBuffer (s.ring.peek 0 n) } := ⟨h.wf, h.le, h.eq⟩
      exact stream_setStage hs (by show (s.stage t).undeleted = 0; rw [hsized]; rfl) rfl
    · exact h
  | dispatch t rc =>
    simp only [step]
    split
    · rename_i n hpeeked
      have h0 : (s.stage t).undeleted = 0 := by
        rw [hpeeked]
        rfl
      split
      · exact stream_setStage h h0 rfl
      · rename_i hpending
        split
        · rename_i hrc
          subst hrc
          simp only [ok, hpeeked, Bool.or_eq_true, Bool.and_eq_true, beq_iff_eq, decide_eq_true_eq, hpending,
            Bool.false_eq_true, false_or] at hok
          exact stream_accept h hpeeked hok.1.1 hok.1.2 hok.2
        · exact stream_setStage h h0 rfl
    · exact h
  | delete t =>
    simp only [step]
    split
    · rename_i n haccepted
      exact stream_delete h haccepted
    · exact h

theorem stream_init (thresh : Nat) : Stream (init thresh) := by
  refine ⟨ringbufferInit_wf (by omega), Nat.zero_le _, ?_⟩
  show [] ++ (ringbufferInit 2048).contents.drop _ = []
  rw [contents_init, List.drop_nil, List.append_nil]

theorem undeleted_of_none (h : ∀ t n, s.stage t ≠ .accepted n) : s.undeleted = 0 := by
  have hzero : ∀ t, (s.stage t).undeleted = 0 := by
    intro t
    cases hs : s.stage t with
    | accepted n => exact absurd hs (h t n)
    | _ => rfl
  rw [Sys.undeleted, hzero, hzero]

end Stream

/-- In every run whose accepted payloads are each what the ring begins with, and are accepted while the other task has
none left to delete: the payloads and the ring are the bytes inserted, once each payload has been deleted. -/
theorem passthrough_stream (thresh : Nat) (ls : List Step)
    (h : ∀ p ∈ trace step (init thresh) ls, ok p.1 p.2 = true) :
    let s := runs step (init thresh) ls
    s.delivered ++ s.ring.contents.drop s.undeleted = s.inserted ∧
      ((∀ t n, s.stage t ≠ .accepted n) → s.delivered ++ s.ring.contents = s.inserted) := by
  have hs := runs_inv Stream (fun s l => ok s l = true) (fun s l hok hs => stream_step l hok hs) h (stream_init thresh)
  refine ⟨hs.eq, fun hnone => ?_⟩
  have heq := hs.eq
  rw [undeleted_of_none hnone, List.drop_zero] at heq
  exact heq

/-! ## Rounds that do not overlap -/

/-- No task starts a round while the other is in one. -/
def exclusive (s : Sys) : Step → Bool
  | .available => decide (s.stage .sentCb = .idle)
  | .complete => decide (s.stage .dispatch = .idle)
  | _ => true

/-- The length that a task has read is in the ring, and what it has peeked is still what the ring begins with. -/
def Fresh (s : Sys) : Stage → Prop
  | .sized n => n ≤ s.ring.size
  | .peeked n => n ≤ s.ring.size ∧ copy s.wmBuffer 0 n = s.ring.contents.take n
  | _ => True

/-- One task is idle, and the other is up to date. -/
structure Alone (s : Sys) : Prop where
  wf : s.ring.Wf
  fresh : ∃ t, s.stage t.other = .idle ∧ Fresh s (s.stage t)

section Alone

variable {s : Sys}

theorem Alone.of_busy (h : Alone s) {t : Task} (hbusy : s.stage t ≠ .idle) :
    s.stage t.other = .idle ∧ Fresh s (s.stage t) := by
  obtain ⟨t', hidle, hfresh⟩ := h.fresh
  have ht : t' = t := by
    cases t <;> cases t' <;> first | rfl | exact absurd hidle hbusy
  rw [← ht]
  exact ⟨hidle, hfresh⟩

theorem alone_setStage {t : Task} {stage : Stage} (hwf : s.ring.Wf) (hidle : s.stage t.other = .idle)
    (hfresh : Fresh s stage) : Alone (s.setStage t stage) := by
  refine ⟨hwf, t, ?_, ?_⟩
  · show Function.update s.stage t stage t.other = .idle
    rw [Function.update_of_ne (other_ne t), hidle]
  · show Fresh (s.setStage t stage) (Function.update s.stage t stage t)
    rw [Function.update_self]
    cases stage <;> exact hfresh

theorem rxLen_le (thresh size : Nat) : rxLen thresh size ≤ size := by
  rw [rxLen]
  split
  · split
    · exact Nat.zero_le _
    · exact Nat.min_le_right _ _
  · exact Nat.min_le_right _ _

theorem copy_overwrite (buf : Nat → UInt8) (bs : List UInt8) : copy (overwrite buf bs) 0 bs.length = bs := by
  refine List.ext_getElem (by simp) fun k hk hk' => ?_
  simp [copy, overwrite, List.getElem?_eq_getElem hk']

theorem alone_insert {p : List UInt8} (h : Alone s) (hp : p.length ≤ s.ring.available) :
    Alone { s with ring := s.ring.insert p, inserted := s.inserted ++ p } := by
  obtain ⟨hc, hwf, -⟩ := insert_contents h.wf hp
  have hsize : s.ring.size ≤ (s.ring.insert p).size := by
    rw [← length_contents, ← length_contents, hc, List.length_append]
    exact Nat.le_add_right _ _
  obtain ⟨t, hidle, hfresh⟩ := h.fresh
  refine ⟨hwf, t, hidle, ?_⟩
  show Fresh _ (s.stage t)
  cases hstage : s.stage t with
  | sized n =>
    rw [hstage] at hfresh
    exact Nat.le_trans hfresh hsize
  | peeked n =>
    rw [hstage] at hfresh
    refine ⟨Nat.le_trans hfresh.1 hsize, ?_⟩
    show copy s.wmBuffer 0 n = (s.ring.insert p).contents.take n
    rw [hc, List.take_append_of_le_length (by rw [length_contents]; exact hfresh.1), hfresh.2]
  | _ => trivial

theorem alone_step (l : Step) (hex : exclusive s l = true) (h : Alone s) : Alone (step s l) := by
  cases l with
  | insert p =>
    simp only [step]
    split
    · rename_i hp
      exact alone_insert h hp
    · exact h
  | available =>
    simp only [step]
    split
    · exact alone_setStage h.wf (of_decide_eq_true hex) trivial
    · exact h
  | complete =>
    simp only [step]
    split
    · exact alone_setStage (s := { s with sendPending := false }) h.wf (of_decide_eq_true hex) trivial
    · exact h
  | size t =>
    simp only [step]
    split
    · rename_i hwoken
      refine alone_setStage h.wf (h.of_busy (by rw [hwoken]; decide)).1 ?_
      split
      · exact rxLen_le _ _
      · trivial
    · exact h
  | peek t =>
    simp only [step]
    split
    · rename_i n hsized
      obtain ⟨hidle, hfresh⟩ := h.of_busy (t := t) (by rw [hsized]; exact Stage.noConfusion)
      rw [hsized] at hfresh
      refine alone_setStage (s := { s with wmBuffer := overwrite s.wmBuffer (s.ring.peek 0 n) }) h.wf hidle
        ⟨hfresh, ?_⟩
      have hlen : (s.ring.contents.take n).length = n :=
        List.length_take_of_le (by rw [length_contents]; exact hfresh)
      show copy (overwrite s.wmBuffer (s.ring.peek 0 n)) 0 n = s.ring.contents.take n
      rw [peek_contents n h.wf]
      have hcopy := copy_overwrite s.wmBuffer (s.ring.contents.take n)
      rwa [hlen] at hcopy
    · exact h
  | dispatch t rc =>
    simp only [step]
    split
    · rename_i n hpeeked
      have hidle := (h.of_busy (t := t) (by rw [hpeeked]; exact Stage.noConfusion)).1
      split
      · exact alone_setStage h.wf hidle trivial
      · split
        · exact alone_setStage
            (s := { s with sendPending := true, delivered := s.delivered ++ copy s.wmBuffer 0 n }) h.wf hidle trivial
        · exact alone_setStage h.wf hidle trivial
    · exact h
  | delete t =>
    simp only [step]
    split
    · rename_i n haccepted
      have hidle := (h.of_busy (t := t) (by rw [haccepted]; exact Stage.noConfusion)).1
      exact alone_setStage (s := { s with ring := s.ring.delete n }) (delete_contents n h.wf).2.1 hidle trivial
    · exact h

theorem ok_of_alone (l : Step) (h : Alone s) : ok s l = true := by
  cases l with
  | dispatch t rc =>
    cases rc with
    | false => rfl
    | true =>
      simp only [ok]
      split
      · rename_i n hpeeked
        obtain ⟨hidle, hfresh⟩ := h.of_busy (t := t) (by rw [hpeeked]; exact Stage.noConfusion)
        rw [hpeeked] at hfresh
        rw [hidle, hfresh.2, peek_contents n h.wf]
        simp [Stage.undeleted, hfresh.1]
      · rfl
  | _ => rfl

end Alone

/-- Runs in which the rounds of the two tasks do not overlap meet the condition of `passthrough_stream`. -/
theorem exclusive_ok (thresh : Nat) (ls : List Step)
    (h : ∀ p ∈ trace step (init thresh) ls, exclusive p.1 p.2 = true) :
    ∀ p ∈ trace step (init thresh) ls, ok p.1 p.2 = true := by
  have hinit : Alone (init thresh) := ⟨ringbufferInit_wf (by omega), .dispatch, rfl, trivial⟩
  have halone := trace_inv Alone (fun s l => exclusive s l = true) (fun s l hex hs => alone_step l hex hs) h hinit
  exact fun p hp => ok_of_alone p.2 (halone.1 p hp)

/-- A payload is inserted, sent and deleted. -/
def oneRound : List Step :=
  [.insert [1, 2], .available, .size .dispatch, .peek .dispatch, .dispatch .dispatch true, .delete .dispatch, .complete,
    .size .sentCb]

theorem passthrough_stream_oneRound : (∀ p ∈ trace step (init 2) oneRound, ok p.1 p.2 = true) ∧
    ((∀ t n, (runs step (init 2) oneRound).stage t ≠ .accepted n) →
      (runs step (init 2) oneRound).delivered ++ (runs step (init 2) oneRound).ring.contents =
        (runs step (init 2) oneRound).inserted) :=
  ⟨by decide, (passthrough_stream 2 oneRound (by decide)).2⟩

/-- The event that the payload of `wm_dispatch_task` was sent comes before the task has deleted it. -/
def overlapping : List Step :=
  [.insert [1, 2, 3, 4], .available, .size .dispatch, .peek .dispatch, .dispatch .dispatch true, .complete,
    .size .sentCb, .peek .sentCb, .dispatch .sentCb true, .delete .sentCb, .delete .dispatch]

/-- The first two bytes are sent twice, and the other two are deleted without being sent. -/
theorem passthrough_sent_twice :
    (runs step (init 2) overlapping).inserted = [1, 2, 3, 4] ∧
    (runs step (init 2) overlapping).delivered = [1, 2, 1, 2] ∧
    (runs step (init 2) overlapping).ring.contents = [] ∧
    (runs step (init 2) overlapping).stage .dispatch = .idle ∧
    (runs step (init 2) overlapping).stage .sentCb = .idle := by
  decide

end Ble
end Air101
