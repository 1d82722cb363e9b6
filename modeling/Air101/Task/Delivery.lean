import Air101.Task.Own

/-!
# Task.Delivery

Whether the wl task handles every posted message once, with what its call asked for.

* `ordered_rank`: how far a message is from being handled.
* `wl_task_delivers`: in a run of orderly steps every call that returned with success has its message
  handled once and with its own work, or waiting; and the thread gets to it.
-/

namespace Air101
namespace Task

open Storage

/-! ## Delivery -/

/-- Steps of the thread that are left before the message at the front of the pending ones is handled. -/
def Thread.weight : Thread → Nat
  | .fetch => 6
  | .got _ => 5
  | .tookFunction _ _ _ => 4
  | .took _ _ _ _ => 3
  | .loaded _ _ _ _ _ => 2
  | .calling _ _ _ => 1

/-- A bound on the steps of the thread before the message with ticket `k` is handled. -/
def Sys.rank (s : Sys) (k : Nat) : Nat := s.thread.weight + 6 * s.pending.idxOf k

/-- The messages of the shared record `id` have been handled, and no call is on it. -/
def Sys.Drained (s : Sys) (id : Fin 9) : Prop :=
  (∀ k, .shared k id ∉ s.mbox) ∧ s.thread.hold id = none ∧ ∀ i, (s.callers i).role id = none

/-- What the message layer owes its callers. Messages are handled once and with the work of their calls;
a call that returned with success has its message handled or waiting, one that returned with an error has
no message; the record of a static call whose messages have been handled takes the next one; and the
thread has a step and handles a waiting message after a bounded number of its steps. -/
structure Sys.Delivers (R : Sys → Act → Sys → Prop) (s : Sys) : Prop where
  once : s.done.Nodup
  own : ∀ p ∈ s.handled, s.asked p.1 = p.2
  success : ∀ k, s.status k = .succeeded → k ∈ s.done ∨ k ∈ s.pending
  error : ∀ k, s.status k = .failed → k ∉ s.done ∧ k ∉ s.pending
  accepts : ∀ id, s.Drained id → ∀ j function ctx block heap,
    (s.begin j (.callbackStatic function ctx block id) heap).status s.tickets = .running
  reaches : ∀ k ∈ s.pending, s.threadStep.isSome = true ∧
    ∀ bs s', Path R s bs s' → s.rank k < bs.countP Act.isThread →
      ∃ cs ds m, bs = cs ++ ds ∧ Path R s cs m ∧ Path R m ds s' ∧ k ∈ m.done

section Delivery

variable {s s' : Sys} {a : Act} {j k : Nat}

theorem thread_enabled (h : k ∈ s.pending) : s.threadStep.isSome = true := by
  unfold Sys.threadStep
  cases hp : s.thread with
  | fetch =>
    cases hm : s.mbox with
    | nil =>
      unfold Sys.pending at h
      rw [hp, hm] at h
      cases h
    | cons m rest => rfl
  | got m =>
    cases m with
    | own k w => rfl
    | shared k i => rfl
  | tookFunction k i function => rfl
  | took k i function ctx => rfl
  | loaded k i function ctx cnt => rfl
  | calling k function ctx => rfl

theorem caller_pending (h : s.step a = some s') (ha : a.isThread = false) :
    s'.thread = s.thread ∧ ∃ ms, s'.pending = s.pending ++ ms := by
  cases a with
  | thread => cases ha
  | call j r heap =>
    simp only [Sys.step] at h
    split at h
    · cases h
      have hsame : (s.begin j r heap).thread = s.thread ∧ (s.begin j r heap).mbox = s.mbox := by
        unfold Sys.begin
        split
        · split
          · exact ⟨rfl, rfl⟩
          · split
            · exact ⟨rfl, rfl⟩
            · exact ⟨rfl, rfl⟩
        · split
          · exact ⟨rfl, rfl⟩
          · exact ⟨rfl, rfl⟩
      refine ⟨hsame.1, [], ?_⟩
      unfold Sys.pending
      rw [hsame.1, hsame.2, List.append_nil]
    · cases h
  | go j =>
    have hsend : ∀ m, (s.send m).pending = s.pending ++ [m.ticket] := by
      intro m
      simp [Sys.pending, Sys.send]
    simp only [Sys.step, Sys.go] at h
    split at h
    · cases h
    · split at h
      · cases h
        exact ⟨rfl, _, hsend _⟩
      · split at h
        · split at h
          · cases h
            exact ⟨rfl, [], (List.append_nil _).symm⟩
          · cases h
            exact ⟨rfl, [], (List.append_nil _).symm⟩
        · cases h
          exact ⟨rfl, [], (List.append_nil _).symm⟩
    · cases h
      exact ⟨rfl, [], (List.append_nil _).symm⟩
    · cases h
      exact ⟨rfl, [], (List.append_nil _).symm⟩
    · split at h
      · cases h
        exact ⟨rfl, _, hsend _⟩
      · split at h
        · split at h
          · cases h
            exact ⟨rfl, [], (List.append_nil _).symm⟩
          · cases h
            exact ⟨rfl, [], (List.append_nil _).symm⟩
        · cases h
          exact ⟨rfl, [], (List.append_nil _).symm⟩
    · cases h
      exact ⟨rfl, [], (List.append_nil _).symm⟩
    · cases h
      exact ⟨rfl, [], (List.append_nil _).symm⟩

theorem rank_handle (k : Nat) (w : Work) (k' : Nat) (hheld : s.thread.held = [k']) (hw : 0 < s.thread.weight) :
    k = k' ∨ (s.handle k' w).rank k < s.rank k := by
  by_cases hkk : k' = k
  · exact .inl hkk.symm
  · right
    unfold Sys.rank Sys.pending at *
    rw [hheld, List.singleton_append, List.idxOf_cons_ne _ hkk]
    change 6 + 6 * ([] ++ s.mbox.map Msg.ticket).idxOf k < _
    rw [List.nil_append]
    omega

theorem thread_rank (k : Nat) (h : s.threadStep = some s') :
    k ∈ s'.done ∨ s'.rank k < s.rank k := by
  have hdone : ∀ w, k ∈ (s.handle k w).done := by
    intro w
    simp [Sys.done, Sys.handle]
  unfold Sys.threadStep at h
  split at h
  · rename_i hp
    split at h
    · cases h
    · rename_i m rest hm
      cases h
      right
      simp only [Sys.rank, Sys.pending, hp, hm, Thread.held, Thread.weight, List.map_cons,
        List.nil_append, List.singleton_append]
      omega
  · rename_i k' w hp
    cases h
    rcases rank_handle k w k' (by rw [hp]; rfl) (by rw [hp]; exact Nat.succ_pos _) with rfl | hlt
    · exact .inl (hdone w)
    · exact .inr hlt
  · rename_i k' id hp
    cases h
    right
    simp only [Sys.rank, Sys.pending, hp, Thread.held, Thread.weight, Msg.ticket]
    omega
  · rename_i k' id function hp
    cases h
    right
    simp only [Sys.rank, Sys.pending, hp, Thread.held, Thread.weight]
    omega
  · rename_i k' id function ctx hp
    cases h
    right
    simp only [Sys.rank, Sys.pending, hp, Thread.held, Thread.weight]
    omega
  · rename_i k' id function ctx cnt hp
    cases h
    right
    simp only [Sys.rank, Sys.pending, Sys.setSlot, hp, Thread.held, Thread.weight]
    omega
  · rename_i k' function ctx hp
    cases h
    rcases rank_handle k (.callback function ctx) k' (by rw [hp]; rfl)
      (by rw [hp]; exact Nat.succ_pos _) with rfl | hlt
    · exact .inl (hdone _)
    · exact .inr hlt

theorem ordered_rank (h : Ordered s a s') (hk : k ∈ s.pending) :
    k ∈ s'.done ∨ (s'.rank k ≤ s.rank k ∧ (a.isThread = true → s'.rank k < s.rank k)) := by
  cases ha : a.isThread with
  | false =>
    obtain ⟨hthread, ms, hms⟩ := caller_pending h.1 ha
    right
    have hsame : s'.rank k = s.rank k := by
      unfold Sys.rank
      rw [hthread, hms, List.idxOf_append_of_mem hk]
    exact ⟨Nat.le_of_eq hsame, (by simp)⟩
  | true =>
    cases a with
    | thread =>
      rcases thread_rank k h.1 with hdone | hlt
      · exact .inl hdone
      · exact .inr ⟨Nat.le_of_lt hlt, fun _ => hlt⟩
    | call j r heap => cases ha
    | go j => cases ha

theorem drained_cnt (hs : s.Own) {id : Fin 9} (hd : s.Drained id) : (s.wlMsg id).cnt = 0#8 := by
  obtain ⟨hmail, hhold, hroles⟩ := hd
  have hnone : s.mail id = [] := by
    refine List.filterMap_eq_nil_iff.mpr ?_
    intro m hm
    cases m with
    | own k w => rfl
    | shared k i =>
      refine if_neg ?_
      rintro rfl
      exact hmail k hm
  have hfree := (hs.slots id).free hroles
  rw [hhold, hnone] at hfree
  exact hfree

theorem step_valid (h : s.step a = some s') : s'.valid = s.valid := by
  cases a with
  | call j r heap =>
    simp only [Sys.step] at h
    split at h
    · cases h
      unfold Sys.begin
      split
      · split
        · rfl
        · split
          · rfl
          · rfl
      · split
        · rfl
        · rfl
    · cases h
  | go j =>
    simp only [Sys.step, Sys.go] at h
    repeat' split at h
    all_goals cases h
    all_goals rfl
  | thread =>
    simp only [Sys.step, Sys.threadStep] at h
    repeat' split at h
    all_goals cases h
    all_goals rfl

/-- The books and the messages of a run of orderly steps. -/
structure Sys.Good (s : Sys) : Prop where
  books : s.ledger.Sound
  own : s.Own
  valid : s.valid = true

theorem good_step (h : Ordered s a s') (hs : s.Good) : s'.Good :=
  ⟨(step_ledger h).sound hs.books, step_own h hs.books hs.own, (step_valid h.1).trans hs.valid⟩

theorem start_sound (size : Nat) : (Sys.start size).ledger.Sound :=
  ⟨List.nodup_nil, nofun, nofun, nofun, nofun, nofun, nofun⟩

theorem start_own (size : Nat) : (Sys.start size).Own :=
  ⟨nofun, nofun, trivial, nofun, fun _ => ⟨nofun, Nat.zero_le 1, fun _ => rfl, nofun, nofun, nofun⟩⟩

theorem start_good (size : Nat) : (Sys.start size).Good := ⟨start_sound size, start_own size, rfl⟩

end Delivery

theorem posted_grows {l l' : Ledger} {k : Nat} (h : Ledger.Step l l') (hk : k ∈ l.posted) :
    k ∈ l'.posted := by
  cases h with
  | post j k' _ => exact List.mem_append_left _ hk
  | send j k' _ => exact List.mem_append_left _ hk
  | _ => exact hk

/-- In every run of orderly steps the message layer delivers. -/
theorem wl_task_delivers (size : Nat) (as : List Act) (s : Sys)
    (hrun : Path Ordered (Sys.start size) as s) : s.Delivers Ordered := by
  have hgood : s.Good := hrun.inv Sys.Good (fun _ _ _ h hs => good_step h hs) (start_good size)
  have hsplit := List.nodup_append.mp hgood.books.nodup
  refine ⟨hsplit.1, hgood.own.handled, ?_, ?_, ?_, ?_⟩
  · intro k hk
    exact List.mem_append.mp (hgood.books.success k hk)
  · intro k hk
    exact not_or.mp fun h => hgood.books.error k hk (List.mem_append.mpr h)
  · intro id hd j function ctx block heap
    unfold Sys.begin
    simp only []
    rw [drained_cnt hgood.own hd, if_neg (by decide), if_pos hgood.valid]
    exact Function.update_self _ _ _
  · intro k hk
    refine ⟨thread_enabled hk, ?_⟩
    intro bs s' hpath hmany
    refine Path.reaches (fun m => m.Good ∧ k ∈ m.done ++ m.pending) (fun m => k ∈ m.done) Act.isThread
      (fun m => m.rank k) ?_ ?_ hpath ⟨hgood, List.mem_append_right _ hk⟩ hmany
    · rintro m a m' h ⟨hm, hin⟩
      refine ⟨good_step h hm, ?_⟩
      have hbooks := step_ledger h
      exact posted_grows hbooks hin
    · rintro m a m' h ⟨_, hin⟩ hno
      exact ordered_rank h ((List.mem_append.mp hin).resolve_left hno)

/-- One call, and the steps in which the thread handles its message. -/
def oneMessage : List Act :=
  [.call 0 (.callback 1 1 true) true, .go 0, .thread, .thread]

theorem wl_task_delivers_one : ∃ s, Path Ordered (Sys.start 1) oneMessage s ∧
    s.handled = [(0, .callback 1 1)] ∧ s.Delivers Ordered := by
  have hrun : ∃ s, Path Ordered (Sys.start 1) oneMessage s ∧ s.handled = [(0, .callback 1 1)] := by
    refine ⟨_, .cons ⟨rfl, trivial⟩ (.cons ⟨rfl, fun _ => .inl ?_⟩ (.cons ⟨rfl, trivial⟩
      (.cons ⟨rfl, trivial⟩ (.nil _)))), rfl⟩
    exact Nat.zero_lt_one
  obtain ⟨s, hpath, hhandled⟩ := hrun
  exact ⟨s, hpath, hhandled, wl_task_delivers 1 oneMessage s hpath⟩

/-- The first call fills a mailbox for one message, and the second one tries ten times. -/
def givenUp : List Act :=
  [.call 0 (.callback 1 1 true) true, .go 0, .call 0 (.callback 2 2 true) true, .go 0, .go 0, .go 0, .go 0,
    .go 0, .go 0, .go 0, .go 0, .go 0, .go 0]

/-- The second call gives up, returns with success and has lost its message. -/
theorem wl_task_gives_up :
    ¬ ∀ as s, Path (fun s a s' => s.step a = some s') (Sys.start 1) as s →
      s.Delivers (fun s a s' => s.step a = some s') := by
  intro hall
  have hlost : ∃ s, exec Sys.step (Sys.start 1) givenUp = some s ∧ s.status 1 = .succeeded ∧
      s.done = [] ∧ s.pending = [0] := ⟨_, rfl, rfl, rfl, rfl⟩
  obtain ⟨s, hexec, hok, hdone, hpend⟩ := hlost
  have := (hall givenUp s (exec_path hexec)).success 1 hok
  rw [hdone, hpend] at this
  simp at this

end Task
end Air101
