import Air101.Rtos.Deque

/-!
# Rtos.Wakeups

Why no task waits at a queue for what is there: as long as a receiver waits, the items of the queue are
no more than the receivers that were woken and have not run yet, and those that unlocking the queue will
wake; in the same way the free places and the senders.

* `Good slack s`: the invariant; `slack` is what a step still owes to a side before it wakes a task.
* `Good.move`: a step of one task. `Good.wake`: tasks are taken from an event list, with `Good.wake_call`
  for what becomes of a task that is taken and `Good.wake_tight` for what remains owed.
* `Good.turn`: the turn of a task, one lemma for each stage of its call.
* `step_good`: every step keeps `Good`, by cases on what the task does.
-/

namespace Air101
namespace Rtos

open Storage

/-! ## What a call does to the queue -/

/-- What the tasks of a side wait for: items, or free places. -/
def Queue.stock (q : Queue) : Side → Nat
  | .receive => q.messagesWaiting
  | .send => q.length - q.messagesWaiting

theorem stock_of_not_ready {q : Queue} {r : Request} (h : ¬ r.Ready q) : q.stock r.side = 0 := by
  cases r with
  | send item position =>
    have hfull : ¬ (q.messagesWaiting < q.length ∨ position = .overwrite) := h
    exact Nat.sub_eq_zero_of_le (by omega)
  | receive => exact Nat.eq_zero_of_not_pos h
  | peek => exact Nat.eq_zero_of_not_pos h

theorem stock_of_blocked {q : Queue} {r : Request} (h : r.Blocked q) : q.stock r.side = 0 := by
  cases r with
  | send item position =>
    have hfull : q.messagesWaiting = q.length := h
    exact Nat.sub_eq_zero_of_le (by omega)
  | receive => exact h
  | peek => exact h

theorem copyDataToQueue_count (q : Queue) (item : List Byte) (position : Position) :
    (q.copyDataToQueue item position).length = q.length ∧
      0 < (q.copyDataToQueue item position).messagesWaiting ∧
      (q.copyDataToQueue item position).messagesWaiting ≤ q.messagesWaiting + 1 ∧
      (position ≠ .overwrite →
        (q.copyDataToQueue item position).messagesWaiting = q.messagesWaiting + 1) := by
  rw [Queue.copyDataToQueue]
  split
  · exact ⟨rfl, Nat.succ_pos _, Nat.le_refl _, fun _ => rfl⟩
  split
  · exact ⟨rfl, Nat.succ_pos _, Nat.le_refl _, fun _ => rfl⟩
  · simp only
    split
    case isTrue h => exact ⟨trivial, by omega, by omega, fun hno => absurd h.1 hno⟩
    case isFalse h => exact ⟨trivial, by omega, by omega, fun _ => rfl⟩

theorem copyDataFromQueue_length (q : Queue) : q.copyDataFromQueue.2.length = q.length := by
  rw [Queue.copyDataFromQueue]
  split
  · rfl
  · rfl

/-- A call gives one to the side from which it takes a task, and takes one from its own. -/
theorem perform_stock {q : Queue} {r : Request} (hr : r.Ready q) (hv : r.Valid q)
    (hq : q.messagesWaiting ≤ q.length) (σ : Side) :
    (r.perform q).2.1.stock σ + (if r.side = σ then 1 else 0) ≤
        q.stock σ + (if (r.perform q).2.2 = σ then 1 else 0) ∨ (r.perform q).2.1.stock σ = 0 := by
  cases r with
  | send item position =>
    obtain ⟨hlen, hpos, hle, hplus⟩ := copyDataToQueue_count q item position
    cases σ with
    | receive => exact .inl hle
    | send =>
      simp only [Request.perform, Request.side, Queue.stock, hlen, if_true, reduceCtorEq, if_false]
      by_cases hover : position = .overwrite
      · have hone := (hv.2 hover).1
        omega
      · have hmore := hplus hover
        omega
  | receive =>
    have hpos : q.messagesWaiting > 0 := hr
    have hlen := copyDataFromQueue_length q
    simp only [Request.perform, Request.side]
    cases σ with
    | receive =>
      simp only [Queue.stock, if_true, reduceCtorEq, if_false]
      omega
    | send =>
      simp only [Queue.stock, hlen, if_true, reduceCtorEq, if_false]
      omega
  | peek => exact .inl (Nat.le_refl _)

/-- Two states of one queue. -/
structure SameShape (q q' : Queue) : Prop where
  length : q'.length = q.length
  itemSize : q'.itemSize = q.itemSize

theorem SameShape.refl (q : Queue) : SameShape q q := ⟨rfl, rfl⟩

theorem SameShape.valid {q q' : Queue} (h : SameShape q q') {r : Request} (hr : r.Valid q) :
    r.Valid q' := by
  cases r with
  | send item position =>
    have hv : item.length = q.itemSize ∧ (position = .overwrite → q.length = 1 ∧ 0 < q.itemSize) := hr
    rw [← h.length, ← h.itemSize] at hv
    exact hv
  | receive => trivial
  | peek => trivial

theorem perform_shape (q : Queue) (r : Request) : SameShape q (r.perform q).2.1 := by
  cases r with
  | send item position =>
    simp only [Request.perform, Queue.copyDataToQueue]
    split
    · exact ⟨rfl, rfl⟩
    split
    · exact ⟨rfl, rfl⟩
    · exact ⟨rfl, rfl⟩
  | receive =>
    simp only [Request.perform, Queue.copyDataFromQueue]
    split
    · exact ⟨rfl, rfl⟩
    · exact ⟨rfl, rfl⟩
  | peek => exact .refl q

/-! ## Where the tasks are -/

namespace Stage

/-- Taken from the list by the other side, and not yet back in the first critical section. -/
def woken : Stage → Bool
  | .entry woken => woken
  | .unlockQueue _ (.retry woken) => woken
  | .resumeAll (.retry woken) => woken
  | _ => false

/-- On an event list. -/
def listed : Stage → Bool
  | .blocked => true
  | .unlockQueue _ .block => true
  | .resumeAll .block => true
  | _ => false

/-- The task has suspended the scheduler. -/
def holds : Stage → Bool
  | .lockQueue => true
  | .checkForTimeOut => true
  | .isBlocked => true
  | .placeOnEventList => true
  | .unlockQueue _ _ => true
  | .resumeAll _ => true
  | _ => false

/-- The task has locked the queue. -/
def locks : Side → Stage → Bool
  | _, .checkForTimeOut => true
  | _, .isBlocked => true
  | _, .placeOnEventList => true
  | _, .unlockQueue .receive _ => true
  | .send, .unlockQueue .send _ => true
  | _, _ => false

@[simp] theorem wake_holds (stage : Stage) : stage.wake.holds = stage.holds := by
  cases stage with
  | unlockQueue side next => cases next <;> rfl
  | resumeAll next => cases next <;> rfl
  | _ => rfl

@[simp] theorem wake_locks (σ : Side) (stage : Stage) : stage.wake.locks σ = stage.locks σ := by
  cases stage with
  | unlockQueue side next => cases next <;> cases side <;> cases σ <;> rfl
  | resumeAll next => cases next <;> rfl
  | _ => rfl

theorem wake_listed {stage : Stage} (h : stage.listed = true) :
    stage.wake.listed = false ∧ stage.wake.woken = true ∧ stage.woken = false := by
  cases stage with
  | blocked => exact ⟨rfl, rfl, rfl⟩
  | unlockQueue side next =>
    cases next with
    | block => exact ⟨rfl, rfl, rfl⟩
    | retry woken => cases h
    | timeout => cases h
  | resumeAll next =>
    cases next with
    | block => exact ⟨rfl, rfl, rfl⟩
    | retry woken => cases h
    | timeout => cases h
  | _ => cases h

theorem wake_place {stage : Stage} (h : stage.wake = .placeOnEventList) : stage = .placeOnEventList := by
  cases stage with
  | unlockQueue side next => cases next <;> cases h
  | resumeAll next => cases next <;> cases h
  | placeOnEventList => rfl
  | _ => cases h

theorem holds_of_locks {σ : Side} {stage : Stage} (h : stage.locks σ = true) : stage.holds = true := by
  cases stage with
  | unlockQueue side next => rfl
  | checkForTimeOut => rfl
  | isBlocked => rfl
  | placeOnEventList => rfl
  | _ => cases σ <;> cases h

end Stage

/-- A call that waits on the list of a side, with a stage of some kind. -/
def callAt (σ : Side) (kind : Stage → Bool) (c : Option Call) : Bool :=
  c.any fun c => c.request.side = σ && kind c.stage

theorem callAt_iff {σ : Side} {kind : Stage → Bool} {c : Option Call} :
    callAt σ kind c = true ↔ ∃ d, c = some d ∧ d.request.side = σ ∧ kind d.stage = true := by
  cases c with
  | none => simp [callAt]
  | some d => simp [callAt]

def wokenAt (σ : Side) : Option Call → Bool := callAt σ Stage.woken

def listedAt (σ : Side) : Option Call → Bool := callAt σ Stage.listed

def placesAt (σ : Side) : Option Call → Bool := callAt σ (· = .placeOnEventList)

def holdsAt (c : Option Call) : Bool := c.any fun c => c.stage.holds

def locksAt (σ : Side) (c : Option Call) : Bool := c.any fun c => c.stage.locks σ

variable {ι : Type} [Fintype ι] [DecidableEq ι]

namespace Sys

/-- The tasks that were woken and have not run yet. -/
def woken (s : Sys ι) (σ : Side) : Nat := tally (wokenAt σ) s.calls

/-- What is there is for the woken tasks, for those that the unlocking is to wake, or owed. -/
def Tight (slack : Side → Nat) (s : Sys ι) (σ : Side) : Prop :=
  s.q.stock σ ≤ s.woken σ + (s.lock σ).toNat + slack σ

structure Good (slack : Side → Nat) (s : Sys ι) : Prop where
  holds : ∃ items, s.q.Holds items
  valid : ∀ i c, s.calls i = some c → c.request.Valid s.q
  nodup : ∀ σ, (s.waiters σ).Nodup
  listed : ∀ σ i, i ∈ s.waiters σ ↔ listedAt σ (s.calls i) = true
  holder : ∀ i, holdsAt (s.calls i) = true ↔ s.suspended = some i
  locked : ∀ σ, (s.lock σ = unlocked ∧ ∀ i, locksAt σ (s.calls i) = false) ∨
    (0 ≤ s.lock σ ∧ ∃ i, locksAt σ (s.calls i) = true)
  served : ∀ σ, s.waiters σ ≠ [] → Tight slack s σ
  placing : ∀ σ i, placesAt σ (s.calls i) = true → Tight slack s σ

variable {slack slack' : Side → Nat} {s : Sys ι}

/-- A step of one task that changes no event list. -/
theorem Good.move (h : s.Good slack) {i : ι} {y : Option Call} {q' : Queue} {sus : Option ι}
    {lk : Side → Int} (hholds : ∃ items, q'.Holds items) (hsame : SameShape s.q q')
    (hvalid : ∀ c, y = some c → c.request.Valid s.q)
    (hfree : s.suspended = none ∨ s.suspended = some i)
    (hlisted : ∀ σ, listedAt σ y = listedAt σ (s.calls i))
    (hsus : sus = if holdsAt y then some i else none)
    (hlock : ∀ σ, if locksAt σ y then 0 ≤ lk σ else lk σ = unlocked)
    (hserved : ∀ σ, s.waiters σ ≠ [] → Tight slack'
      { s with q := q', calls := Function.update s.calls i y, suspended := sus, lock := lk } σ)
    (hplacing : ∀ σ, placesAt σ y = true → Tight slack'
      { s with q := q', calls := Function.update s.calls i y, suspended := sus, lock := lk } σ) :
    Good slack'
      { s with q := q', calls := Function.update s.calls i y, suspended := sus, lock := lk } := by
  -- the other tasks hold nothing
  have hother : ∀ j, j ≠ i → holdsAt (s.calls j) = false := by
    intro j hj
    rw [← Bool.not_eq_true, h.holder]
    intro hs
    rcases hfree with hf | hf
    · rw [hf] at hs
      cases hs
    · rw [hf] at hs
      exact hj (Option.some_inj.mp hs).symm
  have hlocks : ∀ σ c, holdsAt c = false → locksAt σ c = false := by
    intro σ c hc
    cases c with
    | none => rfl
    | some c =>
      rw [← Bool.not_eq_true]
      intro hl
      have := @Stage.holds_of_locks σ c.stage hl
      exact absurd this (by simpa [holdsAt] using hc)
  refine ⟨hholds, fun j c hc => ?_, h.nodup, fun σ j => ?_, fun j => ?_, fun σ => ?_, hserved,
    fun σ j hj => ?_⟩
  · refine hsame.valid ?_
    by_cases hj : j = i
    · subst hj
      exact hvalid c (by simpa using hc)
    · simp only [Function.update_of_ne hj] at hc
      exact h.valid j c hc
  · by_cases hj : j = i
    · subst hj
      simp only [Function.update_self, hlisted]
      exact h.listed σ j
    · simp only [Function.update_of_ne hj]
      exact h.listed σ j
  · by_cases hj : j = i
    · subst hj
      simp only [Function.update_self, hsus]
      split
      case isTrue hy => simp [hy]
      case isFalse hy => simp [hy]
    · have hno := hother j hj
      simp only [Function.update_of_ne hj, hno, hsus, Bool.false_eq_true, false_iff]
      split
      · exact fun he => hj (Option.some_inj.mp he).symm
      · exact fun he => by cases he
  · have hl := hlock σ
    split at hl
    case isTrue hy => exact .inr ⟨hl, i, by simpa using hy⟩
    case isFalse hy =>
      refine .inl ⟨hl, fun j => ?_⟩
      by_cases hj : j = i
      · subst hj
        simpa using hy
      · simp only [Function.update_of_ne hj]
        exact hlocks σ _ (hother j hj)
  · by_cases hji : j = i
    · subst hji
      exact hplacing σ (by simpa using hj)
    · simp only [Function.update_of_ne hji] at hj
      have hno := hother j hji
      obtain ⟨c, hc, -, hstage⟩ := callAt_iff.mp hj
      rw [decide_eq_true_eq] at hstage
      have hhold : c.stage.holds = false := by
        rw [hc] at hno
        exact hno
      rw [hstage] at hhold
      cases hhold

section Wake

variable {σ τ : Side} {n : Nat} {i : ι}

omit [Fintype ι] in
theorem wake_waiters (s : Sys ι) (σ : Side) (n : Nat) :
    (s.wake σ n).waiters = Function.update s.waiters σ ((s.waiters σ).drop n) := rfl

omit [Fintype ι] in
theorem wake_stay (hi : i ∉ (s.waiters σ).take n) : (s.wake σ n).calls i = s.calls i :=
  mapOn_of_not_mem hi

/-- A task that is taken from its list. -/
theorem Good.wake_call (h : s.Good slack) (hi : i ∈ (s.waiters σ).take n) :
    ∃ c, s.calls i = some c ∧ c.request.side = σ ∧ c.stage.listed = true ∧
      (s.wake σ n).calls i = some (c.goto c.stage.wake) := by
  obtain ⟨c, hc, hside, hlisted⟩ := callAt_iff.mp ((h.listed σ i).mp (List.mem_of_mem_take hi))
  refine ⟨c, hc, hside, hlisted, ?_⟩
  have hmap : (s.wake σ n).calls i = (s.calls i).map fun c => c.goto c.stage.wake :=
    mapOn_of_mem hi
  rw [hmap, hc]
  rfl

theorem Good.wake_woken (h : s.Good slack) (σ τ : Side) (n : Nat) :
    (s.wake σ n).woken τ = s.woken τ + if τ = σ then min n (s.waiters σ).length else 0 := by
  split
  case isTrue hτ =>
    subst hτ
    rw [← List.length_take]
    refine tally_mapOn ((List.take_sublist n _).nodup (h.nodup τ)) fun i hi => ?_
    obtain ⟨c, hc, hside, hlisted, -⟩ := h.wake_call hi
    obtain ⟨-, hyes, hno⟩ := Stage.wake_listed hlisted
    rw [hc]
    simp [wokenAt, callAt, Call.goto, hside, hyes, hno]
  case isFalse hτ =>
    refine tally_mapOn_same fun i hi => ?_
    obtain ⟨c, hc, hside, -⟩ := h.wake_call hi
    rw [hc]
    simp [wokenAt, callAt, Call.goto, hside, Ne.symm hτ]

/-- What a task holds it keeps. -/
theorem Good.wake_any (h : s.Good slack) (σ : Side) (n : Nat) {p : Stage → Bool}
    (hp : ∀ stage : Stage, p stage.wake = p stage) (i : ι) :
    ((s.wake σ n).calls i).any (fun c => p c.stage) = (s.calls i).any fun c => p c.stage := by
  by_cases hi : i ∈ (s.waiters σ).take n
  · obtain ⟨c, hc, -, -, hc'⟩ := h.wake_call hi
    rw [hc', hc]
    exact hp c.stage
  · rw [wake_stay hi]

/-- The list of the side gets shorter by the tasks that are not on it any longer. -/
theorem Good.wake_listed (h : s.Good slack) (σ τ : Side) (n : Nat) (i : ι) :
    i ∈ (s.wake σ n).waiters τ ↔ listedAt τ ((s.wake σ n).calls i) = true := by
  by_cases hτ : τ = σ
  · subst hτ
    have hsplit : i ∈ s.waiters τ ↔ i ∈ (s.waiters τ).take n ∨ i ∈ (s.waiters τ).drop n := by
      rw [← List.mem_append, List.take_append_drop]
    rw [wake_waiters, Function.update_self]
    by_cases hi : i ∈ (s.waiters τ).take n
    · obtain ⟨c, -, -, hlisted, hc'⟩ := h.wake_call hi
      have hdrop : i ∉ (s.waiters τ).drop n :=
        fun hd => List.disjoint_take_drop (h.nodup τ) (Nat.le_refl n) hi hd
      rw [hc']
      simp [listedAt, callAt, Call.goto, (Stage.wake_listed hlisted).1, hdrop]
    · rw [wake_stay hi, ← h.listed τ i, hsplit]
      simp [hi]
  · rw [wake_waiters, Function.update_of_ne hτ, h.listed τ i]
    by_cases hi : i ∈ (s.waiters σ).take n
    · obtain ⟨c, hc, hside, -, hc'⟩ := h.wake_call hi
      rw [hc, hc']
      simp [listedAt, callAt, Call.goto, hside, Ne.symm hτ]
    · rw [wake_stay hi]

/-- A task about to enter a list is not taken from one. -/
theorem Good.wake_places (h : s.Good slack) (hi : placesAt τ ((s.wake σ n).calls i) = true) :
    placesAt τ (s.calls i) = true := by
  by_cases hw : i ∈ (s.waiters σ).take n
  · obtain ⟨c, hc, -, hlisted, hc'⟩ := h.wake_call hw
    obtain ⟨d, hd, hside, hstage⟩ := callAt_iff.mp hi
    rw [hc', Option.some_inj] at hd
    rw [← hd, decide_eq_true_eq] at hstage
    have hplace := Stage.wake_place hstage
    rw [hplace] at hlisted
    cases hlisted
  · rw [wake_stay hw] at hi
    exact hi

/-- A side that has tasks enough for all that is owed to it. -/
theorem Good.wake_tight (h : s.Good slack) (hslack : ∀ τ, slack τ ≤ slack' τ + if τ = σ then n else 0)
    (ht : Tight slack s τ) (hn : τ = σ → n ≤ (s.waiters σ).length) : Tight slack' (s.wake σ n) τ := by
  have hs := hslack τ
  have hw := h.wake_woken σ τ n
  have hq : (s.wake σ n).q = s.q := rfl
  have hl : (s.wake σ n).lock = s.lock := rfl
  rw [Tight] at ht ⊢
  rw [hw, hq, hl]
  split
  case isTrue hτ =>
    rw [if_pos hτ] at hs
    have := hn hτ
    omega
  case isFalse hτ =>
    rw [if_neg hτ] at hs
    omega

omit [Fintype ι] in
/-- A list that is not empty afterwards was longer than what was taken from it. -/
theorem wake_rest (hne : (s.wake σ n).waiters τ ≠ []) :
    s.waiters τ ≠ [] ∧ (τ = σ → n ≤ (s.waiters σ).length) := by
  rw [wake_waiters] at hne
  by_cases hτ : τ = σ
  · subst hτ
    rw [Function.update_self] at hne
    have hlen := List.length_pos_iff.mpr hne
    rw [List.length_drop] at hlen
    exact ⟨List.ne_nil_of_length_pos (by omega), fun _ => by omega⟩
  · rw [Function.update_of_ne hτ] at hne
    exact ⟨hne, fun he => absurd he hτ⟩

/-- Taking tasks from the list of a side pays what is owed to it. -/
theorem Good.wake (h : s.Good slack) (hno : ∀ i, placesAt σ (s.calls i) = false)
    (hslack : ∀ τ, slack τ ≤ slack' τ + if τ = σ then n else 0) : (s.wake σ n).Good slack' := by
  refine ⟨h.holds, fun i c hc => ?_, fun τ => ?_, fun τ i => h.wake_listed σ τ n i, fun i => ?_,
    fun τ => ?_, fun τ hne => ?_, fun τ i hi => ?_⟩
  · by_cases hi : i ∈ (s.waiters σ).take n
    · obtain ⟨d, hd, -, -, hd'⟩ := h.wake_call hi
      rw [hd', Option.some_inj] at hc
      rw [← hc]
      exact h.valid i d hd
    · rw [wake_stay hi] at hc
      exact h.valid i c hc
  · rw [wake_waiters]
    by_cases hτ : τ = σ
    · subst hτ
      rw [Function.update_self]
      exact (List.drop_sublist n _).nodup (h.nodup τ)
    · rw [Function.update_of_ne hτ]
      exact h.nodup τ
  · have hh : holdsAt ((s.wake σ n).calls i) = holdsAt (s.calls i) := h.wake_any σ n Stage.wake_holds i
    rw [hh]
    exact h.holder i
  · have hl : ∀ i, locksAt τ ((s.wake σ n).calls i) = locksAt τ (s.calls i) :=
      h.wake_any σ n (Stage.wake_locks τ)
    simp only [hl]
    exact h.locked τ
  · obtain ⟨hbefore, hlen⟩ := wake_rest hne
    exact h.wake_tight hslack (h.served τ hbefore) hlen
  · have hbefore := h.wake_places hi
    refine h.wake_tight hslack (h.placing τ i hbefore) fun hτ => ?_
    subst hτ
    rw [hno i] at hbefore
    cases hbefore

end Wake

/-- Nothing is owed between the steps. -/
def noSlack : Side → Nat := fun _ => 0

omit [DecidableEq ι] in
/-- The locks in the eyes of the only task that may hold them. -/
theorem Good.lock_at (h : s.Good slack) {i : ι} (hfree : s.suspended = none ∨ s.suspended = some i)
    (σ : Side) : if locksAt σ (s.calls i) then 0 ≤ s.lock σ else s.lock σ = unlocked := by
  rcases h.locked σ with ⟨hl, hno⟩ | ⟨hl, j, hj⟩
  · rw [hno i]
    exact hl
  · have hhold : holdsAt (s.calls j) = true := by
      cases hc : s.calls j with
      | none =>
        rw [hc] at hj
        cases hj
      | some c =>
        rw [hc] at hj
        exact Stage.holds_of_locks hj
    have hsus := (h.holder j).mp hhold
    have hji : j = i := by
      rcases hfree with hf | hf
      · rw [hf] at hsus
        cases hsus
      · rw [hf] at hsus
        exact (Option.some_inj.mp hsus).symm
    rw [← hji, hj]
    exact hl

/-- A step of one task that changes neither the items nor an event list. -/
theorem Good.local (h : s.Good noSlack) {i : ι} {y : Option Call} (sus : Option ι) (lk : Side → Int)
    (hvalid : ∀ c, y = some c → c.request.Valid s.q)
    (hfree : s.suspended = none ∨ s.suspended = some i)
    (hlisted : ∀ σ, listedAt σ y = listedAt σ (s.calls i))
    (hsus : sus = if holdsAt y then some i else none)
    (hlock : ∀ σ, if locksAt σ y then 0 ≤ lk σ else lk σ = unlocked)
    (hlk : ∀ σ, (lk σ).toNat = (s.lock σ).toNat)
    (hwoken : ∀ σ, wokenAt σ (s.calls i) = true → wokenAt σ y = true ∨ s.q.stock σ = 0)
    (hplaces : ∀ σ, placesAt σ y = true → s.q.stock σ = 0) :
    Good noSlack { s with calls := Function.update s.calls i y, suspended := sus, lock := lk } := by
  refine h.move h.holds (.refl s.q) hvalid hfree hlisted hsus hlock (fun σ hne => ?_) fun σ hp => ?_
  · have ht := h.served σ hne
    have hcount := tally_update (wokenAt σ) s.calls i y
    simp only [Tight, woken, hlk] at ht ⊢
    by_cases hw : wokenAt σ (s.calls i) = true
    · rcases hwoken σ hw with hy | hzero
      · rw [if_pos hw, if_pos hy] at hcount
        omega
      · omega
    · rw [if_neg hw] at hcount
      omega
  · have hzero := hplaces σ hp
    simp only [Tight]
    omega

/-- The case without a change of the scheduler or the locks. -/
theorem Good.setCall (h : s.Good noSlack) {i : ι} {y : Option Call}
    (hvalid : ∀ c, y = some c → c.request.Valid s.q)
    (hfree : s.suspended = none ∨ s.suspended = some i)
    (hlisted : ∀ σ, listedAt σ y = listedAt σ (s.calls i)) (hholds : holdsAt y = holdsAt (s.calls i))
    (hlocks : ∀ σ, locksAt σ y = locksAt σ (s.calls i))
    (hwoken : ∀ σ, wokenAt σ (s.calls i) = true → wokenAt σ y = true ∨ s.q.stock σ = 0)
    (hplaces : ∀ σ, placesAt σ y = true → s.q.stock σ = 0) : (s.setCall i y).Good noSlack := by
  refine h.local s.suspended s.lock hvalid hfree hlisted ?_ (fun σ => ?_) (fun _ => rfl)
    hwoken hplaces
  · rw [hholds]
    split
    case isTrue hy => exact (h.holder i).mp hy
    case isFalse hy =>
      rcases hfree with hf | hf
      · exact hf
      · exact absurd ((h.holder i).mpr hf) hy
  · rw [hlocks]
    exact h.lock_at hfree σ

omit [DecidableEq ι] in
/-- Only the task with the scheduler can be about to enter a list. -/
theorem Good.no_place (h : s.Good slack)
    (hs : ∀ i c, s.suspended = some i → s.calls i = some c → c.stage ≠ .placeOnEventList) (σ : Side)
    (i : ι) : placesAt σ (s.calls i) = false := by
  rw [← Bool.not_eq_true]
  intro hp
  obtain ⟨c, hc, -, hstage⟩ := callAt_iff.mp hp
  rw [decide_eq_true_eq] at hstage
  have hhold : holdsAt (s.calls i) = true := by
    rw [hc]
    show c.stage.holds = true
    rw [hstage]
    rfl
  exact hs i c ((h.holder i).mp hhold) hc hstage

omit [DecidableEq ι] in
/-- A step of an interrupt handler: the items and the locks change. -/
theorem Good.env (h : s.Good slack) {q' : Queue} {lk : Side → Int}
    (hholds : ∃ items, q'.Holds items) (hsame : SameShape s.q q')
    (hlk : ∀ σ, (s.lock σ = unlocked → lk σ = unlocked) ∧ (0 ≤ s.lock σ → 0 ≤ lk σ))
    (htight : ∀ σ, Tight slack s σ → Tight slack' { s with q := q', lock := lk } σ) :
    Good slack' { s with q := q', lock := lk } where
  holds := hholds
  valid := fun i c hc => hsame.valid (h.valid i c hc)
  nodup := h.nodup
  listed := h.listed
  holder := h.holder
  locked := fun σ => (h.locked σ).imp (fun hl => ⟨(hlk σ).1 hl.1, hl.2⟩) fun hl => ⟨(hlk σ).2 hl.1, hl.2⟩
  served := fun σ hne => htight σ (h.served σ hne)
  placing := fun σ i hi => htight σ (h.placing σ i hi)

/-- A call that finds what it wants. -/
theorem Good.ready (h : s.Good noSlack) {i : ι} {c : Call} {w : Bool} (hc : s.calls i = some c)
    (hstage : c.stage = .entry w) (hsus : s.suspended = none) (hr : c.request.Ready s.q) :
    (({ s with q := (c.request.perform s.q).2.1 }.setCall i none).wake
      (c.request.perform s.q).2.2 1).Good noSlack := by
  obtain ⟨items, hitems⟩ := h.holds
  have hv := h.valid i c hc
  have hbound : s.q.messagesWaiting ≤ s.q.length := hitems.count ▸ hitems.bound
  have hplace := h.no_place fun j d hj => by
    rw [hsus] at hj
    cases hj
  have hlock : ∀ σ, s.lock σ = unlocked := by
    intro σ
    have hl := h.lock_at (i := i) (.inl hsus) σ
    rw [hc] at hl
    simpa [locksAt, hstage, Stage.locks] using hl
  have hgood : Good (fun σ => if (c.request.perform s.q).2.2 = σ then 1 else 0)
      { s with
        q := (c.request.perform s.q).2.1, calls := Function.update s.calls i none
        suspended := s.suspended, lock := s.lock } := by
    refine h.move (perform_holds hitems hr hv) (perform_shape _ _) (fun _ hd => by cases hd)
      (.inl hsus) (fun σ => ?_) (by simpa [holdsAt] using hsus) (fun σ => by simpa [locksAt] using hlock σ)
      (fun σ hne => ?_) (fun σ hp => by cases hp)
    · rw [hc]
      simp [listedAt, callAt, hstage, Stage.listed]
    · have ht := h.served σ hne
      have hcount := tally_update (wokenAt σ) s.calls i none
      have hstock := perform_stock hr hv hbound σ
      have hcaller : (if wokenAt σ (s.calls i) then 1 else 0) ≤ if c.request.side = σ then 1 else 0 := by
        rw [hc]
        by_cases hside : c.request.side = σ
        · rw [if_pos hside]
          split
          · exact Nat.le_refl 1
          · exact Nat.zero_le 1
        · simp [wokenAt, callAt, hside]
      have hnone : (if wokenAt σ none then 1 else 0) = 0 := rfl
      rw [hnone] at hcount
      simp only [Tight, woken, noSlack] at ht ⊢
      omega
  refine Good.wake (s := Sys.setCall { s with q := (c.request.perform s.q).2.1 } i none) hgood ?_
    fun τ => ?_
  · intro j
    have hj : (Sys.setCall { s with q := (c.request.perform s.q).2.1 } i none).calls j =
        Function.update s.calls i none j := rfl
    rw [hj]
    by_cases hji : j = i
    · subst hji
      rw [Function.update_self]
      rfl
    · rw [Function.update_of_ne hji]
      exact hplace _ j
  · simp only [noSlack, Nat.zero_add, eq_comm]
    exact Nat.le_refl _

/-- The stage behind one of the loops of `prvUnlockQueue`. -/
def afterUnlock : Side → After → Stage
  | .receive, next => .unlockQueue .send next
  | .send, next => .resumeAll next

/-- Unlocking one side pays back what came in while it was locked. -/
theorem Good.unlock (h : s.Good noSlack) {i : ι} {c : Call} {side : Side} {next : After}
    (hc : s.calls i = some c) (hstage : c.stage = .unlockQueue side next) :
    ((s.setCall i (some (c.goto (afterUnlock side next)))).unlockQueue side).Good noSlack := by
  have hhold : holdsAt (s.calls i) = true := by
    rw [hc]
    show c.stage.holds = true
    rw [hstage]
    rfl
  have hsus := (h.holder i).mp hhold
  have hlock := h.lock_at (i := i) (.inr hsus)
  rw [hc] at hlock
  have hgood : Good (fun σ => if side = σ then (s.lock side).toNat else 0)
      { s with
        q := s.q, calls := Function.update s.calls i (some (c.goto (afterUnlock side next)))
        suspended := s.suspended, lock := Function.update s.lock side unlocked } := by
    refine h.move h.holds (.refl s.q) (fun d hd => ?_) (.inr hsus) (fun σ => ?_) ?_ (fun σ => ?_)
      (fun σ hne => ?_) (fun σ hp => ?_)
    · rw [← Option.some_inj.mp hd]
      exact h.valid i c hc
    · rw [hc]
      cases side <;> cases next <;> simp [listedAt, callAt, hstage, Stage.listed, afterUnlock, Call.goto]
    · cases side <;> simpa [holdsAt, afterUnlock, Call.goto, Stage.holds] using hsus
    · have hl := hlock σ
      cases side with
      | receive =>
        cases σ with
        | receive => simp [locksAt, Call.goto, afterUnlock, Stage.locks]
        | send =>
          have hs : 0 ≤ s.lock .send := by simpa [locksAt, hstage, Stage.locks] using hl
          simpa [locksAt, Call.goto, afterUnlock, Stage.locks] using hs
      | send =>
        cases σ with
        | receive =>
          have hr : s.lock .receive = unlocked := by simpa [locksAt, hstage, Stage.locks] using hl
          simpa [locksAt, Call.goto, afterUnlock, Stage.locks] using hr
        | send => simp [locksAt, Call.goto, afterUnlock, Stage.locks]
    · have ht := h.served σ hne
      have hsame : wokenAt σ (s.calls i) = wokenAt σ (some (c.goto (afterUnlock side next))) := by
        rw [hc]
        cases side <;> cases next <;> simp [wokenAt, callAt, hstage, Stage.woken, afterUnlock, Call.goto]
      simp only [Tight, woken, noSlack, tally_update_same hsame] at ht ⊢
      by_cases hσ : side = σ
      · subst hσ
        rw [Function.update_self, if_pos rfl]
        have : unlocked.toNat = 0 := rfl
        omega
      · rw [Function.update_of_ne (Ne.symm hσ), if_neg hσ]
        exact ht
    · obtain ⟨d, hd, -, hplace⟩ := callAt_iff.mp hp
      rw [← Option.some_inj.mp hd, decide_eq_true_eq] at hplace
      cases side <;> cases hplace
  have hnext : (s.setCall i (some (c.goto (afterUnlock side next)))).unlockQueue side =
      Sys.wake { s with
        q := s.q, calls := Function.update s.calls i (some (c.goto (afterUnlock side next)))
        suspended := s.suspended, lock := Function.update s.lock side unlocked } side
          (s.lock side).toNat := rfl
  rw [hnext]
  refine hgood.wake (hgood.no_place (fun j d hj hd => ?_) side) fun τ => ?_
  · have hji : j = i := by
      have hsi : s.suspended = some j := hj
      rw [hsus] at hsi
      exact (Option.some_inj.mp hsi).symm
    subst hji
    simp only [Function.update_self, Option.some_inj] at hd
    rw [← hd]
    cases side <;> exact fun hp => by cases hp
  · simp only [noSlack, Nat.zero_add, eq_comm]
    exact Nat.le_refl _

omit [Fintype ι] [DecidableEq ι] in
theorem insertByPriority_perm (priority : ι → Nat) (i : ι) (l : List ι) :
    (insertByPriority priority i l).Perm (i :: l) := by
  rw [insertByPriority]
  refine List.perm_middle.trans ?_
  rw [List.takeWhile_append_dropWhile]

/-- One task enters or leaves its list. -/
theorem Good.relist (h : s.Good noSlack) {i : ι} {c : Call} {stage : Stage} {l : List ι}
    (hc : s.calls i = some c) (hl : l.Nodup)
    (hmem : ∀ j, j ∈ l ↔ if j = i then stage.listed = true else j ∈ s.waiters c.request.side)
    (hholds : stage.holds = c.stage.holds) (hlocks : ∀ σ, stage.locks σ = c.stage.locks σ)
    (hwoken : c.stage.woken = stage.woken) (hplace : stage ≠ .placeOnEventList)
    (htight : l ≠ [] → Tight noSlack s c.request.side) :
    Good noSlack { s.setCall i (some (c.goto stage)) with
      waiters := Function.update s.waiters c.request.side l } := by
  have hcalls : ∀ {j}, j ≠ i → Function.update s.calls i (some (c.goto stage)) j = s.calls j :=
    fun hj => Function.update_of_ne hj _ _
  have htightEq : ∀ σ, Tight noSlack s σ → Tight noSlack { s.setCall i (some (c.goto stage)) with
      waiters := Function.update s.waiters c.request.side l } σ := by
    intro σ ht
    have hsame : wokenAt σ (s.calls i) = wokenAt σ (some (c.goto stage)) := by
      rw [hc]
      simp [wokenAt, callAt, Call.goto, hwoken]
    simp only [Tight, woken, Sys.setCall, tally_update_same hsame] at ht ⊢
    exact ht
  refine ⟨h.holds, fun j d hd => ?_, fun σ => ?_, fun σ j => ?_, fun j => ?_, fun σ => ?_,
    fun σ hne => ?_, fun σ j hj => ?_⟩
  · by_cases hj : j = i
    · subst hj
      simp only [Sys.setCall, Function.update_self, Option.some_inj] at hd
      rw [← hd]
      exact h.valid j c hc
    · simp only [Sys.setCall, hcalls hj] at hd
      exact h.valid j d hd
  · by_cases hσ : σ = c.request.side
    · subst hσ
      simp only [Function.update_self]
      exact hl
    · simp only [Function.update_of_ne hσ]
      exact h.nodup σ
  · by_cases hj : j = i
    · subst hj
      by_cases hσ : σ = c.request.side
      · subst hσ
        simp only [Function.update_self, Sys.setCall, hmem, if_true]
        simp [listedAt, callAt, Call.goto]
      · have hno := h.listed σ j
        rw [hc] at hno
        simp only [Function.update_of_ne hσ, Sys.setCall, Function.update_self, hno]
        simp [listedAt, callAt, Call.goto, Ne.symm hσ]
    · simp only [Sys.setCall, hcalls hj]
      rw [← h.listed σ j]
      by_cases hσ : σ = c.request.side
      · subst hσ
        rw [Function.update_self, hmem, if_neg hj]
      · rw [Function.update_of_ne hσ]
  · by_cases hj : j = i
    · subst hj
      have hhold := h.holder j
      rw [hc] at hhold
      simp only [Sys.setCall, Function.update_self]
      rw [← hhold]
      simp [holdsAt, Call.goto, hholds]
    · simp only [Sys.setCall, hcalls hj]
      exact h.holder j
  · have hsame : ∀ j, locksAt σ (Function.update s.calls i (some (c.goto stage)) j) =
        locksAt σ (s.calls j) := by
      intro j
      by_cases hj : j = i
      · subst hj
        rw [Function.update_self, hc]
        simp [locksAt, Call.goto, hlocks]
      · rw [hcalls hj]
    simp only [Sys.setCall, hsame]
    exact h.locked σ
  · by_cases hσ : σ = c.request.side
    · subst hσ
      simp only [Function.update_self] at hne
      exact htightEq _ (htight hne)
    · simp only [Function.update_of_ne hσ] at hne
      exact htightEq σ (h.served σ hne)
  · by_cases hji : j = i
    · subst hji
      simp only [Sys.setCall, Function.update_self] at hj
      obtain ⟨d, hd, -, hstage⟩ := callAt_iff.mp hj
      rw [← Option.some_inj.mp hd, decide_eq_true_eq] at hstage
      exact absurd hstage hplace
    · simp only [Sys.setCall, hcalls hji] at hj
      exact htightEq σ (h.placing σ j hj)

omit [DecidableEq ι] in
theorem Good.mem_waiters (h : s.Good slack) {i : ι} {c : Call} (hc : s.calls i = some c) :
    i ∈ s.waiters c.request.side ↔ c.stage.listed = true := by
  rw [h.listed, hc]
  simp [listedAt, callAt]

/-- A task enters its list while it has the queue locked. -/
theorem Good.place (h : s.Good noSlack) {i : ι} {c : Call} (hc : s.calls i = some c)
    (hstage : c.stage = .placeOnEventList) :
    Good noSlack { s.setCall i (some (c.goto (.unlockQueue .receive .block))) with
      waiters := Function.update s.waiters c.request.side
        (insertByPriority s.priority i (s.waiters c.request.side)) } := by
  have hperm := insertByPriority_perm s.priority i (s.waiters c.request.side)
  have hout : i ∉ s.waiters c.request.side := by
    rw [h.mem_waiters hc, hstage]
    exact fun hl => by cases hl
  refine h.relist hc ?_ (fun j => ?_) ?_ (fun σ => ?_) ?_ (fun hp => by cases hp) fun _ => ?_
  · exact hperm.nodup_iff.mpr (List.nodup_cons.mpr ⟨hout, h.nodup _⟩)
  · rw [hperm.mem_iff, List.mem_cons]
    by_cases hj : j = i
    · simp [hj, Stage.listed]
    · simp [hj]
  · rw [hstage]
    rfl
  · rw [hstage]
    rfl
  · rw [hstage]
    rfl
  · refine h.placing _ i ?_
    rw [hc]
    simp [placesAt, callAt, hstage]

/-- A blocked task is taken from its list because its time is over. -/
theorem Good.expire (h : s.Good noSlack) {i : ι} {c : Call} (hc : s.calls i = some c)
    (hstage : c.stage = .blocked) :
    Good noSlack { s.setCall i (some (c.goto (.entry false))) with
      waiters := Function.update s.waiters c.request.side
        ((s.waiters c.request.side).erase i) } := by
  refine h.relist hc ((h.nodup _).erase i) (fun j => ?_) ?_ (fun σ => ?_) ?_ (fun hp => by cases hp)
    fun hne => ?_
  · rw [(h.nodup _).mem_erase_iff]
    by_cases hj : j = i
    · simp [hj, Stage.listed]
    · simp [hj]
  · rw [hstage]
    rfl
  · rw [hstage]
    cases σ <;> rfl
  · rw [hstage]
    rfl
  · refine h.served _ fun hnil => hne ?_
    rw [hnil]
    rfl

omit [DecidableEq ι] in
/-- A task in a stage that holds the scheduler is the one that has suspended it. -/
theorem Good.suspended_of (h : s.Good slack) {i : ι} {c : Call} (hc : s.calls i = some c)
    (hstage : c.stage.holds = true) : s.suspended = some i := by
  refine (h.holder i).mp ?_
  rw [hc]
  exact hstage

omit [Fintype ι] [DecidableEq ι] in
theorem lockQueue_toNat (s : Sys ι) (σ : Side) : (s.lockQueue.lock σ).toNat = (s.lock σ).toNat := by
  simp only [lockQueue]
  split
  case isTrue hl =>
    rw [hl]
    rfl
  case isFalse => rfl

/-- A task goes on to a stage on the same lists and with the same locks. -/
theorem Good.advance (h : s.Good noSlack) {i : ι} {c d : Call} (hc : s.calls i = some c)
    (hreq : d.request = c.request) (hfree : s.suspended = none ∨ s.suspended = some i)
    (hlisted : d.stage.listed = c.stage.listed) (hholds : d.stage.holds = c.stage.holds)
    (hlocks : ∀ σ, d.stage.locks σ = c.stage.locks σ)
    (hwoken : c.stage.woken = true → s.q.stock c.request.side = 0)
    (hplace : d.stage = .placeOnEventList → s.q.stock c.request.side = 0) :
    (s.setCall i (some d)).Good noSlack := by
  refine h.setCall (fun e he => ?_) hfree (fun σ => ?_) ?_ (fun σ => ?_) (fun σ hw => .inr ?_) fun σ hp => ?_
  · rw [← Option.some_inj.mp he, hreq]
    exact h.valid i c hc
  · simp [hc, listedAt, callAt, hreq, hlisted]
  · rw [hc]
    exact hholds
  · rw [hc]
    exact hlocks σ
  · obtain ⟨e, he, hside, hw'⟩ := callAt_iff.mp hw
    rw [hc, Option.some_inj] at he
    rw [← he] at hside hw'
    rw [← hside]
    exact hwoken hw'
  · obtain ⟨e, he, hside, hstage⟩ := callAt_iff.mp hp
    rw [Option.some_inj] at he
    rw [← he, decide_eq_true_eq] at hstage
    rw [← he, hreq] at hside
    rw [← hside]
    exact hplace hstage

/-- A task that is on no list and holds nothing gives up. -/
theorem Good.leave (h : s.Good noSlack) {i : ι} {c : Call} (hc : s.calls i = some c)
    (hsus : s.suspended = none) (hlisted : c.stage.listed = false) (hholds : c.stage.holds = false)
    (hlocks : ∀ σ, c.stage.locks σ = false)
    (hwoken : c.stage.woken = true → s.q.stock c.request.side = 0) : (s.setCall i none).Good noSlack := by
  refine h.setCall (fun _ hd => by cases hd) (.inl hsus) (fun σ => ?_) ?_ (fun σ => ?_)
    (fun σ hw => .inr ?_) fun σ hp => by cases hp
  · simp [hc, listedAt, callAt, hlisted]
  · rw [hc]
    exact hholds.symm
  · rw [hc]
    exact (hlocks σ).symm
  · obtain ⟨d, hd, hside, hw'⟩ := callAt_iff.mp hw
    rw [hc, Option.some_inj] at hd
    rw [← hd] at hside hw'
    rw [← hside]
    exact hwoken hw'

theorem Good.entry (h : s.Good noSlack) {i : ι} {c : Call} {w : Bool} (hc : s.calls i = some c)
    (hstage : c.stage = .entry w) (hsus : s.suspended = none) : (s.entry i c).2.Good noSlack := by
  rw [Sys.entry]
  split
  case isTrue hr => exact h.ready hc hstage hsus hr
  case isFalse hr =>
    have hzero := stock_of_not_ready hr
    split
    · refine h.leave hc hsus ?_ ?_ (fun σ => ?_) fun _ => hzero
      · rw [hstage]
        rfl
      · rw [hstage]
        rfl
      · rw [hstage]
        cases σ <;> rfl
    · refine h.advance hc rfl (.inl hsus) ?_ ?_ (fun σ => ?_) (fun _ => hzero) (fun hp => by cases hp)
      · rw [hstage]
        rfl
      · rw [hstage]
        rfl
      · rw [hstage]
        cases σ <;> rfl

/-- A task suspends the scheduler. -/
theorem Good.suspendAll (h : s.Good noSlack) {i : ι} {c : Call} (hc : s.calls i = some c)
    (hstage : c.stage = .suspendAll) (hsus : s.suspended = none) :
    Good noSlack { s.setCall i (some (c.goto .lockQueue)) with suspended := some i } := by
  have hlock := h.lock_at (i := i) (.inl hsus)
  refine h.local (some i) s.lock (fun d hd => ?_) (.inl hsus) (fun σ => ?_) rfl (fun σ => ?_)
    (fun _ => rfl) (fun σ hw => ?_) fun σ hp => ?_
  · rw [← Option.some_inj.mp hd]
    exact h.valid i c hc
  · simp [hc, listedAt, callAt, hstage, Stage.listed, Call.goto]
  · have hl := hlock σ
    rw [hc] at hl
    simpa [locksAt, Call.goto, hstage, Stage.locks] using hl
  · simp [hc, wokenAt, callAt, hstage, Stage.woken] at hw
  · simp [placesAt, callAt, Call.goto] at hp

/-- The task with the scheduler locks the queue. -/
theorem Good.lockQueue (h : s.Good noSlack) {i : ι} {c : Call} (hc : s.calls i = some c)
    (hstage : c.stage = .lockQueue) :
    (s.lockQueue.setCall i (some (c.goto .checkForTimeOut))).Good noSlack := by
  have hsus := h.suspended_of hc (by rw [hstage]; rfl)
  have hlock := h.lock_at (i := i) (.inr hsus)
  refine h.local s.suspended s.lockQueue.lock (fun d hd => ?_) (.inr hsus) (fun σ => ?_)
    hsus (fun σ => ?_) (lockQueue_toNat s) (fun σ hw => ?_) fun σ hp => ?_
  · rw [← Option.some_inj.mp hd]
    exact h.valid i c hc
  · simp [hc, listedAt, callAt, hstage, Stage.listed, Call.goto]
  · have hl := hlock σ
    rw [hc] at hl
    have hun : s.lock σ = unlocked := by simpa [locksAt, hstage, Stage.locks] using hl
    simp [locksAt, Call.goto, Stage.locks, Sys.lockQueue, hun]
  · simp [hc, wokenAt, callAt, hstage, Stage.woken] at hw
  · simp [placesAt, callAt, Call.goto] at hp

/-- The task asks whether its time is over. -/
theorem Good.checkForTimeOut (h : s.Good noSlack) {i : ι} {c : Call} (hc : s.calls i = some c)
    (hstage : c.stage = .checkForTimeOut) (expired : Bool) :
    (s.setCall i (some (if expired then { c with waits := false, stage := .unlockQueue .receive .timeout }
      else c.goto .isBlocked))).Good noSlack := by
  have hsus := h.suspended_of hc (by rw [hstage]; rfl)
  refine h.advance hc ?_ (.inr hsus) ?_ ?_ (fun σ => ?_) (fun hw => ?_) fun hp => ?_
  · cases expired <;> rfl
  · rw [hstage]
    cases expired <;> rfl
  · rw [hstage]
    cases expired <;> rfl
  · rw [hstage]
    cases expired <;> cases σ <;> rfl
  · rw [hstage] at hw
    cases hw
  · cases expired <;> cases hp

/-- The task asks again whether the queue lets it through. -/
theorem Good.isBlocked (h : s.Good noSlack) {i : ι} {c : Call} (hc : s.calls i = some c)
    (hstage : c.stage = .isBlocked) :
    (s.setCall i (some (c.goto (if c.request.Blocked s.q then .placeOnEventList
      else .unlockQueue .receive (.retry false))))).Good noSlack := by
  have hsus := h.suspended_of hc (by rw [hstage]; rfl)
  have hno : c.stage.woken = true → s.q.stock c.request.side = 0 := by
    rw [hstage]
    exact fun hw => by cases hw
  by_cases hb : c.request.Blocked s.q
  · rw [if_pos hb]
    refine h.advance hc rfl (.inr hsus) ?_ ?_ (fun σ => ?_) hno fun _ => stock_of_blocked hb
    · rw [hstage]
      rfl
    · rw [hstage]
      rfl
    · rw [hstage]
      cases σ <;> rfl
  · rw [if_neg hb]
    refine h.advance hc rfl (.inr hsus) ?_ ?_ (fun σ => ?_) hno fun hp => by cases hp
    · rw [hstage]
      rfl
    · rw [hstage]
      rfl
    · rw [hstage]
      cases σ <;> rfl

/-- The task lets the scheduler go on; `y` is what is left of its call. -/
theorem Good.resumeAll (h : s.Good noSlack) {i : ι} {c : Call} {y : Option Call} {next : After}
    (hc : s.calls i = some c) (hstage : c.stage = .resumeAll next)
    (hvalid : ∀ d, y = some d → d.request.Valid s.q) (hlisted : ∀ σ, listedAt σ y = listedAt σ (s.calls i))
    (hholds : holdsAt y = false) (hlocks : ∀ σ, locksAt σ y = false)
    (hwoken : ∀ σ, wokenAt σ (s.calls i) = true → wokenAt σ y = true)
    (hplaces : ∀ σ, placesAt σ y = false) : Good noSlack { s.setCall i y with suspended := none } := by
  have hsus := h.suspended_of hc (by rw [hstage]; rfl)
  have hlock := h.lock_at (i := i) (.inr hsus)
  refine h.local none s.lock hvalid (.inr hsus) hlisted (by rw [hholds]; rfl) (fun σ => ?_) (fun _ => rfl)
    (fun σ hw => .inl (hwoken σ hw)) fun σ hp => ?_
  · have hl := hlock σ
    rw [hc] at hl
    have hun : s.lock σ = unlocked := by simpa [locksAt, hstage, Stage.locks] using hl
    rw [hlocks]
    exact hun
  · rw [hplaces] at hp
    cases hp

/-- The case that the call goes on. -/
theorem Good.resume_goto (h : s.Good noSlack) {i : ι} {c : Call} {next : After} {stage : Stage}
    (hc : s.calls i = some c) (hstage : c.stage = .resumeAll next) (hlisted : stage.listed = c.stage.listed)
    (hholds : stage.holds = false) (hlocks : ∀ σ, stage.locks σ = false)
    (hwoken : c.stage.woken = true → stage.woken = true) (hplace : stage ≠ .placeOnEventList) :
    Good noSlack { s.setCall i (some (c.goto stage)) with suspended := none } := by
  refine h.resumeAll hc hstage (fun d hd => ?_) (fun σ => ?_) hholds hlocks (fun σ hw => ?_) fun σ => ?_
  · rw [← Option.some_inj.mp hd]
    exact h.valid i c hc
  · simp [hc, listedAt, callAt, Call.goto, hlisted]
  · obtain ⟨d, hd, hside, hw'⟩ := callAt_iff.mp hw
    rw [hc, Option.some_inj] at hd
    rw [← hd] at hside hw'
    exact callAt_iff.mpr ⟨c.goto stage, rfl, hside, hwoken hw'⟩
  · simp [placesAt, callAt, Call.goto, hplace]

/-- What a call does once the scheduler goes on. -/
theorem Good.turn_resumeAll (h : s.Good noSlack) {i : ι} {c : Call} {next : After} {expired : Bool}
    {e : Effect} {s' : Sys ι} (hc : s.calls i = some c) (hstage : c.stage = .resumeAll next)
    (hs : s.turn i expired = some (e, s')) : s'.Good noSlack := by
  rw [Sys.turn, hc] at hs
  simp only [hstage] at hs
  cases next with
  | retry woken =>
    cases hs
    refine h.resume_goto hc hstage (by rw [hstage]; rfl) rfl (fun σ => by cases σ <;> rfl) (fun hw => ?_)
      fun hp => by cases hp
    rw [hstage] at hw
    exact hw
  | block =>
    cases hs
    refine h.resume_goto hc hstage (by rw [hstage]; rfl) rfl (fun σ => by cases σ <;> rfl) (fun hw => ?_)
      fun hp => by cases hp
    rw [hstage] at hw
    cases hw
  | timeout =>
    simp only at hs
    split at hs
    · cases hs
      refine h.resumeAll hc hstage (fun _ hd => by cases hd) (fun σ => ?_) rfl (fun _ => rfl) (fun σ hw => ?_)
        fun _ => rfl
      · simp [hc, listedAt, callAt, hstage, Stage.listed]
      · simp [hc, wokenAt, callAt, hstage, Stage.woken] at hw
    · cases hs
      refine h.resume_goto hc hstage (by rw [hstage]; rfl) rfl (fun σ => by cases σ <;> rfl) (fun hw => ?_)
        fun hp => by cases hp
      rw [hstage] at hw
      cases hw

/-- A receiver whose time is over looks once more. -/
theorem Good.turn_timedOut (h : s.Good noSlack) {i : ι} {c : Call} {expired : Bool} {e : Effect} {s' : Sys ι}
    (hc : s.calls i = some c) (hstage : c.stage = .timedOut) (hs : s.turn i expired = some (e, s')) :
    s'.Good noSlack := by
  have hno : c.stage.woken = true → s.q.stock c.request.side = 0 := by
    rw [hstage]
    exact fun hw => by cases hw
  rw [Sys.turn, hc] at hs
  simp only [hstage] at hs
  split at hs
  case isTrue hsus =>
    split at hs
    · cases hs
      exact h.leave hc hsus (by rw [hstage]; rfl) (by rw [hstage]; rfl)
        (fun σ => by rw [hstage]; cases σ <;> rfl) hno
    · cases hs
      exact h.advance hc rfl (.inl hsus) (by rw [hstage]; rfl) (by rw [hstage]; rfl)
        (fun σ => by rw [hstage]; cases σ <;> rfl) hno fun hp => by cases hp
  case isFalse => cases hs

theorem Good.turn (h : s.Good noSlack) {i : ι} {expired : Bool} {e : Effect} {s' : Sys ι}
    (hs : s.turn i expired = some (e, s')) : s'.Good noSlack := by
  cases hc : s.calls i with
  | none =>
    rw [Sys.turn, hc] at hs
    cases hs
  | some c =>
    have hall := hs
    rw [Sys.turn, hc] at hs
    simp only at hs
    cases hstage : c.stage with
    | entry w =>
      simp only [hstage] at hs
      split at hs
      case isTrue hsus =>
        have hgood := h.entry hc hstage hsus
        rw [Option.some_inj] at hs
        rw [hs] at hgood
        exact hgood
      case isFalse => cases hs
    | suspendAll =>
      simp only [hstage] at hs
      split at hs
      case isTrue hsus =>
        cases hs
        exact h.suspendAll hc hstage hsus
      case isFalse => cases hs
    | lockQueue =>
      simp only [hstage] at hs
      cases hs
      exact h.lockQueue hc hstage
    | checkForTimeOut =>
      simp only [hstage] at hs
      cases hs
      exact h.checkForTimeOut hc hstage expired
    | isBlocked =>
      simp only [hstage] at hs
      cases hs
      exact h.isBlocked hc hstage
    | placeOnEventList =>
      simp only [hstage] at hs
      cases hs
      exact h.place hc hstage
    | unlockQueue side next =>
      simp only [hstage] at hs
      cases side with
      | receive =>
        cases hs
        exact h.unlock hc hstage
      | send =>
        cases hs
        exact h.unlock hc hstage
    | resumeAll next => exact h.turn_resumeAll hc hstage hall
    | blocked =>
      simp only [hstage] at hs
      cases hs
    | timedOut => exact h.turn_timedOut hc hstage hall

omit [DecidableEq ι] in
theorem Good.not_placing (h : s.Good slack) {σ : Side} (hl : s.lock σ = unlocked) (i : ι) :
    placesAt σ (s.calls i) = false := by
  rcases h.locked σ with ⟨-, hno⟩ | ⟨hpos, -⟩
  · rw [← Bool.not_eq_true]
    intro hp
    obtain ⟨c, hc, -, hstage⟩ := callAt_iff.mp hp
    rw [decide_eq_true_eq] at hstage
    have hlocks := hno i
    rw [hc] at hlocks
    simp [locksAt, hstage, Stage.locks] at hlocks
  · rw [hl] at hpos
    cases hpos

/-- An interrupt handler at an unlocked queue takes a task from the list itself. -/
theorem Good.handler_wakes (h : s.Good noSlack) {r : Request} (hr : r.Ready s.q) (hv : r.Valid s.q)
    (hl : s.lock (r.perform s.q).2.2 = unlocked) :
    (Sys.wake { s with q := (r.perform s.q).2.1 } (r.perform s.q).2.2 1).Good noSlack := by
  obtain ⟨items, hitems⟩ := h.holds
  have hbound : s.q.messagesWaiting ≤ s.q.length := hitems.count ▸ hitems.bound
  have hgood : Good (fun σ => if (r.perform s.q).2.2 = σ then 1 else 0)
      { s with q := (r.perform s.q).2.1, lock := s.lock } := by
    refine h.env (perform_holds hitems hr hv) (perform_shape _ _) (fun _ => ⟨id, id⟩) fun σ ht => ?_
    have hstock := perform_stock hr hv hbound σ
    simp only [Tight, woken, noSlack] at ht ⊢
    omega
  refine hgood.wake (hgood.not_placing hl) fun τ => ?_
  simp only [noSlack, Nat.zero_add, eq_comm]
  exact Nat.le_refl _

omit [DecidableEq ι] in
/-- At a locked queue it leaves that to the task that unlocks the queue. -/
theorem Good.handler_counts (h : s.Good noSlack) {r : Request} (hr : r.Ready s.q) (hv : r.Valid s.q)
    (hl : s.lock (r.perform s.q).2.2 ≠ unlocked) :
    Good noSlack { s with
      q := (r.perform s.q).2.1
      lock := Function.update s.lock (r.perform s.q).2.2 (s.lock (r.perform s.q).2.2 + 1) } := by
  obtain ⟨items, hitems⟩ := h.holds
  have hbound : s.q.messagesWaiting ≤ s.q.length := hitems.count ▸ hitems.bound
  have hpos : 0 ≤ s.lock (r.perform s.q).2.2 := by
    rcases h.locked (r.perform s.q).2.2 with ⟨hun, -⟩ | ⟨hp, -⟩
    · exact absurd hun hl
    · exact hp
  refine h.env (perform_holds hitems hr hv) (perform_shape _ _) (fun σ => ?_) fun σ ht => ?_
  · by_cases hσ : σ = (r.perform s.q).2.2
    · rw [hσ, Function.update_self]
      exact ⟨fun hun => absurd hun hl, fun hp => by omega⟩
    · rw [Function.update_of_ne hσ]
      exact ⟨id, id⟩
  · have hstock := perform_stock hr hv hbound σ
    simp only [Tight, woken, noSlack] at ht ⊢
    by_cases hσ : σ = (r.perform s.q).2.2
    · rw [← hσ] at hpos ⊢
      rw [Function.update_self]
      rw [if_pos hσ.symm] at hstock
      omega
    · rw [Function.update_of_ne hσ]
      rw [if_neg (Ne.symm hσ)] at hstock
      omega

theorem Good.fromISR (h : s.Good noSlack) {r : Request} {e : Effect} {s' : Sys ι} (hv : r.Valid s.q)
    (hs : s.fromISR r = some (e, s')) : s'.Good noSlack := by
  by_cases hr : r.Ready s.q
  case neg =>
    unfold Sys.fromISR at hs
    rw [if_neg hr] at hs
    cases hs
    exact h
  have hwakes := h.handler_wakes hr hv
  have hcounts := h.handler_counts hr hv
  unfold Sys.fromISR at hs
  rw [if_pos hr] at hs
  cases r with
  | peek =>
    cases hs
    exact h
  | send item position =>
    simp only at hs
    split at hs
    case isTrue hl =>
      cases hs
      exact hwakes hl
    case isFalse hl =>
      split at hs
      · cases hs
      · cases hs
        exact hcounts hl
  | receive =>
    simp only at hs
    split at hs
    case isTrue hl =>
      cases hs
      exact hwakes hl
    case isFalse hl =>
      split at hs
      · cases hs
      · cases hs
        exact hcounts hl

end Sys

/-! ## A step -/

variable {s s' : Sys ι}

theorem step_good {a : Action ι} {e : Effect} (h : s.Good Sys.noSlack) (hs : step s a = some (e, s')) :
    s'.Good Sys.noSlack := by
  cases a with
  | call i request waits =>
    rw [step] at hs
    split at hs
    case isTrue hcall =>
      obtain ⟨hnone, hsus, hvalid⟩ := hcall
      cases hs
      refine h.setCall (fun d hd => ?_) (.inl hsus) (fun σ => ?_) ?_ (fun σ => ?_) (fun σ hw => ?_)
        fun σ hp => ?_
      · rw [← Option.some_inj.mp hd]
        exact hvalid
      · simp [hnone, listedAt, callAt, Stage.listed]
      · simp [hnone, holdsAt, Stage.holds]
      · simp [hnone, locksAt, Stage.locks]
      · simp [hnone, wokenAt, callAt] at hw
      · simp [placesAt, callAt] at hp
    case isFalse => cases hs
  | turn i expired => exact h.turn hs
  | timeout i =>
    rw [step] at hs
    cases hc : s.calls i with
    | none =>
      rw [hc] at hs
      cases hs
    | some c =>
      rw [hc] at hs
      simp only at hs
      split at hs
      case isTrue hblocked =>
        cases hs
        exact h.expire hc hblocked.1
      case isFalse => cases hs
  | fromISR request =>
    rw [step] at hs
    split at hs
    case isTrue hv => exact h.fromISR hv hs
    case isFalse => cases hs

omit [DecidableEq ι] in
theorem start_good {length : Nat} (hl : 0 < length) (itemSize : Nat) (area : Nat → Byte)
    (priority : ι → Nat) : (Sys.start (.new length itemSize area) priority).Good Sys.noSlack where
  holds := ⟨[], Queue.new_holds hl itemSize area⟩
  valid := fun _ _ hc => by cases hc
  nodup := fun _ => List.nodup_nil
  listed := fun _ _ => ⟨fun hi => (List.not_mem_nil hi).elim, fun hi => by cases hi⟩
  holder := fun _ => ⟨fun hi => (by cases hi), fun hi => by cases hi⟩
  locked := fun _ => .inl ⟨rfl, fun _ => rfl⟩
  served := fun _ hne => absurd rfl hne
  placing := fun _ _ hi => by cases hi

end Rtos
end Air101
