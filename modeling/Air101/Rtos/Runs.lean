import Air101.Rtos.Wakeups
import Air101.Storage.Paths

/-!
# Rtos.Runs

What holds at a queue in every order of the steps of tasks and interrupt handlers.

* `wakeups_kept`: no task waits for what is there.
* `queue_refines`: the calls have the effects of calls at a list, one after another; if all items are
  sent to the back, they are received once each and in order.
-/

namespace Air101
namespace Rtos

open Storage

variable {ι : Type} [DecidableEq ι] {s s' : Sys ι}

/-- A run of the tasks and interrupt handlers, with what each step does to the items. -/
def Run (s : Sys ι) (es : List Effect) (s' : Sys ι) : Prop :=
  Path (fun s e s' => ∃ a, step s a = some (e, s')) s es s'

/-- The run of a list of actions, if each of them can be taken. -/
def execute (s : Sys ι) : List (Action ι) → Option (List Effect × Sys ι)
  | [] => some ([], s)
  | a :: as =>
    match step s a with
    | none => none
    | some (e, s') => (execute s' as).map fun r => (e :: r.1, r.2)

theorem execute_run : ∀ {as : List (Action ι)} {s : Sys ι} {r : List Effect × Sys ι},
    execute s as = some r → Run s r.1 r.2 := by
  intro as
  induction as with
  | nil =>
    intro s r h
    cases h
    exact .nil s
  | cons a as ih =>
    intro s r h
    rw [execute] at h
    cases hs : step s a with
    | none =>
      rw [hs] at h
      cases h
    | some p =>
      obtain ⟨e, m⟩ := p
      rw [hs] at h
      obtain ⟨r', hr', rfl⟩ := Option.map_eq_some_iff.mp h
      exact .cons ⟨a, hs⟩ (ih hr')

section Wakeups

variable [Fintype ι]

theorem run_good {es : List Effect} (h : Run s es s') (hs : s.Good Sys.noSlack) :
    s'.Good Sys.noSlack :=
  h.inv (Sys.Good Sys.noSlack) (fun _ _ _ ⟨_, hstep⟩ hgood => step_good hgood hstep) hs

/-- The tasks of a side that were taken from the list and are about to look at the queue. -/
def Sys.aboutToLook (s : Sys ι) (σ : Side) : Nat := tally (callAt σ (· = .entry true)) s.calls

/-- While a task waits for what is there, each item or free place has a task that was woken for it. -/
theorem wakeups_kept {length : Nat} (hl : 0 < length) {itemSize : Nat} {area : Nat → Byte}
    {priority : ι → Nat} {es : List Effect}
    (h : Run (.start (.new length itemSize area) priority) es s) (hsus : s.suspended = none) {σ : Side}
    (hne : s.waiters σ ≠ []) : s.q.stock σ ≤ s.aboutToLook σ := by
  have hgood := run_good h (start_good hl itemSize area priority)
  have hserved := hgood.served σ hne
  have hlock : s.lock σ = unlocked := by
    rcases hgood.locked σ with ⟨hun, -⟩ | ⟨-, i, hi⟩
    · exact hun
    · cases hc : s.calls i with
      | none =>
        rw [hc] at hi
        cases hi
      | some c =>
        rw [hc] at hi
        rw [hgood.suspended_of hc (Stage.holds_of_locks hi)] at hsus
        cases hsus
  -- without a suspended scheduler a woken task is back at the beginning of its call
  have hlook : s.woken σ = s.aboutToLook σ := by
    refine tally_congr fun i => ?_
    cases hc : s.calls i with
    | none => rfl
    | some c =>
      have hfree : c.stage.holds = false := by
        rw [← Bool.not_eq_true]
        intro hh
        rw [hgood.suspended_of hc hh] at hsus
        cases hsus
      cases hstage : c.stage with
      | entry woken => cases woken <;> simp [wokenAt, callAt, hstage, Stage.woken]
      | suspendAll => simp [wokenAt, callAt, hstage, Stage.woken]
      | blocked => simp [wokenAt, callAt, hstage, Stage.woken]
      | timedOut => simp [wokenAt, callAt, hstage, Stage.woken]
      | _ =>
        rw [hstage] at hfree
        cases hfree
  have hzero : unlocked.toNat = 0 := rfl
  rw [Sys.Tight, hlook, hlock, Sys.noSlack] at hserved
  omega

/-- A receiver waits, as it finds nothing: from the call to the list. -/
def waitsFor (i : ι) : List (Action ι) := .call i .receive true :: .replicate 9 (.turn i false)

/-- Two receivers wait when an interrupt handler sends an item: one of them is woken. -/
theorem wakeups_kept_two : ∃ s : Sys (Fin 2), s.waiters .receive ≠ [] ∧ s.q.stock .receive = 1 ∧
    s.q.stock .receive ≤ s.aboutToLook .receive := by
  have hrun : (execute (Sys.start (.new 1 1 fun _ => 0#8) fun _ => 0)
      (waitsFor (0 : Fin 2) ++ waitsFor 1 ++ [.fromISR (.send [5#8] .back)])).isSome = true := rfl
  have hne : ((execute (Sys.start (.new 1 1 fun _ => 0#8) fun _ => 0) (waitsFor (0 : Fin 2) ++
      waitsFor 1 ++ [.fromISR (.send [5#8] .back)])).get hrun).2.waiters .receive ≠ [] :=
    List.cons_ne_nil _ _
  exact ⟨_, hne, rfl, wakeups_kept Nat.one_pos (execute_run (Option.some_get hrun).symm) rfl hne⟩

/-! ## The items -/

omit [Fintype ι] in
/-- A step of a task has its effect on the items of the queue. -/
theorem turn_deque {items : List (List Byte)} (hitems : s.q.Holds items)
    (hvalid : ∀ i c, s.calls i = some c → c.request.Valid s.q) {i : ι} {expired : Bool} {e : Effect}
    (hs : s.turn i expired = some (e, s')) :
    ∃ items', Deque s.q.length items e items' ∧ s'.q.Holds items' ∧ s'.q.length = s.q.length := by
  cases hc : s.calls i with
  | none =>
    rw [Sys.turn, hc] at hs
    cases hs
  | some c =>
    -- most steps leave the queue as it is
    have hsame : ∀ {e : Effect} {s' : Sys ι}, e = .silent ∨ e = .gaveUp → s'.q = s.q → ∃ items',
        Deque s.q.length items e items' ∧ s'.q.Holds items' ∧ s'.q.length = s.q.length := by
      intro e s' he hq
      rw [hq]
      rcases he with rfl | rfl
      · exact ⟨items, .silent items, hitems, rfl⟩
      · exact ⟨items, .gaveUp items, hitems, rfl⟩
    rw [Sys.turn, hc] at hs
    simp only at hs
    cases hstage : c.stage with
    | entry w =>
      simp only [hstage] at hs
      split at hs
      case isTrue hsus =>
        rw [Option.some_inj, Sys.entry] at hs
        split at hs
        case isTrue hr =>
          obtain ⟨items', hd, hh⟩ := perform_deque hitems hr (hvalid i c hc)
          cases hs
          exact ⟨items', hd, hh, (perform_shape s.q c.request).length⟩
        case isFalse hr =>
          split at hs
          · cases hs
            exact ⟨items, failure_deque hitems hr, hitems, rfl⟩
          · cases hs
            exact hsame (.inl rfl) rfl
      case isFalse => cases hs
    | suspendAll =>
      simp only [hstage] at hs
      split at hs
      · cases hs
        exact hsame (.inl rfl) rfl
      · cases hs
    | unlockQueue side next =>
      simp only [hstage] at hs
      cases side with
      | receive =>
        cases hs
        exact hsame (.inl rfl) rfl
      | send =>
        cases hs
        exact hsame (.inl rfl) rfl
    | resumeAll next =>
      simp only [hstage] at hs
      cases next with
      | retry woken =>
        cases hs
        exact hsame (.inl rfl) rfl
      | block =>
        cases hs
        exact hsame (.inl rfl) rfl
      | timeout =>
        simp only at hs
        split at hs
        · cases hs
          exact hsame (.inr rfl) rfl
        · cases hs
          exact hsame (.inl rfl) rfl
    | blocked =>
      simp only [hstage] at hs
      cases hs
    | timedOut =>
      simp only [hstage] at hs
      split at hs
      case isTrue =>
        split at hs
        case isTrue hzero =>
          cases hs
          have hnil : items = [] := List.eq_nil_of_length_eq_zero (hitems.count.symm.trans hzero)
          subst hnil
          exact ⟨[], .empty, hitems, rfl⟩
        case isFalse =>
          cases hs
          exact hsame (.inl rfl) rfl
      case isFalse => cases hs
    | _ =>
      simp only [hstage] at hs
      cases hs
      exact hsame (.inl rfl) rfl

omit [Fintype ι] in
theorem fromISR_deque {items : List (List Byte)} (hitems : s.q.Holds items) {r : Request}
    (hv : r.Valid s.q) {e : Effect} (hs : s.fromISR r = some (e, s')) :
    ∃ items', Deque s.q.length items e items' ∧ s'.q.Holds items' ∧ s'.q.length = s.q.length := by
  unfold Sys.fromISR at hs
  split at hs
  case isTrue hr =>
    obtain ⟨items', hd, hh⟩ := perform_deque hitems hr hv
    have hlen := (perform_shape s.q r).length
    cases r with
    | peek =>
      cases hs
      exact ⟨items', hd, hh, rfl⟩
    | send item position =>
      simp only at hs
      split at hs
      · cases hs
        exact ⟨items', hd, hh, hlen⟩
      · split at hs
        · cases hs
        · cases hs
          exact ⟨items', hd, hh, hlen⟩
    | receive =>
      simp only at hs
      split at hs
      · cases hs
        exact ⟨items', hd, hh, hlen⟩
      · split at hs
        · cases hs
        · cases hs
          exact ⟨items', hd, hh, hlen⟩
  case isFalse hr =>
    cases hs
    exact ⟨items, failure_deque hitems hr, hitems, rfl⟩

omit [Fintype ι] in
theorem step_deque {items : List (List Byte)} (hitems : s.q.Holds items)
    (hvalid : ∀ i c, s.calls i = some c → c.request.Valid s.q) {a : Action ι} {e : Effect}
    (hs : step s a = some (e, s')) :
    ∃ items', Deque s.q.length items e items' ∧ s'.q.Holds items' ∧ s'.q.length = s.q.length := by
  cases a with
  | call i request waits =>
    rw [step] at hs
    split at hs
    · cases hs
      exact ⟨items, .silent items, hitems, rfl⟩
    · cases hs
  | turn i expired => exact turn_deque hitems hvalid hs
  | timeout i =>
    rw [step] at hs
    cases hc : s.calls i with
    | none =>
      rw [hc] at hs
      cases hs
    | some c =>
      rw [hc] at hs
      simp only at hs
      split at hs
      · cases hs
        exact ⟨items, .silent items, hitems, rfl⟩
      · cases hs
  | fromISR request =>
    rw [step] at hs
    split at hs
    case isTrue hv => exact fromISR_deque hitems hv hs
    case isFalse => cases hs

namespace Effect

def sentItem : Effect → Option (List Byte)
  | .sent item _ => some item
  | _ => none

def receivedItem : Effect → Option (List Byte)
  | .received item => some item
  | _ => none

/-- Not an item in front of others or in the place of one. -/
def AtBack : Effect → Prop
  | .sent _ position => position = .back
  | _ => True

end Effect

/-- A list that grows at the back only is a queue. -/
theorem Deque.fifo {length : Nat} {items items' : List (List Byte)} {es : List Effect}
    (h : Path (Deque length) items es items') (hback : ∀ e ∈ es, e.AtBack) :
    items ++ es.filterMap Effect.sentItem = es.filterMap Effect.receivedItem ++ items' := by
  induction h with
  | nil items => simp
  | @cons items m items' e es hd _ ih =>
    have hrest := ih fun e he => hback e (List.mem_cons_of_mem _ he)
    have hfirst := hback e List.mem_cons_self
    cases hd with
    | sent item hroom =>
      have hpos : _ = Position.back := hfirst
      subst hpos
      simpa [List.filterMap_cons, Effect.sentItem, Effect.receivedItem, Queue.put] using hrest
    | received item => simpa [List.filterMap_cons, Effect.receivedItem, Effect.sentItem] using hrest
    | peeked item => simpa [List.filterMap_cons, Effect.receivedItem, Effect.sentItem] using hrest
    | silent => simpa [List.filterMap_cons, Effect.receivedItem, Effect.sentItem] using hrest
    | gaveUp => simpa [List.filterMap_cons, Effect.receivedItem, Effect.sentItem] using hrest
    | full hlen => simpa [List.filterMap_cons, Effect.receivedItem, Effect.sentItem] using hrest
    | empty => simpa [List.filterMap_cons, Effect.receivedItem, Effect.sentItem] using hrest

/-- The calls of tasks and interrupt handlers have the effects of calls at a list of items, each at one
moment. If all items go to the back, nothing is lost, comes twice or overtakes. -/
theorem queue_refines {length : Nat} (hl : 0 < length) {itemSize : Nat} {area : Nat → Byte}
    {priority : ι → Nat} {es : List Effect}
    (h : Run (.start (.new length itemSize area) priority) es s) :
    ∃ items, Path (Deque length) [] es items ∧ s.q.Holds items ∧
      ((∀ e ∈ es, e.AtBack) →
        es.filterMap Effect.sentItem = es.filterMap Effect.receivedItem ++ items) := by
  obtain ⟨items, hpath, hitems, -⟩ := h.simulates
    (fun s items => s.q.Holds items ∧ s.Good Sys.noSlack ∧ s.q.length = length)
    (fun s e s' items ⟨a, hs⟩ ⟨hitems, hgood, hlen⟩ => by
      obtain ⟨items', hd, hh, hl'⟩ := step_deque hitems hgood.valid hs
      rw [hlen] at hd hl'
      exact ⟨items', hd, hh, step_good hgood hs, hl'⟩)
    ⟨Queue.new_holds hl itemSize area, start_good hl itemSize area priority, rfl⟩
  exact ⟨items, hpath, hitems, fun hback => Deque.fifo hpath hback⟩

/-- A receiver waits, an interrupt handler sends an item, and the receiver reads it. -/
theorem queue_refines_handover : ∃ (s : Sys (Fin 1)) (es : List Effect) (items : List (List Byte)),
    es.filterMap Effect.receivedItem = [[5#8]] ∧ Path (Deque 1) [] es items ∧ s.q.Holds items := by
  have hrun : (execute (Sys.start (.new 1 1 fun _ => 0#8) fun _ => 0)
      (waitsFor (0 : Fin 1) ++ [.fromISR (.send [5#8] .back), .turn 0 false])).isSome = true := rfl
  obtain ⟨items, hpath, hitems, -⟩ := queue_refines Nat.one_pos
    (execute_run (Option.some_get hrun).symm)
  exact ⟨_, _, items, rfl, hpath, hitems⟩

end Wakeups

end Rtos
end Air101
