import Air101.Rtos.Delays
import Air101.Storage.Paths

/-!
# Rtos.Sleep

Tasks with deadlines on a clock that never wraps around, and the delayed lists as their refinement.

* `Sleep a e a'`: what happens to the sleepers.
* `Delays.Shows s a`: the lists of the kernel hold the sleepers `a`.
* `incrementTick_shows`, `incrementTicks_shows`: a tick, and the ticks of a suspended scheduler.
* `delays_refine`: every run of the kernel is one of the sleepers, and no tick fails.
* `delay_exact`: a task that sleeps for `n` ticks is woken by the `n`-th.
-/

namespace Air101
namespace Rtos

open Storage Storage.Agenda

variable {ι : Type}

/-- The number of ticks since the start, the tasks with their deadlines in order of time, and the tasks
that wait for an event only. -/
structure Sleepers (ι : Type) where
  now : Nat
  plan : List (ι × Nat)
  idle : List ι

namespace Sleepers

variable [DecidableEq ι]

def without (a : Sleepers ι) (l : List ι) : Sleepers ι :=
  { a with
    plan := a.plan.filter fun e => e.1 ∉ l
    idle := a.idle.filter fun i => i ∉ l }

/-- `n` ticks pass. -/
def pass (a : Sleepers ι) (n : Nat) : Sleepers ι :=
  { a with now := a.now + n, plan := later (a.now + n) a.plan }

/-- The tasks whose deadline comes within `n` ticks. -/
def expired (a : Sleepers ι) (n : Nat) : List ι := (due (a.now + n) a.plan).map Prod.fst

def Awake (a : Sleepers ι) (i : ι) : Prop := i ∉ a.plan.map Prod.fst ∧ i ∉ a.idle

end Sleepers

section Sleep

variable [DecidableEq ι]

inductive Sleep : Sleepers ι → Waiting ι → Sleepers ι → Prop where
  | silent (a : Sleepers ι) : Sleep a .silent a
  | sleeps {a : Sleepers ι} {i : ι} {n : Nat} : a.Awake i → 0 < n →
    Sleep a (.sleeps i n) { a with plan := enter i (a.now + n) a.plan }
  | waits {a : Sleepers ι} {i : ι} : a.Awake i → Sleep a (.waits i) { a with idle := a.idle ++ [i] }
  | passes (a : Sleepers ι) (called : List ι) (n : Nat) :
    Sleep a (.passes called n ((a.without called).expired n)) ((a.without called).pass n)

end Sleep

/-! ## The lists of the kernel -/

theorem vListInsert_eq {l : List (ι × Nat)} (hl : ∀ e ∈ l, e.2 < tickSize) (i : ι) (v : Nat) :
    vListInsert i v l = enter i v l := by
  rw [vListInsert]
  split
  case isTrue hmax =>
    have hle : ∀ e ∈ l, e.2 ≤ v := fun e he => by
      have := hl e he
      rw [hmax]
      exact Nat.le_sub_one_of_lt this
    rw [enter, due_all hle, later_all hle]
  case isFalse => rfl

theorem unblockLoop_eq (tick : Nat) (l : List (ι × Nat)) : Delays.unblockLoop tick l =
    ((due tick l).map Prod.fst, later tick l, headValue (later tick l)) := by
  induction l with
  | nil => rfl
  | cons e l ih =>
    rw [Delays.unblockLoop, due_cons, later_cons]
    by_cases h : tick < e.2
    · rw [if_pos h, if_neg (Nat.not_le.mpr h), if_neg (Nat.not_le.mpr h)]
      rfl
    · rw [if_neg h, if_pos (Nat.not_lt.mp h), if_pos (Nat.not_lt.mp h), ih, List.map_cons]

namespace Delays

/-- The lists hold the sleepers. -/
structure Shows (s : Delays ι) (a : Sleepers ι) : Prop where
  tick : s.tickCount = a.now % tickSize
  overflows : s.numOfOverflows = a.now / tickSize % tickSize
  lists : Agenda.Shows tickSize a.now s.delayed s.overflowDelayed a.plan
  unblock : ∀ e ∈ s.delayed, s.nextTaskUnblockTime ≤ e.2
  idle : s.suspendedTasks = a.idle

variable {s : Delays ι} {a : Sleepers ι}

/-- The first item of a list in order is the first one to be due. -/
theorem head_le {l : List (ι × Nat)} (hl : InOrder l) : ∀ e ∈ l, headValue l ≤ e.2 := by
  cases l with
  | nil => exact fun _ he => absurd he List.not_mem_nil
  | cons d l =>
    intro e he
    rcases List.mem_cons.mp he with rfl | he
    · exact Nat.le_refl _
    · exact (List.pairwise_cons.mp hl).1 e he

/-- What does not concern the lists of the sleepers may change. -/
theorem Shows.scheduler (h : s.Shows a) (suspended ticks : Nat) (ready : List ι) :
    ({ s with schedulerSuspended := suspended, pendedTicks := ticks, pendingReady := ready } :
      Delays ι).Shows a :=
  ⟨h.tick, h.overflows, h.lists, h.unblock, h.idle⟩

/-- The list of this round is served at a tick. -/
theorem serve_shows (htick : s.tickCount = a.now % tickSize)
    (hover : s.numOfOverflows = a.now / tickSize % tickSize)
    (hlists : Lists tickSize a.now s.delayed s.overflowDelayed a.plan)
    (hunblock : ∀ e ∈ s.delayed, s.nextTaskUnblockTime ≤ e.2) (hidle : s.suspendedTasks = a.idle) :
    s.serve.1 = (due a.now a.plan).map Prod.fst ∧
      s.serve.2.Shows { a with plan := later a.now a.plan } ∧
      s.serve.2.schedulerSuspended = s.schedulerSuspended ∧ s.serve.2.pendingReady = s.pendingReady := by
  obtain ⟨hshows, hdue⟩ := hlists.take tickSize_pos
  rw [← htick] at hshows hdue
  rw [serve]
  split
  case isTrue =>
    rw [unblockLoop_eq]
    exact ⟨hdue.symm, ⟨htick, hover, hshows, head_le hshows.present.1, hidle⟩, rfl, rfl⟩
  case isFalse hlt =>
    have hnone : ∀ e ∈ s.delayed, s.tickCount < e.2 := fun e he =>
      Nat.lt_of_lt_of_le (Nat.lt_of_not_le hlt) (hunblock e he)
    rw [due_none hnone] at hdue
    rw [later_none hnone] at hshows
    exact ⟨hdue.symm, ⟨htick, hover, hshows, hunblock, hidle⟩, rfl, rfl⟩

theorem incrementTick_shows (h : s.Shows a) : ∃ s', s.incrementTick = some (a.expired 1, s') ∧
    s'.Shows (a.pass 1) ∧ s'.schedulerSuspended = s.schedulerSuspended ∧
    s'.pendingReady = s.pendingReady := by
  have htick : (s.tickCount + 1) % tickSize = (a.now + 1) % tickSize := by
    rw [h.tick, Nat.mod_add_mod]
  rw [incrementTick]
  simp only [htick]
  split
  case isTrue h0 =>
    obtain ⟨hnil, hlists⟩ := h.lists.wrap h0
    have hover : (s.numOfOverflows + 1) % tickSize = (a.now + 1) / tickSize % tickSize := by
      rw [h.overflows, Nat.mod_add_mod, Nat.succ_div, if_pos (Nat.dvd_of_mod_eq_zero h0)]
    obtain ⟨hwoken, hshows, hsus, hready⟩ := serve_shows (a := { a with now := a.now + 1 })
      (s := resetNextTaskUnblockTime { s with
        tickCount := (a.now + 1) % tickSize
        delayed := s.overflowDelayed
        overflowDelayed := s.delayed
        numOfOverflows := (s.numOfOverflows + 1) % tickSize })
      rfl hover (by rw [← hnil] at hlists; exact hlists) (head_le hlists.present.1) h.idle
    rw [switchDelayedLists, if_pos hnil, Option.map_some]
    exact ⟨_, congrArg some (Prod.ext hwoken rfl), hshows, hsus, hready⟩
  case isFalse h0 =>
    have hover : s.numOfOverflows = (a.now + 1) / tickSize % tickSize := by
      rw [h.overflows, Nat.succ_div, if_neg (by rwa [Nat.dvd_iff_mod_eq_zero]), Nat.add_zero]
    obtain ⟨hwoken, hshows, hsus, hready⟩ := serve_shows (a := { a with now := a.now + 1 })
      (s := { s with tickCount := (a.now + 1) % tickSize }) rfl hover (h.lists.advance h0) h.unblock
      h.idle
    exact ⟨_, congrArg some (Prod.ext hwoken rfl), hshows, hsus, hready⟩

theorem incrementTicks_shows (n : Nat) (h : s.Shows a) : ∃ s',
    incrementTicks n s = some (a.expired n, s') ∧ s'.Shows (a.pass n) ∧
      s'.schedulerSuspended = s.schedulerSuspended ∧ s'.pendingReady = s.pendingReady := by
  induction n generalizing s a with
  | zero =>
    have hlater : ∀ e ∈ a.plan, a.now < e.2 := fun e he => h.lists.lt he
    refine ⟨s, ?_, ?_, rfl, rfl⟩
    · rw [incrementTicks, Sleepers.expired, Nat.add_zero, due_none hlater]
      rfl
    · rw [Sleepers.pass, Nat.add_zero, later_none hlater]
      exact h
  | succ n ih =>
    obtain ⟨s1, htick, hshows, hsus, hready⟩ := incrementTick_shows h
    obtain ⟨s', hticks, hshows', hsus', hready'⟩ := ih hshows
    have hle : a.now + 1 ≤ a.now + (n + 1) := by omega
    have hsum : a.now + 1 + n = a.now + (n + 1) := by omega
    refine ⟨s', ?_, ?_, hsus'.trans hsus, hready'.trans hready⟩
    · simp only [incrementTicks, htick, hticks, Option.map_some, Sleepers.expired, Sleepers.pass,
        ← List.map_append, hsum, due_due hle]
    · simp only [Sleepers.pass, hsum, later_later hle] at hshows' ⊢
      exact hshows'

variable [DecidableEq ι]

theorem remove_shows (h : s.Shows a) (l : List ι) : (s.remove l).Shows (a.without l) where
  tick := h.tick
  overflows := h.overflows
  lists := h.lists.filter fun i => i ∉ l
  unblock := fun e he => h.unblock e (List.mem_filter.mp he).1
  idle := by
    rw [Sleepers.without, remove, h.idle]

theorem resume_shows (h : s.Shows a) : ∃ s',
    s.resume = some ((a.without s.pendingReady).expired s.pendedTicks, s') ∧
      s'.Shows ((a.without s.pendingReady).pass s.pendedTicks) ∧
      s'.schedulerSuspended = s.schedulerSuspended ∧ s'.pendingReady = [] := by
  have hremoved := remove_shows h s.pendingReady
  rw [resume]
  split
  case isTrue hnil =>
    exact incrementTicks_shows s.pendedTicks
      (s := { s.remove s.pendingReady with pendingReady := [], pendedTicks := 0 })
      (hremoved.scheduler _ _ _)
  case isFalse hne =>
    exact incrementTicks_shows s.pendedTicks
      (s := { resetNextTaskUnblockTime { s.remove s.pendingReady with pendingReady := [] } with
        pendedTicks := 0 })
      ⟨hremoved.tick, hremoved.overflows, hremoved.lists, head_le hremoved.lists.present.1,
        hremoved.idle⟩

omit [DecidableEq ι] in
theorem ready_iff (h : s.Shows a) (i : ι) : s.Ready i ↔ a.Awake i := by
  rw [Ready, Sleepers.Awake, h.lists.plan, h.idle, List.map_append, List.mem_append, map_fst_shift,
    map_fst_shift, not_or, and_assoc]

omit [DecidableEq ι] in
theorem block_shows (h : s.Shows a) (i : ι) {n : Nat} (hpos : 0 < n) (hn : n < tickSize)
    (indefinite : Bool) : (s.addCurrentTaskToDelayedList i n indefinite).Shows
      (if n = maxDelay ∧ indefinite then { a with idle := a.idle ++ [i] }
        else { a with plan := enter i (a.now + n) a.plan }) := by
  rw [addCurrentTaskToDelayedList]
  split
  case isTrue => exact ⟨h.tick, h.overflows, h.lists, h.unblock, congrArg (· ++ [i]) h.idle⟩
  case isFalse =>
    have hv : (a.now % tickSize + n) % tickSize = (a.now + n) % tickSize := Nat.mod_add_mod _ _ _
    have henter := h.lists.enter i hpos hn
    simp only [h.tick, hv, vListInsert_eq h.lists.next.2, vListInsert_eq h.lists.present.2]
    split at henter
    case isTrue hwrap =>
      rw [if_pos hwrap]
      exact ⟨rfl, h.overflows, henter, h.unblock, h.idle⟩
    case isFalse hwrap =>
      rw [if_neg hwrap]
      refine ⟨rfl, h.overflows, henter, fun e he => ?_, h.idle⟩
      rcases mem_enter.mp he with rfl | he
      · simp only
        split
        · exact Nat.le_refl _
        · omega
      · have := h.unblock e he
        simp only
        split
        · omega
        · exact this

omit [DecidableEq ι] in
theorem block_frame (s : Delays ι) (i : ι) (n : Nat) (indefinite : Bool) :
    (s.addCurrentTaskToDelayedList i n indefinite).schedulerSuspended = s.schedulerSuspended ∧
      (s.addCurrentTaskToDelayedList i n indefinite).pendingReady = s.pendingReady := by
  rw [addCurrentTaskToDelayedList]
  split
  · exact ⟨rfl, rfl⟩
  · simp only
    split
    · exact ⟨rfl, rfl⟩
    · exact ⟨rfl, rfl⟩

/-! ## Runs -/

/-- A step of the kernel is a step of the sleepers. -/
theorem step_sleep (h : s.Shows a) (hquiet : s.schedulerSuspended = 0 → s.pendingReady = [])
    {act : DelayAction ι} {e : Waiting ι} {s' : Delays ι} (hs : s.step act = some (e, s')) :
    ∃ a', Sleep a e a' ∧ s'.Shows a' ∧ (s'.schedulerSuspended = 0 → s'.pendingReady = []) := by
  cases act with
  | tick =>
    rw [step] at hs
    split at hs
    case isTrue hsus =>
      obtain ⟨s1, htick, hshows, hsus1, hready⟩ := incrementTick_shows h
      rw [htick] at hs
      cases hs
      have hwithout : a.without [] = a := by simp [Sleepers.without]
      refine ⟨a.pass 1, ?_, hshows, fun _ => hready.trans (hquiet hsus)⟩
      have hpass := Sleep.passes a [] 1
      rwa [hwithout] at hpass
    case isFalse =>
      cases hs
      exact ⟨a, .silent a, h.scheduler _ _ _, hquiet⟩
  | suspendAll =>
    cases hs
    exact ⟨a, .silent a, h.scheduler _ _ _, fun h0 => by cases h0⟩
  | resumeAll =>
    rw [step] at hs
    split at hs
    · cases hs
    split at hs
    case isTrue =>
      obtain ⟨s1, hresume, hshows, -, hready⟩ := resume_shows (s := { s with schedulerSuspended := 0 })
        (h.scheduler _ _ _)
      rw [hresume] at hs
      cases hs
      exact ⟨_, .passes a s.pendingReady s.pendedTicks, hshows, fun _ => hready⟩
    case isFalse h0 h1 =>
      cases hs
      exact ⟨a, .silent a, h.scheduler _ _ _,
        fun h2 => absurd h2 (by simp only; omega)⟩
  | block i n indefinite =>
    rw [step] at hs
    split at hs
    case isTrue hblock =>
      obtain ⟨hready, hpos, hn⟩ := hblock
      have hawake := (ready_iff h i).mp hready
      have hshows := block_shows h i hpos hn indefinite
      have hsame := block_frame s i n indefinite
      cases hs
      split at hshows
      case isTrue hmax =>
        rw [if_pos hmax]
        exact ⟨_, .waits hawake, hshows, fun h0 => hsame.2.trans (hquiet (hsame.1.symm.trans h0))⟩
      case isFalse hmax =>
        rw [if_neg hmax]
        exact ⟨_, .sleeps hawake hpos, hshows, fun h0 => hsame.2.trans (hquiet (hsame.1.symm.trans h0))⟩
    case isFalse => cases hs
  | call i =>
    rw [step] at hs
    split at hs
    case isTrue =>
      split at hs
      case isTrue hsus =>
        cases hs
        have hremoved := remove_shows h [i]
        have hpass := Sleep.passes a [i] 0
        have hlater : ∀ e ∈ (a.without [i]).plan, (a.without [i]).now < e.2 :=
          fun e he => hremoved.lists.lt he
        rw [Sleepers.expired, Sleepers.pass, Nat.add_zero, due_none hlater, later_none hlater] at hpass
        exact ⟨_, hpass, hremoved, fun _ => hquiet hsus⟩
      case isFalse hsus =>
        cases hs
        exact ⟨a, .silent a, h.scheduler _ _ _, fun h0 => absurd h0 hsus⟩
    case isFalse => cases hs

/-- The run of the kernel, with what happens to the waiting tasks. -/
def Run (s : Delays ι) (es : List (Waiting ι)) (s' : Delays ι) : Prop :=
  Path (fun s e s' => ∃ act, s.step act = some (e, s')) s es s'

omit [DecidableEq ι] in
theorem start_shows : (start : Delays ι).Shows ⟨0, [], []⟩ where
  tick := rfl
  overflows := by rw [Nat.zero_div, Nat.zero_mod, start]
  lists := ⟨⟨rfl, ⟨.nil, fun _ he => absurd he List.not_mem_nil⟩,
    .nil, fun _ he => absurd he List.not_mem_nil⟩, fun _ he => absurd he List.not_mem_nil⟩
  unblock := fun _ he => absurd he List.not_mem_nil
  idle := rfl

theorem run_sleep {es : List (Waiting ι)} (h : Run start es s) : ∃ a, Path Sleep ⟨0, [], []⟩ es a ∧
    s.Shows a ∧ (s.schedulerSuspended = 0 → s.pendingReady = []) := by
  obtain ⟨a, hpath, hshows⟩ := h.simulates
    (fun s a => s.Shows a ∧ (s.schedulerSuspended = 0 → s.pendingReady = []))
    (fun s e s' a ⟨act, hs⟩ ⟨hshows, hquiet⟩ => step_sleep hshows hquiet hs)
    ⟨start_shows, fun _ => rfl⟩
  exact ⟨a, hpath, hshows⟩

/-- Every run of the kernel is one of tasks with deadlines on a clock that never wraps around, and its
ticks never meet a task left over from the round before. -/
theorem delays_refine {es : List (Waiting ι)} (h : Run start es s) :
    (∃ a, Path Sleep ⟨0, [], []⟩ es a ∧ s.Shows a) ∧ (s.step .tick).isSome = true ∧
      (0 < s.schedulerSuspended → (s.step .resumeAll).isSome = true) := by
  obtain ⟨a, hpath, hshows, -⟩ := run_sleep h
  refine ⟨⟨a, hpath, hshows⟩, ?_, fun hpos => ?_⟩
  · rw [step]
    split
    · obtain ⟨s', htick, -⟩ := incrementTick_shows hshows
      rw [htick]
      rfl
    · rfl
  · rw [step, if_neg (by omega)]
    split
    · obtain ⟨s', hresume, -⟩ := resume_shows (s := { s with schedulerSuspended := 0 })
        (hshows.scheduler _ _ _)
      rw [hresume]
      rfl
    · rfl

/-- A task sleeps for two ticks, the second of which comes while the scheduler is suspended. -/
theorem delays_refine_two : ∃ (s : Delays (Fin 1)) (a : Sleepers (Fin 1)),
    Path Sleep ⟨0, [], []⟩ [.sleeps 0 2, .passes [] 1 [], .silent, .silent, .passes [] 1 [0]] a ∧
      s.Shows a := by
  have hrun : Run (start : Delays (Fin 1))
      [.sleeps 0 2, .passes [] 1 [], .silent, .silent, .passes [] 1 [0]] _ :=
    .cons ⟨.block 0 2 false, rfl⟩ (.cons ⟨.tick, rfl⟩ (.cons ⟨.suspendAll, rfl⟩
      (.cons ⟨.tick, rfl⟩ (.cons ⟨.resumeAll, rfl⟩ (.nil _)))))
  obtain ⟨⟨a, hpath, hshows⟩, -⟩ := delays_refine hrun
  exact ⟨_, a, hpath, hshows⟩

end Delays

/-! ## When a task is woken -/

namespace Waiting

def called : Waiting ι → List ι
  | .passes called _ _ => called
  | _ => []

def expired : Waiting ι → List ι
  | .passes _ _ expired => expired
  | _ => []

/-- The ticks that pass. -/
def ticks : List (Waiting ι) → Nat
  | [] => 0
  | .passes _ n _ :: es => n + ticks es
  | _ :: es => ticks es

end Waiting

section Woken

variable [DecidableEq ι] {a a' : Sleepers ι} {es : List (Waiting ι)}

/-- Every task sleeps once, and every deadline is ahead. -/
structure Sleepers.Wf (a : Sleepers ι) : Prop where
  order : InOrder a.plan
  once : (a.plan.map Prod.fst).Nodup
  ahead : ∀ e ∈ a.plan, a.now < e.2

theorem Sleepers.Wf.without (h : a.Wf) (l : List ι) : (a.without l).Wf where
  order := h.order.sublist List.filter_sublist
  once := (List.filter_sublist.map Prod.fst).nodup h.once
  ahead := fun e he => h.ahead e (List.mem_filter.mp he).1

omit [DecidableEq ι] in
theorem Sleepers.Wf.pass (h : a.Wf) (n : Nat) : (a.pass n).Wf where
  order := h.order.sublist (List.dropWhile_sublist _)
  once := ((List.dropWhile_sublist _).map Prod.fst).nodup h.once
  ahead := fun _ he => later_lt h.order he

theorem Sleep.wf {e : Waiting ι} (h : Sleep a e a') (ha : a.Wf) : a'.Wf := by
  cases h with
  | silent => exact ha
  | @sleeps i n hawake hpos =>
    refine ⟨enter_inOrder ha.order i _, ?_, fun e he => ?_⟩
    · have hperm : (enter i (a.now + n) a.plan).Perm ((i, a.now + n) :: a.plan) := by
        have hmiddle := @List.perm_middle _ (i, a.now + n) (due (a.now + n) a.plan)
          (later (a.now + n) a.plan)
        rwa [due_append_later] at hmiddle
      rw [(hperm.map Prod.fst).nodup_iff, List.map_cons, List.nodup_cons]
      exact ⟨hawake.1, ha.once⟩
    · rcases mem_enter.mp he with rfl | he
      · exact Nat.lt_add_of_pos_right hpos
      · exact ha.ahead e he
  | waits => exact ⟨ha.order, ha.once, ha.ahead⟩
  | passes called n => exact (ha.without called).pass n

theorem Sleep.now {e : Waiting ι} (h : Sleep a e a') : a'.now = a.now + Waiting.ticks [e] := by
  cases h with
  | passes called n => rfl
  | _ => rfl

omit [DecidableEq ι] in
theorem ticks_cons (e : Waiting ι) (es : List (Waiting ι)) :
    Waiting.ticks (e :: es) = Waiting.ticks [e] + Waiting.ticks es := by
  cases e with
  | passes called n expired => rfl
  | _ => exact (Nat.zero_add _).symm

/-- One step: a sleeper that is not called is woken at its deadline, and sleeps on before it. -/
theorem Sleep.sleeper {e : Waiting ι} (h : Sleep a e a') (ha : a.Wf) {i : ι} {d : Nat}
    (hi : (i, d) ∈ a.plan) (hcalled : i ∉ e.called) :
    (d ≤ a'.now ∧ i ∈ e.expired) ∨ ((i, d) ∈ a'.plan ∧ i ∉ e.expired) := by
  cases h with
  | silent => exact .inr ⟨hi, List.not_mem_nil⟩
  | sleeps => exact .inr ⟨mem_enter.mpr (.inr hi), List.not_mem_nil⟩
  | waits => exact .inr ⟨hi, List.not_mem_nil⟩
  | passes called n =>
    have hstay : (i, d) ∈ (a.without called).plan :=
      List.mem_filter.mpr ⟨hi, by simpa [Waiting.called] using hcalled⟩
    have hwf := ha.without called
    have hnow : (a.without called).now = a.now := rfl
    by_cases hd : d ≤ a.now + n
    · refine .inl ⟨hd, List.mem_map.mpr ⟨(i, d), ?_, rfl⟩⟩
      rw [due_eq_filter hwf.order, hnow]
      exact List.mem_filter.mpr ⟨hstay, by simpa using hd⟩
    · have hlater : (i, d) ∈ later (a.now + n) (a.without called).plan := by
        rw [later_eq_filter hwf.order]
        exact List.mem_filter.mpr ⟨hstay, by simpa using hd⟩
      refine .inr ⟨hlater, fun hexp => ?_⟩
      obtain ⟨e, he, rfl⟩ := List.mem_map.mp hexp
      have honce := hwf.once
      rw [← due_append_later (a.now + n) (a.without called).plan, List.map_append,
        List.nodup_append] at honce
      exact honce.2.2 _ (List.mem_map_of_mem he) _ (List.mem_map_of_mem hlater) rfl

/-- A run: it is woken by the tick of its deadline. -/
theorem sleeper_woken (h : Path Sleep a es a') (ha : a.Wf) {i : ι} {d : Nat} (hi : (i, d) ∈ a.plan)
    (hcalled : ∀ e ∈ es, i ∉ e.called) :
    (∃ e ∈ es, i ∈ e.expired) ↔ d ≤ a.now + Waiting.ticks es := by
  induction h with
  | nil a =>
    have := ha.ahead _ hi
    simp only [List.not_mem_nil, false_and, exists_false, Waiting.ticks, Nat.add_zero, false_iff]
    exact Nat.not_le.mpr this
  | @cons a m a' e es hstep hrest ih =>
    have hnow := hstep.now
    rw [ticks_cons, ← Nat.add_assoc, ← hnow]
    rcases hstep.sleeper ha hi (hcalled e List.mem_cons_self) with ⟨hd, hexp⟩ | ⟨hm, hexp⟩
    · exact ⟨fun _ => Nat.le_trans hd (Nat.le_add_right _ _), fun _ => ⟨e, List.mem_cons_self, hexp⟩⟩
    · rw [← ih (hstep.wf ha) hm fun e he => hcalled e (List.mem_cons_of_mem _ he)]
      simp [hexp]

/-- A task that begins to sleep for `n` ticks, and is not called for an event, is woken by the `n`-th
tick behind it, wherever the clock wraps around and whenever the scheduler is suspended. -/
theorem delay_exact {es es' : List (Waiting ι)} {i : ι} {n : Nat} {s : Delays ι}
    (h : Delays.Run .start (es ++ .sleeps i n :: es') s) (hcalled : ∀ e ∈ es', i ∉ e.called) :
    (∃ e ∈ es', i ∈ e.expired) ↔ n ≤ Waiting.ticks es' := by
  obtain ⟨a', hpath, -⟩ := Delays.run_sleep h
  obtain ⟨a, hbefore, hafter⟩ := hpath.split
  have hwf : a.Wf := hbefore.inv Sleepers.Wf (fun _ _ _ hs ha => hs.wf ha)
    ⟨.nil, List.nodup_nil, fun _ he => absurd he List.not_mem_nil⟩
  cases hafter with
  | cons hstep hrest =>
    have hwf' := hstep.wf hwf
    cases hstep with
    | sleeps hawake hpos =>
      rw [sleeper_woken hrest hwf' (mem_enter.mpr (.inl rfl)) hcalled]
      exact Nat.add_le_add_iff_left

theorem delay_exact_two :
    ∃ e ∈ ([.passes [] 1 [], .silent, .silent, .passes [] 1 [0]] : List (Waiting (Fin 1))),
      0 ∈ e.expired := by
  have hrun : Delays.Run (.start : Delays (Fin 1))
      ([] ++ .sleeps 0 2 :: [.passes [] 1 [], .silent, .silent, .passes [] 1 [0]]) _ :=
    .cons ⟨.block 0 2 false, rfl⟩ (.cons ⟨.tick, rfl⟩ (.cons ⟨.suspendAll, rfl⟩
      (.cons ⟨.tick, rfl⟩ (.cons ⟨.resumeAll, rfl⟩ (.nil _)))))
  exact (delay_exact hrun (by simp [Waiting.called])).mpr (Nat.le_refl 2)

end Woken

end Rtos
end Air101
