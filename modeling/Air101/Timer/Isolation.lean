import Air101.Timer.Csr

/-!
# Timer.Isolation

What the calls on one timer do to the others.

* `step_config`: an operation changes the configuration bits of its own timer only.
* `ok`: no operation reads the register while an interrupt is pending, and none takes its own timer's interrupt or
  callback away while that is pending.
* `settled_step`: a step that is `ok` keeps every expiration pending or answered.
* `timers_isolated`: both, over every run.
* `start_clears_other`: without the condition, `tls_timer_start` of one timer loses an expiration of another.
-/

namespace Air101
namespace Timer

open Storage

section Bits

variable {csr v : BitVec 32} {i j k q : Nat}

theorem getLsbD_one_shiftLeft (p q : Nat) : (1#32 <<< p).getLsbD q = (decide (q < 32) && decide (q = p)) := by
  rw [BitVec.getLsbD_shiftLeft, BitVec.getLsbD_one]
  by_cases hq : q < 32
  · by_cases hp : q < p
    · simp [hp, show q ≠ p by omega]
    · simp [hq, hp, show q - p = 0 ↔ q = p by omega]
  · simp [hq]

theorem pendingMask_getLsbD (q : Nat) : pendingMask.getLsbD q = (decide (q < 32) && decide (q % 5 = 4)) := by
  by_cases hq : q < 32
  · have hall : ∀ q : Fin 32, pendingMask.getLsbD q = (decide (q.val < 32) && decide (q.val % 5 = 4)) := by decide
    exact hall ⟨q, hq⟩
  · rw [BitVec.getLsbD_of_ge _ _ (by omega)]
    simp [hq]

theorem csrWrite_getLsbD (hq : q < 32) : (csrWrite csr v).getLsbD q =
    if q % 5 = 4 then csr.getLsbD q && !v.getLsbD q else v.getLsbD q := by
  rw [csrWrite, BitVec.getLsbD_or, BitVec.getLsbD_and, BitVec.getLsbD_and, BitVec.getLsbD_and, BitVec.getLsbD_not,
    BitVec.getLsbD_not, pendingMask_getLsbD]
  split <;> simp_all

theorem pending_csrWrite (hj : j < 6) : pending (csrWrite csr v) j = (pending csr j && !pending v j) := by
  rw [pending, csrWrite_getLsbD (by omega), if_pos (by omega)]
  rfl

theorem config_ext (h : ∀ k, k < 4 → csr.getLsbD (k + 5 * j) = v.getLsbD (k + 5 * j)) :
    config csr j = config v j := by
  apply BitVec.eq_of_getLsbD_eq
  intro k hk
  rw [config, config, BitVec.getLsbD_extractLsb', BitVec.getLsbD_extractLsb', Nat.add_comm, h k hk]

theorem mask_other {m : Nat} (hk : k < 5) (hm : m < 5) (h : k ≠ m ∨ j ≠ i) :
    (1#32 <<< (m + 5 * i)).getLsbD (k + 5 * j) = false := by
  rw [getLsbD_one_shiftLeft, Bool.and_eq_false_iff]
  right
  rw [decide_eq_false_iff_not]
  omega

theorem or_mask {m : BitVec 32} (h : m.getLsbD q = false) : (v ||| m).getLsbD q = v.getLsbD q := by
  rw [BitVec.getLsbD_or, h, Bool.or_false]

theorem and_not_mask {m : BitVec 32} (hq : q < 32) (h : m.getLsbD q = false) :
    (v &&& ~~~m).getLsbD q = v.getLsbD q := by
  rw [BitVec.getLsbD_and, BitVec.getLsbD_not, h]
  simp [hq]

theorem value_getLsbD (a : Rmw) (hq : q < 32)
    (h : ∀ i, a.timer = some i → (timerMsUnit i).getLsbD q = false ∧ (timerOneTime i).getLsbD q = false ∧
      (timerEn i).getLsbD q = false ∧ (timerIntEn i).getLsbD q = false)
    (hclr : ∀ i, a = .clear i ∨ (∃ isRepeat ms, a = .configure i isRepeat ms) → (timerIntClr i).getLsbD q = false) :
    (a.value v).getLsbD q = v.getLsbD q := by
  cases a with
  | configure i isRepeat ms =>
    obtain ⟨hms, hone, -, -⟩ := h i rfl
    have hint := hclr i (.inr ⟨isRepeat, ms, rfl⟩)
    cases isRepeat <;> cases ms <;>
      simp only [Rmw.value, Bool.false_eq_true, if_true, if_false, or_mask hms, or_mask hone, or_mask hint,
        and_not_mask hq hms, and_not_mask hq hone]
  | enable i =>
    obtain ⟨-, -, hen, hint⟩ := h i rfl
    rw [Rmw.value, or_mask hen, or_mask hint]
  | clear i => exact or_mask (hclr i (.inl rfl))
  | disable i => exact and_not_mask hq (h i rfl).2.2.1
  | release i => exact and_not_mask hq (h i rfl).2.2.1
  | handle => rfl

theorem value_config (a : Rmw) (h : a.timer ≠ some j) (hk : k < 4) :
    (a.value v).getLsbD (k + 5 * j) = v.getLsbD (k + 5 * j) := by
  by_cases hq : k + 5 * j < 32
  · have hother : ∀ i, a.timer = some i → ∀ m, m < 5 → (1#32 <<< (m + 5 * i)).getLsbD (k + 5 * j) = false :=
      fun i hi m hm => mask_other (by omega) hm (.inr fun hji => h (hji ▸ hi))
    refine value_getLsbD a hq (fun i hi => ⟨?_, ?_, ?_, ?_⟩) fun i hi => ?_
    · exact hother i hi 0 (by omega)
    · exact hother i hi 1 (by omega)
    · exact hother i hi 2 (by omega)
    · exact hother i hi 3 (by omega)
    · exact mask_other (by omega) (by omega) (.inl (by omega))
  · rw [BitVec.getLsbD_of_ge _ _ (by omega), BitVec.getLsbD_of_ge _ _ (by omega)]

/-- The timer whose pending bit is written with a 1 whatever was read, or whose callback goes away. -/
def Rmw.drops : Rmw → Option Nat
  | .configure i _ _ | .clear i | .release i => some i
  | .enable _ | .disable _ | .handle => none

theorem value_pending (a : Rmw) (h : a.drops ≠ some j) (hj : j < 6) : pending (a.value v) j = pending v j := by
  have hconf : ∀ i m, m < 4 → (1#32 <<< (m + 5 * i)).getLsbD (4 + 5 * j) = false :=
    fun i m hm => mask_other (by omega) (by omega) (.inl (by omega))
  refine value_getLsbD a (by omega) (fun i _ => ⟨?_, ?_, ?_, ?_⟩) fun i hi => ?_
  · exact hconf i 0 (by omega)
  · exact hconf i 1 (by omega)
  · exact hconf i 2 (by omega)
  · exact hconf i 3 (by omega)
  · refine mask_other (by omega) (by omega) (.inr fun hji => h ?_)
    rcases hi with rfl | ⟨isRepeat, ms, rfl⟩
    · rw [hji, Rmw.drops]
    · rw [hji, Rmw.drops]

theorem pending_expire (hi : i < 6) : pending (csr ||| timerIntClr i) j = (pending csr j || decide (j = i)) := by
  rw [pending, pending, timerIntClr, BitVec.getLsbD_or, getLsbD_one_shiftLeft]
  by_cases h : j = i
  · subst h
    simp
    omega
  · simp [h]

end Bits

section Config

variable {s : Sys}

/-- Between the read and the write of an operation the configuration bits are the ones it read. -/
def Snapshot (s : Sys) : Prop :=
  s.fetched = true → ∀ q, q < 32 → q % 5 ≠ 4 → s.timerCsr.getLsbD q = s.csr.getLsbD q

theorem expire_getLsbD (csr : BitVec 32) (j : Nat) {q : Nat} (h : q % 5 ≠ 4) :
    (csr ||| timerIntClr j).getLsbD q = csr.getLsbD q := by
  refine or_mask ?_
  rw [timerIntClr, getLsbD_one_shiftLeft, Bool.and_eq_false_iff]
  right
  rw [decide_eq_false_iff_not]
  omega

@[simp] theorem write_csr (s : Sys) (a : Rmw) (rest : List Rmw) :
    (s.write a rest).csr = csrWrite s.csr (a.value s.timerCsr) := by
  cases a <;> rfl

@[simp] theorem write_fetched (s : Sys) (a : Rmw) (rest : List Rmw) : (s.write a rest).fetched = false := by
  cases a <;> rfl

@[simp] theorem call_csr (s : Sys) (c : Call) : (s.call c).csr = s.csr := by
  cases c with
  | create isRepeat ms callback =>
    simp only [Sys.call]
    split <;> rfl
  | irq => rfl
  | _ =>
    simp only [Sys.call, Sys.onTimer]
    split <;> rfl

theorem call_fetched (s : Sys) (c : Call) : s.call c = s ∨ (s.call c).fetched = false := by
  cases c with
  | create isRepeat ms callback =>
    simp only [Sys.call]
    split
    · exact .inl rfl
    · exact .inr rfl
  | irq => exact .inr rfl
  | _ =>
    simp only [Sys.call, Sys.onTimer]
    split
    · exact .inr rfl
    · exact .inl rfl

theorem snapshot_step (l : Step) (h : Snapshot s) : Snapshot (step s l) := by
  cases l with
  | call c =>
    simp only [step]
    split
    · rcases call_fetched s c with hc | hc
      · rw [hc]
        exact h
      · intro hf
        rw [hc] at hf
        cases hf
    · exact h
  | access =>
    simp only [step]
    split
    · exact h
    · split
      · intro hf
        rw [write_fetched] at hf
        cases hf
      · exact fun _ q _ _ => rfl
  | expire j =>
    intro hf q hq hp
    exact (h hf q hq hp).trans (expire_getLsbD s.csr j hp).symm

/-- A step changes the configuration bits of a timer only if it is a write of an operation on that timer. -/
theorem step_config (l : Step) {j : Nat} (h : Snapshot s) (hne : config (step s l).csr j ≠ config s.csr j) :
    ∃ a rest, l = .access ∧ s.todo = a :: rest ∧ a.timer = some j := by
  cases l with
  | call c =>
    refine absurd ?_ hne
    simp only [step]
    split
    · rw [call_csr]
    · rfl
  | access =>
    simp only [step] at hne
    split at hne
    · exact absurd rfl hne
    · rename_i a rest htodo
      split at hne
      · rename_i hf
        refine ⟨a, rest, rfl, htodo, ?_⟩
        by_contra htimer
        refine hne (config_ext fun k hk => ?_)
        by_cases hq : k + 5 * j < 32
        · rw [write_csr, csrWrite_getLsbD hq, if_neg (by omega), value_config a htimer hk, h hf _ hq (by omega)]
        · rw [BitVec.getLsbD_of_ge _ _ (by omega), BitVec.getLsbD_of_ge _ _ (by omega)]
      · exact absurd rfl hne
  | expire i =>
    exact absurd (config_ext fun k hk => expire_getLsbD s.csr i (by omega)) hne

end Config

/-- An expiration of timer `j` that no call of its callback has followed. -/
def Owed (log : List Obs) (j : Nat) : Prop :=
  ∃ l₁ l₂, log = l₁ ++ .expired j :: l₂ ∧ ∀ callback, .called j callback ∉ l₂

/-- What an operation meets: no interrupt is pending when it reads the register, and not its own timer's when its
write clears that one or takes the callback away. -/
def ok (s : Sys) : Step → Bool
  | .access => match s.todo with
    | [] => true
    | a :: _ => a.timer.isNone ||
      if s.fetched then (a.drops.all fun i => !pending s.csr i)
      else (List.range 6).all fun j => !pending s.csr j
  | _ => true

section Owed

variable {log cs : List Obs} {j : Nat}

theorem not_owed_nil : ¬ Owed [] j := by
  rintro ⟨l₁, l₂, h, -⟩
  cases l₁ with
  | nil => cases h
  | cons a l₁ => cases h

theorem owed_append (h : Owed (log ++ cs) j) :
    .expired j ∈ cs ∨ Owed log j ∧ ∀ callback, .called j callback ∉ cs := by
  obtain ⟨l₁, l₂, heq, hno⟩ := h
  rcases List.append_eq_append_iff.mp heq with ⟨l, hl₁, hcs⟩ | ⟨l, hlog, hcs⟩
  · refine .inl ?_
    rw [hcs]
    simp
  · cases l with
    | nil =>
      refine .inl ?_
      rw [List.nil_append] at hcs
      rw [← hcs]
      exact List.mem_cons_self
    | cons o l =>
      rw [List.cons_append, List.cons.injEq] at hcs
      obtain ⟨rfl, rfl⟩ := hcs
      exact .inr ⟨⟨l₁, l, hlog, fun callback hm => hno callback (List.mem_append_left _ hm)⟩,
        fun callback hm => hno callback (List.mem_append_right _ hm)⟩

end Owed

section Settled

variable {s : Sys}

/-- Every expiration is pending or answered, of a timer that exists and has a callback; and an operation that has
read the register read no pending interrupt. -/
structure Settled (s : Sys) : Prop where
  owed : ∀ j, Owed s.log j → pending s.csr j = true ∧ s.bitmap.getLsbD j = true ∧ (s.callback j).isSome = true
  lt : ∀ j, s.bitmap.getLsbD j = true → j < 6
  clean : ∀ a rest, s.todo = a :: rest → s.fetched = true → a.timer ≠ none → ∀ j, j < 6 → pending s.timerCsr j = false

theorem settled_init : Settled init where
  owed := fun _ h => absurd h not_owed_nil
  lt := fun j h => by simp [init] at h
  clean := fun a rest h => by cases h

theorem getLsbD_shiftLeft_one8 (i j : Nat) : (1#8 <<< i).getLsbD j = (decide (j < 8) && decide (j = i)) := by
  rw [BitVec.getLsbD_shiftLeft, BitVec.getLsbD_one]
  by_cases hj : j < 8
  · by_cases hi : j < i
    · simp [hi, show j ≠ i by omega]
    · simp [hj, hi, show j - i = 0 ↔ j = i by omega]
  · simp [hj]

theorem freeTimer_some {bitmap : BitVec 8} {i : Nat} (h : freeTimer bitmap = some i) :
    i < 6 ∧ bitmap.getLsbD i = false := by
  have hfree := List.find?_some h
  have hlt := List.mem_of_find?_eq_some h
  rw [List.mem_range] at hlt
  exact ⟨hlt, by simpa using hfree⟩

theorem settled_onTimer (i : Nat) (todo : List Rmw) (h : Settled s) : Settled (s.onTimer i todo) := by
  rw [Sys.onTimer]
  split
  · exact ⟨h.owed, h.lt, fun a rest _ hf => by cases hf⟩
  · exact h

theorem settled_call (c : Call) (h : Settled s) : Settled (s.call c) := by
  cases c with
  | create isRepeat ms callback =>
    simp only [Sys.call]
    split
    · exact h
    · rename_i i hfree
      obtain ⟨hi, hbit⟩ := freeTimer_some hfree
      refine ⟨fun j hj => ?_, fun j hj => ?_, fun a rest _ hf => by cases hf⟩
      · -- a timer with an expiration to answer exists, so it is not the free one
        obtain ⟨hp, hb, hc⟩ := h.owed j hj
        have hne : j ≠ i := fun he => by
          rw [he, hbit] at hb
          cases hb
        refine ⟨hp, ?_, ?_⟩
        · rw [BitVec.getLsbD_or, hb, Bool.true_or]
        · show (Function.update s.callback i callback j).isSome = true
          rw [Function.update_of_ne hne]
          exact hc
      · rw [BitVec.getLsbD_or, getLsbD_shiftLeft_one8, Bool.or_eq_true] at hj
        rcases hj with hj | hj
        · exact h.lt j hj
        · simp only [Bool.and_eq_true, decide_eq_true_eq] at hj
          omega
  | start i => exact settled_onTimer _ _ h
  | stop i => exact settled_onTimer _ _ h
  | change i => exact settled_onTimer _ _ h
  | destroy i => exact settled_onTimer _ _ h
  | irq => exact ⟨h.owed, h.lt, fun a rest _ hf => by cases hf⟩

theorem write_keeps {a : Rmw} {rest : List Rmw} (h : Settled s) (htodo : s.todo = a :: rest) (hf : s.fetched = true)
    (hop : a.timer ≠ none) (hok : ok s .access = true) {j : Nat} (hj : j < 6) :
    pending (csrWrite s.csr (a.value s.timerCsr)) j = pending s.csr j := by
  have hclean := h.clean a rest htodo hf hop j hj
  simp only [ok, htodo, hf, if_true, Bool.or_eq_true, Option.isNone_iff_eq_none, hop, false_or] at hok
  rw [pending_csrWrite hj]
  by_cases hd : a.drops = some j
  · rw [hd] at hok
    have hok : pending s.csr j = false := by simpa using hok
    rw [hok, Bool.false_and]
  · rw [value_pending a hd hj, hclean, Bool.not_false, Bool.and_true]

theorem mem_callbacks {j : Nat} (hj : j < 6) (hp : pending s.timerCsr j = true) (hc : (s.callback j).isSome = true) :
    ∃ callback, .called j callback ∈ s.callbacks := by
  obtain ⟨callback, hcb⟩ := Option.isSome_iff_exists.mp hc
  refine ⟨callback, List.mem_filterMap.mpr ⟨j, List.mem_range.mpr hj, ?_⟩⟩
  rw [if_pos hp, hcb, Option.map_some]

theorem expired_not_mem_callbacks {j : Nat} : .expired j ∉ s.callbacks := by
  intro h
  obtain ⟨i, -, hi⟩ := List.mem_filterMap.mp h
  split at hi
  · cases hc : s.callback i with
    | none => rw [hc] at hi; cases hi
    | some c => rw [hc] at hi; cases hi
  · cases hi

theorem settled_handle {rest : List Rmw} (h : Settled s) : Settled (s.write .handle rest) := by
  refine ⟨fun j hj => ?_, h.lt, fun a rest _ hf => by cases hf⟩
  rcases owed_append hj with hmem | ⟨hold, hno⟩
  · exact absurd hmem expired_not_mem_callbacks
  · obtain ⟨hp, hb, hc⟩ := h.owed j hold
    refine ⟨?_, hb, hc⟩
    have hread : pending s.timerCsr j = false := by
      by_contra hread
      obtain ⟨callback, hcall⟩ := mem_callbacks (h.lt j hb) (by simpa using hread) hc
      exact hno callback hcall
    rw [write_csr, pending_csrWrite (h.lt j hb), hp, Rmw.value, hread]
    rfl

theorem settled_write {a : Rmw} {rest : List Rmw} (h : Settled s) (htodo : s.todo = a :: rest)
    (hf : s.fetched = true) (hok : ok s .access = true) : Settled (s.write a rest) := by
  by_cases hop : a.timer = none
  · cases a with
    | handle => exact settled_handle h
    | _ => cases hop
  · have hkeep : ∀ j, Owed s.log j →
        pending (csrWrite s.csr (a.value s.timerCsr)) j = true ∧ s.bitmap.getLsbD j = true ∧
          (s.callback j).isSome = true := by
      intro j hj
      obtain ⟨hp, hb, hc⟩ := h.owed j hj
      exact ⟨(write_keeps h htodo hf hop hok (h.lt j hb)).trans hp, hb, hc⟩
    cases a with
    | handle => exact absurd rfl hop
    | release i =>
      -- the timer that goes away is not pending, so nothing is owed to it
      have hi : pending s.csr i = false := by
        simpa [ok, htodo, hf, Rmw.timer, Rmw.drops] using hok
      refine ⟨fun j hj => ?_, fun j hj => ?_, fun a rest _ hf => by cases hf⟩
      · obtain ⟨hp, hb, hc⟩ := hkeep j hj
        have hne : j ≠ i := fun he => by
          have hpj := (h.owed j hj).1
          rw [he, hi] at hpj
          cases hpj
        refine ⟨hp, ?_, ?_⟩
        · show (s.bitmap &&& ~~~(1#8 <<< i)).getLsbD j = true
          rw [BitVec.getLsbD_and, BitVec.getLsbD_not, getLsbD_shiftLeft_one8, hb]
          have hj8 := h.lt j hb
          simp [hne]
          omega
        · show (Function.update s.callback i none j).isSome = true
          rw [Function.update_of_ne hne]
          exact hc
      · have hj : (s.bitmap &&& ~~~(1#8 <<< i)).getLsbD j = true := hj
        rw [BitVec.getLsbD_and, Bool.and_eq_true] at hj
        exact h.lt j hj.1
    | _ => exact ⟨hkeep, h.lt, fun a rest _ hf => by cases hf⟩

theorem settled_expire (i : Nat) (h : Settled s) : Settled (step s (.expire i)) := by
  have hmono : ∀ j, pending s.csr j = true → pending (s.csr ||| timerIntClr i) j = true := by
    intro j hp
    rw [pending, BitVec.getLsbD_or]
    exact Bool.or_eq_true_iff.mpr (.inl hp)
  refine ⟨fun j hj => ?_, h.lt, h.clean⟩
  simp only [step] at hj ⊢
  split at hj
  · rename_i hs
    simp only [Sys.started, Bool.and_eq_true] at hs
    rcases owed_append hj with hmem | ⟨hold, -⟩
    · obtain rfl : j = i := by simpa using hmem
      refine ⟨?_, hs.1.1, hs.2⟩
      rw [pending_expire (h.lt j hs.1.1)]
      simp
    · obtain ⟨hp, hb, hc⟩ := h.owed j hold
      exact ⟨hmono j hp, hb, hc⟩
  · obtain ⟨hp, hb, hc⟩ := h.owed j hj
    exact ⟨hmono j hp, hb, hc⟩

theorem settled_step (l : Step) (hok : ok s l = true) (h : Settled s) : Settled (step s l) := by
  cases l with
  | call c =>
    simp only [step]
    split
    · exact settled_call c h
    · exact h
  | access =>
    simp only [step]
    split
    · exact h
    · rename_i a rest htodo
      split
      · rename_i hf
        exact settled_write h htodo hf hok
      · rename_i hf
        refine ⟨h.owed, h.lt, fun b rest' hb _ hop j hj => ?_⟩
        obtain ⟨rfl, -⟩ : a = b ∧ rest = rest' := by simpa [htodo] using hb
        simp only [ok, htodo, hf, if_false, Bool.false_eq_true, Bool.or_eq_true, Option.isNone_iff_eq_none, hop, false_or,
          List.all_eq_true, List.mem_range, Bool.not_eq_true'] at hok
        exact hok j hj
  | expire i => exact settled_expire i h

theorem step_pending (l : Step) (hok : ok s l = true) (h : Settled s) {j : Nat} (hj : j < 6)
    (hp : pending s.csr j = true) : pending (step s l).csr j = true ∨ ∃ rest, s.todo = .handle :: rest := by
  cases l with
  | call c =>
    left
    simp only [step]
    split
    · rw [call_csr]
      exact hp
    · exact hp
  | access =>
    simp only [step]
    split
    · exact .inl hp
    · rename_i a rest htodo
      split
      · rename_i hf
        by_cases hop : a.timer = none
        · cases a with
          | handle => exact .inr ⟨rest, htodo⟩
          | _ => cases hop
        · left
          rw [write_csr, write_keeps h htodo hf hop hok hj]
          exact hp
      · exact .inl hp
  | expire i =>
    left
    show pending (s.csr ||| timerIntClr i) j = true
    rw [pending, BitVec.getLsbD_or]
    exact Bool.or_eq_true_iff.mpr (.inl hp)

end Settled

/-- The timers do not disturb each other, in every run whose operations read the register with no interrupt pending:
an operation changes the configuration bits of its own timer only, no operation clears an interrupt, and every
expiration of a started timer is pending or has been followed by a call of the timer's callback. -/
theorem timers_isolated (ls : List Step) (h : ∀ p ∈ trace step init ls, ok p.1 p.2 = true) :
    (∀ p ∈ trace step init ls, ∀ j, config (step p.1 p.2).csr j ≠ config p.1.csr j →
      ∃ a rest, p.2 = .access ∧ p.1.todo = a :: rest ∧ a.timer = some j) ∧
    (∀ p ∈ trace step init ls, ∀ j, j < 6 → pending p.1.csr j = true →
      pending (step p.1 p.2).csr j = true ∨ ∃ rest, p.1.todo = .handle :: rest) ∧
    (∀ j l₁ l₂, (runs step init ls).log = l₁ ++ .expired j :: l₂ →
      (∃ callback, .called j callback ∈ l₂) ∨ pending (runs step init ls).csr j = true) := by
  have hinit : Snapshot init := fun hf => by cases hf
  have hsnap : (∀ p ∈ trace step init ls, Snapshot p.1) ∧ Snapshot (runs step init ls) :=
    trace_inv Snapshot (fun _ _ => True) (fun s l _ hs => snapshot_step l hs) (fun p _ => trivial) hinit
  have hset := trace_inv Settled (fun s l => ok s l = true) (fun s l hok hs => settled_step l hok hs) h settled_init
  refine ⟨fun p hp j hne => step_config p.2 (hsnap.1 p hp) hne,
    fun p hp j hj hpend => step_pending p.2 (h p hp) (hset.1 p hp) hj hpend, fun j l₁ l₂ hlog => ?_⟩
  by_cases hcall : ∃ callback, .called j callback ∈ l₂
  · exact .inl hcall
  · exact .inr (hset.2.owed j ⟨l₁, l₂, hlog, fun callback hm => hcall ⟨callback, hm⟩⟩).1

/-- One timer is created and started, expires, and is answered by the handler. -/
def oneShot : List Step :=
  [.call (.create false true (some 7)), .access, .access, .call (.start 0), .access, .access, .expire 0,
    .call .irq, .access, .access]

theorem timers_isolated_oneShot : (∀ p ∈ trace step init oneShot, ok p.1 p.2 = true) ∧
    ∀ j l₁ l₂, (runs step init oneShot).log = l₁ ++ .expired j :: l₂ →
      (∃ callback, .called j callback ∈ l₂) ∨ pending (runs step init oneShot).csr j = true :=
  ⟨by decide, (timers_isolated oneShot (by decide)).2.2⟩

/-- Timer 1 expires, and timer 0 is started before the handler has run. -/
def startOther : List Step :=
  [.call (.create false true (some 7)), .access, .access, .call (.create true true (some 8)), .access, .access,
    .call (.start 1), .access, .access, .expire 1, .call (.start 0), .access, .access]

/-- `tls_timer_start` of timer 0 writes the pending bit of timer 1 back and so clears it: the expiration is lost. -/
theorem start_clears_other : (runs step init startOther).log = [.expired 1] ∧
    pending (runs step init startOther).csr 1 = false := by
  decide

end Timer
end Air101
