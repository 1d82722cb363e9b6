import Mathlib.Logic.Function.Basic
import Mathlib.Data.List.Nodup

/-!
# Task.Ledger

The books of a message service, kept from outside. Every call draws a ticket. A call is open until it
returns; on its way it may post its message, and it returns with success only behind the post.

`Ledger.Sound` says that tickets are posted once, that the calls that returned with success have posted
and that those that failed have not.

* `Ledger.Step.sound`: every step of the books keeps this.
-/

namespace Air101
namespace Task

/-- How a call came out. -/
inductive CallStatus where
  | unused
  | running
  | succeeded
  | failed
  deriving DecidableEq, Repr

/-- Where a caller stands: without a call, in front of the post of its message, or behind it. -/
inductive Stage where
  | idle
  | before (ticket : Nat)
  | after (ticket : Nat)
  deriving DecidableEq, Repr

/-- The ticket of an open call. -/
def Stage.ticket : Stage → Option Nat
  | .idle => none
  | .before k => some k
  | .after k => some k

/-- The tickets posted so far, the next ticket, how the calls came out and where the callers stand. -/
structure Ledger where
  posted : List Nat
  tickets : Nat
  status : Nat → CallStatus
  stage : Nat → Stage

namespace Ledger

/-- A call of a caller that has none. -/
def begin (l : Ledger) (j : Nat) : Ledger :=
  { l with
    tickets := l.tickets + 1
    status := Function.update l.status l.tickets .running
    stage := Function.update l.stage j (.before l.tickets) }

/-- A call that returns with an error at once. -/
def refuse (l : Ledger) : Ledger :=
  { l with tickets := l.tickets + 1, status := Function.update l.status l.tickets .failed }

/-- The post of a message. -/
def post (l : Ledger) (j k : Nat) : Ledger :=
  { l with posted := l.posted ++ [k], stage := Function.update l.stage j (.after k) }

/-- The return of a call. -/
def finish (l : Ledger) (j k : Nat) (st : CallStatus) : Ledger :=
  { l with status := Function.update l.status k st, stage := Function.update l.stage j .idle }

end Ledger

/-- One step of the books. -/
inductive Ledger.Step : Ledger → Ledger → Prop where
  | skip (l : Ledger) : Step l l
  | begin (l : Ledger) (j : Nat) : l.stage j = .idle → Step l (l.begin j)
  | refuse (l : Ledger) : Step l l.refuse
  | post (l : Ledger) (j k : Nat) : l.stage j = .before k → Step l (l.post j k)
  | send (l : Ledger) (j k : Nat) : l.stage j = .before k → Step l ((l.post j k).finish j k .succeeded)
  | fail (l : Ledger) (j k : Nat) : l.stage j = .before k → Step l (l.finish j k .failed)
  | close (l : Ledger) (j k : Nat) : l.stage j = .after k → Step l (l.finish j k .succeeded)

/-- Tickets are posted once, and the outcomes of the calls agree with the posts. -/
structure Ledger.Sound (l : Ledger) : Prop where
  nodup : l.posted.Nodup
  lt : ∀ k ∈ l.posted, k < l.tickets
  before : ∀ j k, l.stage j = .before k → k < l.tickets ∧ l.status k = .running ∧ k ∉ l.posted
  after : ∀ j k, l.stage j = .after k → k < l.tickets ∧ l.status k = .running ∧ k ∈ l.posted
  uniq : ∀ i j k, (l.stage i).ticket = some k → (l.stage j).ticket = some k → i = j
  success : ∀ k, l.status k = .succeeded → k ∈ l.posted
  error : ∀ k, l.status k = .failed → k ∉ l.posted

namespace Ledger

variable {l l' : Ledger} {i j k : Nat}

theorem Sound.ticket (h : l.Sound) (hj : (l.stage j).ticket = some k) :
    k < l.tickets ∧ l.status k = .running := by
  cases hs : l.stage j with
  | idle =>
    rw [hs] at hj
    cases hj
  | before k' =>
    rw [hs] at hj
    cases hj
    exact ⟨(h.before j k hs).1, (h.before j k hs).2.1⟩
  | after k' =>
    rw [hs] at hj
    cases hj
    exact ⟨(h.after j k hs).1, (h.after j k hs).2.1⟩

/-- The open calls keep their place when one caller's stage changes to one with the same ticket, or to
none. -/
theorem Sound.uniq_update (h : l.Sound) {st : Stage}
    (hst : ∀ k, st.ticket = some k → (l.stage j).ticket = some k) (a b c : Nat)
    (ha : (Function.update l.stage j st a).ticket = some c)
    (hb : (Function.update l.stage j st b).ticket = some c) : a = b := by
  have hold : ∀ x, (Function.update l.stage j st x).ticket = some c → (l.stage x).ticket = some c := by
    intro x hx
    by_cases hxj : x = j
    · subst hxj
      rw [Function.update_self] at hx
      exact hst c hx
    · rw [Function.update_of_ne hxj] at hx
      exact hx
  exact h.uniq a b c (hold a ha) (hold b hb)

theorem sound_begin (h : l.Sound) (hj : l.stage j = .idle) : (l.begin j).Sound := by
  -- the drawn ticket belongs to nothing yet
  have hfresh : l.tickets ∉ l.posted := fun hmem => Nat.lt_irrefl _ (h.lt _ hmem)
  have hold : ∀ a c, a ≠ j → (l.stage a).ticket = some c → c ≠ l.tickets := by
    rintro a c _ ha rfl
    exact Nat.lt_irrefl _ (h.ticket ha).1
  refine ⟨h.nodup, fun k hk => Nat.lt_succ_of_lt (h.lt k hk), ?_, ?_, ?_, ?_, ?_⟩
  · intro a c ha
    by_cases haj : a = j
    · subst haj
      simp only [begin, Function.update_self] at ha
      cases ha
      exact ⟨Nat.lt_succ_self _, Function.update_self _ _ _, hfresh⟩
    · simp only [begin, Function.update_of_ne haj] at ha
      obtain ⟨hlt, hrun, hno⟩ := h.before a c ha
      refine ⟨Nat.lt_succ_of_lt hlt, ?_, hno⟩
      simp only [begin]
      rw [Function.update_of_ne (Nat.ne_of_lt hlt)]
      exact hrun
  · intro a c ha
    by_cases haj : a = j
    · subst haj
      simp only [begin, Function.update_self] at ha
      cases ha
    · simp only [begin, Function.update_of_ne haj] at ha
      obtain ⟨hlt, hrun, hin⟩ := h.after a c ha
      refine ⟨Nat.lt_succ_of_lt hlt, ?_, hin⟩
      simp only [begin]
      rw [Function.update_of_ne (Nat.ne_of_lt hlt)]
      exact hrun
  · intro a b c ha hb
    simp only [begin] at ha hb
    by_cases haj : a = j
    · by_cases hbj : b = j
      · rw [haj, hbj]
      · subst haj
        rw [Function.update_self] at ha
        rw [Function.update_of_ne hbj] at hb
        cases ha
        exact absurd rfl (hold b _ hbj hb)
    · rw [Function.update_of_ne haj] at ha
      by_cases hbj : b = j
      · subst hbj
        rw [Function.update_self] at hb
        cases hb
        exact absurd rfl (hold a _ haj ha)
      · rw [Function.update_of_ne hbj] at hb
        exact h.uniq a b c ha hb
  · intro c hc
    by_cases hct : c = l.tickets
    · subst hct
      simp only [begin, Function.update_self] at hc
      cases hc
    · simp only [begin, Function.update_of_ne hct] at hc
      exact h.success c hc
  · intro c hc
    by_cases hct : c = l.tickets
    · subst hct
      simp only [begin, Function.update_self] at hc
      cases hc
    · simp only [begin, Function.update_of_ne hct] at hc
      exact h.error c hc

theorem sound_refuse (h : l.Sound) : l.refuse.Sound := by
  have hfresh : l.tickets ∉ l.posted := fun hmem => Nat.lt_irrefl _ (h.lt _ hmem)
  have hrun : ∀ c, c < l.tickets → l.status c = .running → l.refuse.status c = .running := by
    intro c hlt hc
    simp only [refuse]
    rw [Function.update_of_ne (Nat.ne_of_lt hlt)]
    exact hc
  refine ⟨h.nodup, fun k hk => Nat.lt_succ_of_lt (h.lt k hk), ?_, ?_, h.uniq, ?_, ?_⟩
  · intro a c ha
    obtain ⟨hlt, hc, hno⟩ := h.before a c ha
    exact ⟨Nat.lt_succ_of_lt hlt, hrun c hlt hc, hno⟩
  · intro a c ha
    obtain ⟨hlt, hc, hin⟩ := h.after a c ha
    exact ⟨Nat.lt_succ_of_lt hlt, hrun c hlt hc, hin⟩
  · intro c hc
    by_cases hct : c = l.tickets
    · subst hct
      simp only [refuse, Function.update_self] at hc
      cases hc
    · simp only [refuse, Function.update_of_ne hct] at hc
      exact h.success c hc
  · intro c hc
    by_cases hct : c = l.tickets
    · rw [hct]
      exact hfresh
    · simp only [refuse, Function.update_of_ne hct] at hc
      exact h.error c hc

theorem sound_post (h : l.Sound) (hj : l.stage j = .before k) : (l.post j k).Sound := by
  obtain ⟨hlt, hrun, hno⟩ := h.before j k hj
  have hticket : (l.stage j).ticket = some k := by rw [hj]; rfl
  have hother : ∀ a, a ≠ j → (l.stage a).ticket ≠ some k :=
    fun a haj ha => haj (h.uniq a j k ha hticket)
  refine ⟨?_, ?_, ?_, ?_, ?_, ?_, ?_⟩
  · refine List.nodup_append.mpr ⟨h.nodup, by simp, ?_⟩
    intro x hx y hy hxy
    rw [List.mem_singleton] at hy
    rw [hxy, hy] at hx
    exact hno hx
  · intro c hc
    rcases List.mem_append.mp hc with hc | hc
    · exact h.lt c hc
    · rw [List.mem_singleton.mp hc]
      exact hlt
  · intro a c ha
    by_cases haj : a = j
    · subst haj
      simp only [post, Function.update_self] at ha
      cases ha
    · simp only [post, Function.update_of_ne haj] at ha
      obtain ⟨hlt', hrun', hno'⟩ := h.before a c ha
      refine ⟨hlt', hrun', ?_⟩
      intro hmem
      rcases List.mem_append.mp hmem with hmem | hmem
      · exact hno' hmem
      · rw [List.mem_singleton.mp hmem] at ha
        exact hother a haj (by rw [ha]; rfl)
  · intro a c ha
    by_cases haj : a = j
    · subst haj
      simp only [post, Function.update_self] at ha
      cases ha
      exact ⟨hlt, hrun, List.mem_append_right _ (List.mem_singleton_self _)⟩
    · simp only [post, Function.update_of_ne haj] at ha
      obtain ⟨hlt', hrun', hin⟩ := h.after a c ha
      exact ⟨hlt', hrun', List.mem_append_left _ hin⟩
  · exact h.uniq_update fun c hc => by rw [hj]; exact hc
  · intro c hc
    exact List.mem_append_left _ (h.success c hc)
  · intro c hc hmem
    rcases List.mem_append.mp hmem with hmem | hmem
    · exact h.error c hc hmem
    · rw [List.mem_singleton.mp hmem] at hc
      exact absurd (hrun.symm.trans hc) (by simp)

theorem sound_finish (h : l.Sound) {st : CallStatus} (hj : (l.stage j).ticket = some k)
    (hok : st = .succeeded → k ∈ l.posted) (hno : st = .failed → k ∉ l.posted) :
    (l.finish j k st).Sound := by
  have hother : ∀ a c, a ≠ j → (l.stage a).ticket = some c → c ≠ k := by
    rintro a c haj ha rfl
    exact haj (h.uniq a j c ha hj)
  have hstage : ∀ a st', (l.finish j k st).stage a = st' → st' ≠ .idle → a ≠ j ∧ l.stage a = st' := by
    intro a st' ha hne
    by_cases haj : a = j
    · subst haj
      simp only [Ledger.finish, Function.update_self] at ha
      exact absurd ha.symm hne
    · simp only [Ledger.finish, Function.update_of_ne haj] at ha
      exact ⟨haj, ha⟩
  have hrun : ∀ c, c ≠ k → l.status c = .running → (l.finish j k st).status c = .running := by
    intro c hck hc
    simp only [Ledger.finish]
    rw [Function.update_of_ne hck]
    exact hc
  refine ⟨h.nodup, h.lt, ?_, ?_, ?_, ?_, ?_⟩
  · intro a c ha
    obtain ⟨haj, ha⟩ := hstage a _ ha (by simp)
    obtain ⟨hlt, hc, hnot⟩ := h.before a c ha
    exact ⟨hlt, hrun c (hother a c haj (by rw [ha]; rfl)) hc, hnot⟩
  · intro a c ha
    obtain ⟨haj, ha⟩ := hstage a _ ha (by simp)
    obtain ⟨hlt, hc, hin⟩ := h.after a c ha
    exact ⟨hlt, hrun c (hother a c haj (by rw [ha]; rfl)) hc, hin⟩
  · exact h.uniq_update fun _ h => (by cases h)
  · intro c hc
    by_cases hck : c = k
    · subst hck
      simp only [Ledger.finish, Function.update_self] at hc
      exact hok hc
    · simp only [Ledger.finish, Function.update_of_ne hck] at hc
      exact h.success c hc
  · intro c hc
    by_cases hck : c = k
    · subst hck
      simp only [Ledger.finish, Function.update_self] at hc
      exact hno hc
    · simp only [Ledger.finish, Function.update_of_ne hck] at hc
      exact h.error c hc

/-- Every step keeps the books sound. -/
theorem Step.sound (hstep : Step l l') (h : l.Sound) : l'.Sound := by
  cases hstep with
  | skip => exact h
  | begin j hj => exact sound_begin h hj
  | refuse => exact sound_refuse h
  | post j k hj => exact sound_post h hj
  | send j k hj =>
    have hpost := sound_post h hj
    refine sound_finish hpost ?_ (fun _ => List.mem_append_right _ (List.mem_singleton_self _)) (by simp)
    change (Function.update l.stage j (.after k) j).ticket = some k
    rw [Function.update_self]
    rfl
  | fail j k hj => exact sound_finish h (by rw [hj]; rfl) (by simp) fun _ => (h.before j k hj).2.2
  | close j k hj => exact sound_finish h (by rw [hj]; rfl) (fun _ => (h.after j k hj).2.2) (by simp)

end Ledger

end Task
end Air101
