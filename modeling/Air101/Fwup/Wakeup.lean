import Air101.Fwup.Queue

/-!
# Fwup.Wakeup

Whether the update task is woken for every request.

`tls_fwup_request_async` posts a message only when it finds `wait_list` empty, and the scheduler walks
over the list with the `next` pointer it took before it looked at the element. A request that is appended
after the last element's pointer was taken and before the element is deleted gets no message and is not
seen by the walk.

* `seen_tracks`: the walk stays on track as long as there is no such append.
* `sched_rank`: how far a request is from its removal.
* `no_lost_wakeup`: the scheduler does not block in front of waiting requests, and it removes each of
  them after a bounded number of its steps.
-/

namespace Air101
namespace Fwup

open Storage
open Crypto
open Fls

/-! ## Announcements -/

section Queue

variable {hw : Engine} {t : Target} {s s' : Sys} {a : Act} {i : Nat} {temp : Option Nat}

/-- No message for the scheduler is under way. -/
def Sys.Silent (s : Sys) : Prop := s.queue = 0 ∧ ∀ i, ¬ s.Posting i

/-- One message for the scheduler is under way. -/
def Sys.Called (s : Sys) : Prop :=
  (s.queue = 1 ∧ ∀ i, ¬ s.Posting i) ∨ (s.queue = 0 ∧ ∃ i, s.Posting i ∧ ∀ j, s.Posting j → j = i)

/-- A message is under way exactly when requests wait. -/
def Sys.Announced (s : Sys) : Prop :=
  (s.waitList = [] ∧ s.Silent) ∨ (s.waitList ≠ [] ∧ s.Called)

/-- The walk over the list sees all of it: while it has an element, that is the first one, and `temp` is
the one behind it. Once the element is deleted, `temp` is the first one, or the requests that have come
in since have a message of their own. -/
def Sys.Tracks (s : Sys) : Prop :=
  match s.sched with
  | .receive => s.Announced
  | .started => s.waitList ≠ [] ∧ s.Silent
  | .setBusy => s.waitList ≠ [] ∧ s.Silent
  | .fetch => s.waitList ≠ [] ∧ s.Silent
  | .process i temp => s.Silent ∧ ∃ rest, s.waitList = i :: rest ∧ temp = rest.head?
  | .delete i temp => s.Silent ∧ ∃ rest, s.waitList = i :: rest ∧ temp = rest.head?
  | .test _ none => s.Announced
  | .clear _ none => s.Announced
  | .finish _ none => s.Announced
  | .advance none => s.Announced
  | .test _ (some j) => s.Silent ∧ ∃ rest, s.waitList = j :: rest
  | .clear _ (some _) => False
  | .finish _ (some j) => s.Silent ∧ ∃ rest, s.waitList = j :: rest
  | .advance (some j) => s.Silent ∧ ∃ rest, s.waitList = j :: rest

/-- The walk has taken the last element's `next` and has not deleted the element yet. -/
def Sched.AtLast : Sched → Prop
  | .process _ none => True
  | .delete _ none => True
  | _ => False

/-- An append to the list behind the walk's back. -/
def Unseen (s : Sys) : Act → Prop
  | .append _ => s.sched.AtLast
  | _ => False

/-- The steps of a run in which no append is unseen. -/
def Seen (hw : Engine) (t : Target) (s : Sys) (a : Act) (s' : Sys) : Prop :=
  s.step hw t a = some s' ∧ ¬ Unseen s a

theorem Sys.SameQueue.silent (h : s.SameQueue s') (hs : s.Silent) : s'.Silent :=
  ⟨h.queue.trans hs.1, fun i hi => hs.2 i ((h.posting i).mp hi)⟩

theorem Sys.SameQueue.called (h : s.SameQueue s') (hs : s.Called) : s'.Called := by
  rcases hs with ⟨hq, hno⟩ | ⟨hq, i, hi, huniq⟩
  · exact .inl ⟨h.queue.trans hq, fun j hj => hno j ((h.posting j).mp hj)⟩
  · refine .inr ⟨h.queue.trans hq, i, (h.posting i).mpr hi, ?_⟩
    intro j hj
    exact huniq j ((h.posting j).mp hj)

theorem Sys.SameQueue.announced (h : s.SameQueue s') (hs : s.Announced) : s'.Announced := by
  rcases hs with ⟨hnil, hsil⟩ | ⟨hne, hcall⟩
  · exact .inl ⟨h.list.trans hnil, h.silent hsil⟩
  · exact .inr ⟨by rw [h.list]; exact hne, h.called hcall⟩

theorem Sys.SameQueue.tracks (h : s.SameQueue s') (hs : s.Tracks) : s'.Tracks := by
  unfold Sys.Tracks at hs ⊢
  rw [h.sched, h.list]
  split at hs
  · exact h.announced hs
  · exact ⟨hs.1, h.silent hs.2⟩
  · exact ⟨hs.1, h.silent hs.2⟩
  · exact ⟨hs.1, h.silent hs.2⟩
  · exact ⟨h.silent hs.1, hs.2⟩
  · exact ⟨h.silent hs.1, hs.2⟩
  · exact h.announced hs
  · exact h.announced hs
  · exact h.announced hs
  · exact h.announced hs
  · exact ⟨h.silent hs.1, hs.2⟩
  · exact hs
  · exact ⟨h.silent hs.1, hs.2⟩
  · exact ⟨h.silent hs.1, hs.2⟩

/-! ## Appends and posts -/

theorem append_announced (h : s.step hw t (.append i) = some s') (hs : s.Announced) :
    s'.Announced := by
  obtain ⟨_, hlist, hqueue, _, hfirst, hmore⟩ := append_spec h
  refine .inr ⟨by rw [hlist]; simp, ?_⟩
  rcases hs with ⟨hnil, hsil⟩ | ⟨hne, hcall⟩
  · obtain ⟨hi, honly⟩ := hfirst hnil
    refine .inr ⟨hqueue.trans hsil.1, i, hi, ?_⟩
    intro j hj
    rcases honly j hj with rfl | hold
    · rfl
    · exact absurd hold (hsil.2 j)
  · rcases hcall with ⟨hq, hno⟩ | ⟨hq, k, hk, huniq⟩
    · exact .inl ⟨hqueue.trans hq, fun j hj => hno j ((hmore hne j).mp hj)⟩
    · refine .inr ⟨hqueue.trans hq, k, (hmore hne k).mpr hk, ?_⟩
      intro j hj
      exact huniq j ((hmore hne j).mp hj)

theorem append_silent (h : s.step hw t (.append i) = some s') (hne : s.waitList ≠ [])
    (hs : s.Silent) : s'.Silent := by
  obtain ⟨_, _, hqueue, _, _, hmore⟩ := append_spec h
  exact ⟨hqueue.trans hs.1, fun j hj => hs.2 j ((hmore hne j).mp hj)⟩

theorem append_tracks (h : s.step hw t (.append i) = some s') (hseen : ¬ s.sched.AtLast)
    (hs : s.Tracks) : s'.Tracks := by
  obtain ⟨_, hlist, _, hsched, _, _⟩ := append_spec h
  -- behind a first element the list only grows at its end
  have hsil : ∀ j, (s.Silent ∧ ∃ rest, s.waitList = j :: rest) →
      s'.Silent ∧ ∃ rest, s'.waitList = j :: rest := by
    rintro j ⟨hs, rest, hl⟩
    exact ⟨append_silent h (by rw [hl]; simp) hs, rest ++ [i], by rw [hlist, hl]; rfl⟩
  have hwalk : ∀ j temp, temp ≠ none →
      (s.Silent ∧ ∃ rest, s.waitList = j :: rest ∧ temp = rest.head?) →
      s'.Silent ∧ ∃ rest, s'.waitList = j :: rest ∧ temp = rest.head? := by
    rintro j temp htemp ⟨hs, rest, hl, rfl⟩
    refine ⟨append_silent h (by rw [hl]; simp) hs, rest ++ [i], by rw [hlist, hl]; rfl, ?_⟩
    cases rest with
    | nil => exact absurd rfl htemp
    | cons r rest => rfl
  have hstart : (s.waitList ≠ [] ∧ s.Silent) → s'.waitList ≠ [] ∧ s'.Silent := by
    rintro ⟨hne, hs⟩
    exact ⟨by rw [hlist]; simp, append_silent h hne hs⟩
  unfold Sys.Tracks at hs ⊢
  rw [hsched]
  cases hpc : s.sched with
  | receive => rw [hpc] at hs; exact append_announced h hs
  | started => rw [hpc] at hs; exact hstart hs
  | setBusy => rw [hpc] at hs; exact hstart hs
  | fetch => rw [hpc] at hs; exact hstart hs
  | process j temp =>
    rw [hpc] at hs hseen
    cases temp with
    | none => exact absurd trivial hseen
    | some k => exact hwalk j (some k) (by simp) hs
  | delete j temp =>
    rw [hpc] at hs hseen
    cases temp with
    | none => exact absurd trivial hseen
    | some k => exact hwalk j (some k) (by simp) hs
  | test j temp =>
    rw [hpc] at hs
    cases temp with
    | none => exact append_announced h hs
    | some k => exact hsil k hs
  | clear j temp =>
    rw [hpc] at hs
    cases temp with
    | none => exact append_announced h hs
    | some k => exact hs
  | finish j temp =>
    rw [hpc] at hs
    cases temp with
    | none => exact append_announced h hs
    | some k => exact hsil k hs
  | advance temp =>
    rw [hpc] at hs
    cases temp with
    | none => exact append_announced h hs
    | some k => exact hsil k hs

theorem post_announced (h : s.step hw t (.post i) = some s') (hs : s.Announced) : s'.Announced := by
  obtain ⟨hi, hlist, hqueue, _, honly⟩ := post_spec h
  rcases hs with ⟨_, hsil⟩ | ⟨hne, hcall⟩
  · exact absurd hi (hsil.2 i)
  · refine .inr ⟨by rw [hlist]; exact hne, ?_⟩
    rcases hcall with ⟨_, hno⟩ | ⟨hq, k, _, huniq⟩
    · exact absurd hi (hno i)
    · refine .inl ⟨by rw [hqueue, hq]; rfl, ?_⟩
      intro j hj
      obtain ⟨hji, hold⟩ := honly j hj
      exact hji ((huniq j hold).trans (huniq i hi).symm)

theorem post_tracks (h : s.step hw t (.post i) = some s') (hs : s.Tracks) : s'.Tracks := by
  obtain ⟨hi, _, _, hsched, _⟩ := post_spec h
  have hno : ¬ s.Silent := fun hsil => hsil.2 i hi
  unfold Sys.Tracks at hs ⊢
  rw [hsched]
  split at hs
  · exact post_announced h hs
  · exact absurd hs.2 hno
  · exact absurd hs.2 hno
  · exact absurd hs.2 hno
  · exact absurd hs.1 hno
  · exact absurd hs.1 hno
  · exact post_announced h hs
  · exact post_announced h hs
  · exact post_announced h hs
  · exact post_announced h hs
  · exact absurd hs.1 hno
  · exact hs
  · exact absurd hs.1 hno
  · exact absurd hs.1 hno

/-! ## Steps of the scheduler -/

theorem boot_tracks (s : Sys) : s.boot.Tracks := .inl ⟨rfl, rfl, nofun⟩

theorem sched_tracks {junk : List Byte} {heap : Bool} (h : s.schedStep hw t junk heap = some s')
    (hs : s.Tracks) : s'.Tracks := by
  unfold Sys.Tracks at hs
  cases sched_moves h with
  | receive hpc hq =>
    rw [hpc] at hs
    rcases hs with ⟨_, hsil⟩ | ⟨hne, hcall⟩
    · exact absurd hsil.1 hq
    · rcases hcall with ⟨hone, hno⟩ | ⟨hzero, _⟩
      · exact ⟨hne, by simp only [hone], hno⟩
      · exact absurd hzero hq
  | started hpc =>
    rw [hpc] at hs
    simp only [if_neg hs.1]
    exact hs
  | setBusy hpc =>
    rw [hpc] at hs
    exact hs
  | fetchNone hpc hl =>
    rw [hpc] at hs
    exact absurd hl hs.1
  | @fetch i rest hpc hl =>
    rw [hpc] at hs
    exact ⟨hs.2, rest, hl, rfl⟩
  | boot hpc => exact boot_tracks s
  | @process i temp junk heap f st hpc hreq =>
    rw [hpc] at hs
    have hsame : s.SameQueue (s.set i { s.clients i with status := st }) :=
      ⟨rfl, rfl, rfl, posting_same rfl⟩
    exact ⟨hsame.silent hs.1, hs.2⟩
  | @delete i temp hpc =>
    rw [hpc] at hs
    obtain ⟨hsil, rest, hl, rfl⟩ := hs
    have herase : s.waitList.erase i = rest := by
      rw [hl, List.erase_cons_head]
    cases rest with
    | nil => exact .inl ⟨herase, hsil⟩
    | cons r rest => exact ⟨hsil, rest, herase⟩
  | @test i temp hpc =>
    rw [hpc] at hs
    by_cases hnil : s.waitList = []
    · rw [if_pos hnil]
      cases temp with
      | none => exact hs
      | some j =>
        obtain ⟨_, rest, hl⟩ := hs
        rw [hl] at hnil
        cases hnil
    · rw [if_neg hnil]
      cases temp with
      | none => exact hs
      | some j => exact hs
  | @clear i temp hpc =>
    rw [hpc] at hs
    cases temp with
    | none => exact hs
    | some j => exact absurd hs id
  | @finish i temp hpc =>
    rw [hpc] at hs
    have hsame : s.SameQueue (s.set i { s.clients i with released := true }) :=
      ⟨rfl, rfl, rfl, posting_same rfl⟩
    cases temp with
    | none => exact hsame.announced hs
    | some j => exact ⟨hsame.silent hs.1, hs.2⟩
  | advanceNone hpc =>
    rw [hpc] at hs
    exact hs
  | @advance j hpc =>
    rw [hpc] at hs
    obtain ⟨hsil, rest, hl⟩ := hs
    exact ⟨hsil, rest, hl, by rw [hl, nextOf_head]⟩

/-- A step that is no unseen append keeps the walk on track. -/
theorem seen_tracks (h : Seen hw t s a s') (hs : s.Tracks) : s'.Tracks := by
  obtain ⟨hstep, hseen⟩ := h
  rcases act_cases a with ⟨junk, heap, rfl⟩ | ⟨i, rfl⟩ | ⟨i, rfl⟩ | hq
  · exact sched_tracks hstep hs
  · exact append_tracks hstep hseen hs
  · exact post_tracks hstep hs
  · exact (client_quiet hstep hq).tracks hs

/-! ## Waiting requests -/

/-- Steps of the scheduler that are left before the element at the list's front is deleted. -/
def Sched.weight : Sched → Nat
  | .receive => 6
  | .started => 5
  | .setBusy => 4
  | .fetch => 3
  | .process _ _ => 2
  | .delete _ _ => 1
  | .test _ none => 10
  | .test _ (some _) => 5
  | .clear _ _ => 9
  | .finish _ none => 8
  | .finish _ (some _) => 4
  | .advance none => 7
  | .advance (some _) => 3

/-- A bound on the steps of the scheduler before the request of client `i` is deleted. -/
def Sys.rank (s : Sys) (i : Nat) : Nat := s.sched.weight + 5 * s.waitList.idxOf i

/-- The scheduler is blocked in front of waiting requests, and no client is about to wake it. -/
def Sys.Stuck (s : Sys) : Prop :=
  s.sched = .receive ∧ s.queue = 0 ∧ s.waitList ≠ [] ∧ ∀ i, ¬ s.Posting i

theorem client_rank (h : s.step hw t a = some s') (hsched : a.isSched = false) (hi : i ∈ s.waitList) :
    s'.rank i = s.rank i := by
  unfold Sys.rank
  rcases act_cases a with ⟨junk, heap, rfl⟩ | ⟨k, rfl⟩ | ⟨k, rfl⟩ | hq
  · cases hsched
  · obtain ⟨_, hlist, _, hpc, _, _⟩ := append_spec h
    rw [hpc, hlist, List.idxOf_append_of_mem hi]
  · obtain ⟨_, hlist, _, hpc, _⟩ := post_spec h
    rw [hpc, hlist]
  · have hsame := client_quiet h hq
    rw [hsame.sched, hsame.list]

/-- A step of the scheduler lowers the rank of a request, unless it takes it away. -/
theorem sched_rank {junk : List Byte} {heap : Bool} (h : s.schedStep hw t junk heap = some s')
    (hs : s.Tracks) (hown : s.Owned) (hi : i ∈ s.waitList) :
    i ∉ s'.waitList ∨ s'.rank i < s.rank i := by
  unfold Sys.Tracks at hs
  have hne : s.waitList ≠ [] := List.ne_nil_of_mem hi
  unfold Sys.rank
  cases sched_moves h with
  | receive hpc hq =>
    right
    simp only [hpc, Sched.weight]
    omega
  | started hpc =>
    right
    simp only [hpc, if_neg hne, Sched.weight]
    omega
  | setBusy hpc =>
    right
    simp only [hpc, Sched.weight, Sys.markBusy]
    omega
  | fetchNone hpc hl => exact absurd hl hne
  | fetch hpc hl =>
    right
    simp only [hpc, Sched.weight]
    omega
  | boot hpc => exact .inl List.not_mem_nil
  | process hpc hreq =>
    right
    simp only [hpc, Sched.weight, Sys.set]
    omega
  | @delete k temp hpc =>
    rw [hpc] at hs
    obtain ⟨_, rest, hl, rfl⟩ := hs
    simp only [hl, List.erase_cons_head]
    cases rest with
    | nil => exact .inl List.not_mem_nil
    | cons r rest =>
      by_cases hik : k = i
      · have hnodup := hown.nodup
        rw [hl, hik] at hnodup
        exact .inl (List.nodup_cons.mp hnodup).1
      · right
        rw [hpc, List.idxOf_cons_ne _ hik]
        simp only [List.head?_cons, Sched.weight]
        omega
  | @test k temp hpc =>
    right
    simp only [hpc, if_neg hne]
    cases temp with
    | none => simp only [Sched.weight]; omega
    | some j => simp only [Sched.weight]; omega
  | @clear k temp hpc =>
    right
    rw [hpc]
    cases temp with
    | none => simp only [Sched.weight, Sys.markBusy]; omega
    | some j => simp only [Sched.weight, Sys.markBusy]; omega
  | @finish k temp hpc =>
    right
    rw [hpc]
    cases temp with
    | none => simp only [Sched.weight, Sys.set]; omega
    | some j => simp only [Sched.weight, Sys.set]; omega
  | advanceNone hpc =>
    right
    simp only [hpc, Sched.weight]
    omega
  | advance hpc =>
    right
    simp only [hpc, Sched.weight]
    omega

theorem seen_rank (h : Seen hw t s a s') (hs : s.Tracks) (hown : s.Owned) (hi : i ∈ s.waitList) :
    i ∉ s'.waitList ∨ (s'.rank i ≤ s.rank i ∧ (a.isSched = true → s'.rank i < s.rank i)) := by
  cases hsched : a.isSched with
  | false => exact .inr ⟨Nat.le_of_eq (client_rank h.1 hsched hi), (by simp)⟩
  | true =>
    cases a with
    | sched junk heap =>
      rcases sched_rank h.1 hs hown hi with hout | hlt
      · exact .inl hout
      · exact .inr ⟨Nat.le_of_lt hlt, fun _ => hlt⟩
    | _ => cases hsched

/-- The module, its task and its clients after power-on. -/
def Sys.start (d : Dev) (booter : List Byte) : Sys :=
  { fwup := powerOn d booter
    installed := false
    waitList := []
    queue := 0
    sched := .receive
    clients := fun _ => .fresh
    epoch := 0 }

theorem start_owned (d : Dev) (booter : List Byte) : (Sys.start d booter).Owned :=
  ⟨List.nodup_nil, fun _ h => (by cases h), fun _ _ => rfl, trivial⟩

theorem start_tracks (d : Dev) (booter : List Byte) : (Sys.start d booter).Tracks :=
  .inl ⟨rfl, rfl, nofun⟩

theorem sched_enabled (junk : List Byte) (heap : Bool) (h : s.schedStep hw t junk heap = none) :
    s.sched = .receive ∧ s.queue = 0 := by
  unfold Sys.schedStep at h
  split at h
  · rename_i hpc
    split at h
    · rename_i hq
      exact ⟨hpc, hq⟩
    · cases h
  · cases h
  · cases h
  · split at h
    · cases h
    · cases h
  · split at h
    · cases h
    · cases h
  · cases h
  · cases h
  · cases h
  · split at h
    · cases h
    · cases h
  · cases h
  · cases h

theorem blocked_posting (hs : s.Tracks) (hpc : s.sched = .receive) (hq : s.queue = 0)
    (hne : s.waitList ≠ []) : ∃ j, s.Posting j := by
  unfold Sys.Tracks at hs
  rw [hpc] at hs
  rcases hs with ⟨hnil, _⟩ | ⟨_, hcall⟩
  · exact absurd hnil hne
  · rcases hcall with ⟨hone, _⟩ | ⟨_, j, hj, _⟩
    · rw [hq] at hone
      cases hone
    · exact ⟨j, hj⟩

theorem post_enabled (hw : Engine) (t : Target) {j : Nat} (h : s.Posting j) :
    (s.step hw t (.post j)).isSome = true := by
  unfold Sys.Posting at h
  simp only [Sys.step]
  rw [if_pos h]
  rfl

end Queue

/-- In every run from power-on in which no append is unseen: the scheduler never gets stuck; while a
request waits, the scheduler has an enabled step, or is blocked and has the message of a client coming
that can post it; and every continuation with more steps of the scheduler than the request's rank takes
the request out of the list. -/
theorem no_lost_wakeup (hw : Engine) (t : Target) (d : Dev) (booter : List Byte) (as : List Act) (s : Sys)
    (hrun : Path (Seen hw t) (Sys.start d booter) as s) :
    ¬ s.Stuck ∧ ∀ i ∈ s.waitList,
      ((∀ junk heap, (s.schedStep hw t junk heap).isSome = true) ∨
        ∃ j, (s.step hw t (.post j)).isSome = true) ∧
      ∀ bs s', Path (Seen hw t) s bs s' → s.rank i < bs.countP Act.isSched →
        ∃ cs ds m, bs = cs ++ ds ∧ Path (Seen hw t) s cs m ∧ Path (Seen hw t) m ds s' ∧
          i ∉ m.waitList := by
  have hinv : s.Tracks ∧ s.Owned := hrun.inv (fun s => s.Tracks ∧ s.Owned)
    (fun _ _ _ hseen hs => ⟨seen_tracks hseen hs.1, step_owned hseen.1 hs.2⟩)
    ⟨start_tracks d booter, start_owned d booter⟩
  constructor
  · rintro ⟨hpc, hq, hne, hno⟩
    obtain ⟨j, hj⟩ := blocked_posting hinv.1 hpc hq hne
    exact hno j hj
  · intro i hi
    constructor
    · by_cases hblocked : s.sched = .receive ∧ s.queue = 0
      · obtain ⟨j, hj⟩ := blocked_posting hinv.1 hblocked.1 hblocked.2 (List.ne_nil_of_mem hi)
        exact .inr ⟨j, post_enabled hw t hj⟩
      · refine .inl fun junk heap => ?_
        cases hstep : s.schedStep hw t junk heap with
        | none => exact absurd (sched_enabled junk heap hstep) hblocked
        | some s' => rfl
    · intro bs s' hpath hmany
      refine Path.reaches (fun s => s.Tracks ∧ s.Owned) (fun s => i ∉ s.waitList) Act.isSched
        (fun s => s.rank i) ?_ ?_ hpath hinv hmany
      · intro s a s' hseen hs
        exact ⟨seen_tracks hseen hs.1, step_owned hseen.1 hs.2⟩
      · intro s a s' hseen hs hgoal
        exact seen_rank hseen hs.1 hs.2 (not_not.mp hgoal)

/-- The memory of a cache, full of zeros. -/
def blankCache : List Byte := List.replicate 4096 0#8

/-- A chip of zeros under the module after power-on. -/
def zeroStart : Sys := Sys.start zeros2M (List.replicate 64 0#8)

/-- The module enters session 7 and client 0 appends a request. -/
def firstAppend : List Act :=
  [.enterTest 0 true, .enterCommit 0 7 (some blankCache), .call 0 7 [0#8] true, .check 0,
    .append 0]

theorem no_lost_wakeup_first : ∃ s, Path (Seen softEngine .air101)
    zeroStart firstAppend s ∧ 0 ∈ s.waitList ∧ ¬ s.Stuck := by
  have hrun : ∃ s, Path (Seen softEngine .air101) zeroStart firstAppend s ∧ 0 ∈ s.waitList :=
    ⟨_, .cons ⟨rfl, id⟩ (.cons ⟨rfl, id⟩ (.cons ⟨rfl, id⟩ (.cons ⟨rfl, id⟩ (.cons ⟨rfl, id⟩ (.nil _))))),
      List.mem_cons_self⟩
  obtain ⟨s, hpath, hmem⟩ := hrun
  exact ⟨s, hpath, hmem, (no_lost_wakeup softEngine .air101 zeros2M _ firstAppend s hpath).1⟩

/-- Client 1 appends its request while the scheduler processes the only one in the list. -/
def lostAppend : List Act :=
  firstAppend ++ [.post 0, .sched [] true, .sched [] true, .sched [] true, .sched [] true,
    .call 1 7 [0#8] true, .check 1, .append 1,
    .sched [] true, .sched [] true, .sched [] true, .sched [] true, .sched [] true]

/-- Client 1 gets no message, and the scheduler blocks in front of its request. -/
theorem wakeup_lost :
    ¬ ∀ as s, Path (fun s a s' => s.step softEngine .air101 a = some s')
      zeroStart as s → ¬ s.Stuck := by
  intro hall
  have hstuck : ∃ s, exec (Sys.step softEngine .air101) zeroStart lostAppend = some s ∧ s.Stuck := by
    refine ⟨_, rfl, rfl, rfl, by decide, ?_⟩
    intro i hi
    by_cases h0 : i = 0
    · subst h0
      cases hi
    · by_cases h1 : i = 1
      · subst h1
        cases hi
      · unfold Sys.Posting at hi
        simp [Sys.set, Sys.goto, Sys.markBusy, h0, h1, zeroStart, Sys.start, Client.fresh] at hi
  obtain ⟨s, hexec, hs⟩ := hstuck
  exact hall lostAppend s (exec_path hexec) hs

end Fwup
end Air101
