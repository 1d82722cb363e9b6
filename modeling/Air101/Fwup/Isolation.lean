import Air101.Fwup.Wakeup

/-!
# Fwup.Isolation

Whether a request is processed in the session that accepted it.

`tls_fwup_exit` and `tls_fwup_reset` refuse while `TLS_FWUP_STATE_BUSY` is set. The scheduler sets it
only after it has received its start message, and a request whose session id has been tested is not yet
in the list. The bit is tested in front of the critical section that clears the counters.

* `step_bound`: outside these gaps the bit says whether requests wait.
* `session_isolation`: a request is then processed with the session id and the counters it was
  accepted under.
-/

namespace Air101
namespace Fwup

open Storage
open Crypto
open Fls

/-- The steps that clear the counters of the stream. -/
def Act.Commits : Act → Prop
  | .exitCommit _ => True
  | .resetCommit _ => True
  | .enterCommit _ _ _ => True
  | _ => False

/-- A start message is under way: it is in the queue, a client has still to post it, or the scheduler has
received it and has not marked the module busy yet. -/
def Sys.Pending (s : Sys) : Prop :=
  s.queue ≠ 0 ∨ (∃ i, s.Posting i) ∨ s.sched = .started ∨ s.sched = .setBusy

/-- No client stands between the test of its session id and its append, no start message is under way,
and the module is not marked busy. -/
structure Sys.Calm (s : Sys) : Prop where
  appended : ∀ i, (s.clients i).pc ≠ .checked
  announced : ¬ s.Pending
  notBusy : s.fwup.currentState.busy = false

/-- The steps of a run that clears the counters only in calm states. -/
def Careful (hw : Engine) (t : Target) (s : Sys) (a : Act) (s' : Sys) : Prop :=
  s.step hw t a = some s' ∧ (a.Commits → s.Calm)

/-- The scheduler processes a request under the session id it was accepted under, and the counters have
not been cleared since. -/
def Sys.Isolated (s : Sys) : Prop :=
  ∀ i temp, s.sched = .process i temp →
    (s.clients i).sessionId = s.fwup.currentSessionId ∧ (s.clients i).epoch = s.epoch

section Isolation

variable {hw : Engine} {t : Target} {s s' : Sys} {a : Act} {i : Nat}

/-- Accepted requests belong to the session, and while requests wait the module is marked busy or about to
be marked. -/
structure Sys.Bound (s : Sys) : Prop where
  accepted : ∀ i, (s.clients i).pc = .checked ∨ i ∈ s.waitList →
    (s.clients i).sessionId = s.fwup.currentSessionId ∧ (s.clients i).epoch = s.epoch
  marked : s.waitList ≠ [] → s.fwup.currentState.busy = true ∨ s.Pending
  clearing : ∀ i temp, s.sched = .clear i temp → s.waitList ≠ [] → s.queue ≠ 0 ∨ ∃ j, s.Posting j

theorem calm_empty (hs : s.Bound) (hcalm : s.Calm) : s.waitList = [] := by
  by_contra hne
  rcases hs.marked hne with hbusy | hpend
  · rw [hcalm.notBusy] at hbusy
    cases hbusy
  · exact hcalm.announced hpend

theorem quiet_frame (h : s.step hw t a = some s') (hq : a.Quiet) (hno : ¬ a.Commits) :
    s'.fwup = s.fwup ∧ s'.epoch = s.epoch := by
  cases a with
  | sched junk heap => exact absurd hq id
  | append i => exact absurd hq id
  | post i => exact absurd hq id
  | exitCommit i => exact absurd trivial hno
  | resetCommit i => exact absurd trivial hno
  | enterCommit i sessionId mem => exact absurd trivial hno
  | call i sessionId data sem =>
    simp only [Sys.step] at h
    split at h
    · split at h
      · cases h
        exact ⟨rfl, rfl⟩
      · cases h
        exact ⟨rfl, rfl⟩
    · cases h
  | check i =>
    simp only [Sys.step] at h
    split at h
    · split at h
      · cases h
        exact ⟨rfl, rfl⟩
      · cases h
        exact ⟨rfl, rfl⟩
    · cases h
  | wake i =>
    simp only [Sys.step] at h
    split at h
    · cases h
      exact ⟨rfl, rfl⟩
    · cases h
  | exitTest i sessionId =>
    simp only [Sys.step] at h
    split at h
    · split at h
      · cases h
        exact ⟨rfl, rfl⟩
      · cases h
        exact ⟨rfl, rfl⟩
    · cases h
  | resetTest i sessionId =>
    simp only [Sys.step] at h
    split at h
    · split at h
      · cases h
        exact ⟨rfl, rfl⟩
      · cases h
        exact ⟨rfl, rfl⟩
    · cases h
  | enterTest i mem =>
    simp only [Sys.step] at h
    split at h
    · split at h
      · cases h
        exact ⟨rfl, rfl⟩
      · cases h
        exact ⟨rfl, rfl⟩
    · cases h

theorem pending_same (h : s.SameQueue s') (hp : s.Pending) : s'.Pending := by
  rcases hp with hq | ⟨i, hi⟩ | hpc
  · exact .inl (by rw [h.queue]; exact hq)
  · exact .inr (.inl ⟨i, (h.posting i).mpr hi⟩)
  · exact .inr (.inr (by rw [h.sched]; exact hpc))

theorem quiet_bound (h : s.step hw t a = some s') (hq : a.Quiet) (hno : ¬ a.Commits) (hown : s.Owned)
    (hs : s.Bound) : s'.Bound := by
  obtain ⟨hfwup, hepoch⟩ := quiet_frame h hq hno
  obtain ⟨i, c, hmoves⟩ := client_moves h hq
  have hsame := hmoves.same
  refine ⟨?_, ?_, ?_⟩
  · intro j hj
    rw [hmoves.clients, hmoves.list] at hj
    rw [hfwup, hepoch, hmoves.clients]
    by_cases hji : j = i
    · subst hji
      rw [set_same] at hj ⊢
      rcases hj with hpc | hmem
      · exact hmoves.tested hpc
      · -- a client whose request waits does not move
        obtain ⟨hpc, hrel⟩ := hown.waits j hmem
        rcases hpc with hpc | hpc
        · exact absurd hpc hmoves.old.1
        · have := hmoves.old.2 hpc
          rw [hrel] at this
          cases this
    · rw [set_other s c hji] at hj ⊢
      exact hs.accepted j hj
  · intro hne
    rw [hmoves.list] at hne
    rw [hfwup]
    exact (hs.marked hne).imp_right (pending_same hsame)
  · intro j temp hpc hne
    rw [hmoves.sched] at hpc
    rw [hmoves.list] at hne
    rcases hs.clearing j temp hpc hne with hqueue | ⟨k, hk⟩
    · exact .inl (by rw [hmoves.queue]; exact hqueue)
    · exact .inr ⟨k, (hsame.posting k).mpr hk⟩

theorem commit_spec (h : s.step hw t a = some s') (hc : a.Commits) :
    a.Quiet ∧ ∃ i, ∀ j, (s'.clients j).pc = .checked → j ≠ i ∧ (s.clients j).pc = .checked := by
  cases a with
  | exitCommit i =>
    refine ⟨trivial, i, ?_⟩
    simp only [Sys.step] at h
    split at h
    · cases h
      intro j hj
      by_cases hji : j = i
      · simp [Sys.goto, Sys.set, hji] at hj
      · exact ⟨hji, by simpa [Sys.goto, Sys.set, hji] using hj⟩
    · cases h
  | resetCommit i =>
    refine ⟨trivial, i, ?_⟩
    simp only [Sys.step] at h
    split at h
    · cases h
      intro j hj
      by_cases hji : j = i
      · simp [Sys.goto, Sys.set, hji] at hj
      · exact ⟨hji, by simpa [Sys.goto, Sys.set, hji] using hj⟩
    · cases h
  | enterCommit i sessionId mem =>
    refine ⟨trivial, i, ?_⟩
    simp only [Sys.step] at h
    split at h
    · cases h
      intro j hj
      by_cases hji : j = i
      · simp [Sys.goto, Sys.set, hji] at hj
      · exact ⟨hji, by simpa [Sys.goto, Sys.set, hji] using hj⟩
    · cases h
  | _ => exact absurd hc id

theorem commit_bound (h : s.step hw t a = some s') (hc : a.Commits) (hcalm : s.Calm) (hs : s.Bound) :
    s'.Bound := by
  obtain ⟨hq, i, hchecked⟩ := commit_spec h hc
  have hempty : s'.waitList = [] := (client_quiet h hq).list.trans (calm_empty hs hcalm)
  refine ⟨?_, fun hne => absurd hempty hne, fun _ _ _ hne => absurd hempty hne⟩
  intro j hj
  rw [hempty] at hj
  rcases hj with hpc | hmem
  · exact absurd (hchecked j hpc).2 (hcalm.appended j)
  · cases hmem

/-- An append: the request's session was tested, and a first request is about to be announced. -/
theorem append_bound (h : s.step hw t (.append i) = some s') (hs : s.Bound) : s'.Bound := by
  obtain ⟨hpc, hlist, hqueue, hsched, hfirst, hmore⟩ := append_spec h
  obtain ⟨hclients, hframe⟩ := append_clients h
  refine ⟨?_, ?_, ?_⟩
  · intro j hj
    rw [hframe.1, hframe.2, hclients]
    by_cases hji : j = i
    · subst hji
      rw [set_same]
      exact hs.accepted j (.inl hpc)
    · rw [set_other s _ hji]
      rw [hclients, set_other s _ hji, hlist, List.mem_append, List.mem_singleton] at hj
      exact hs.accepted j (hj.imp_right fun hmem => hmem.resolve_right hji)
  · intro _
    rw [hframe.1]
    by_cases hnil : s.waitList = []
    · exact .inr (.inr (.inl ⟨i, (hfirst hnil).1⟩))
    · rcases hs.marked hnil with hbusy | hq | ⟨j, hj⟩ | hst
      · exact .inl hbusy
      · exact .inr (.inl (by rw [hqueue]; exact hq))
      · exact .inr (.inr (.inl ⟨j, (hmore hnil j).mpr hj⟩))
      · exact .inr (.inr (.inr (by rw [hsched]; exact hst)))
  · intro j temp hclear _
    rw [hsched] at hclear
    by_cases hnil : s.waitList = []
    · exact .inr ⟨i, (hfirst hnil).1⟩
    · rcases hs.clearing j temp hclear hnil with hq | ⟨k, hk⟩
      · exact .inl (by rw [hqueue]; exact hq)
      · exact .inr ⟨k, (hmore hnil k).mpr hk⟩

theorem post_bound (h : s.step hw t (.post i) = some s') (hs : s.Bound) : s'.Bound := by
  obtain ⟨hpc, hlist, hqueue, hsched, _⟩ := post_spec h
  obtain ⟨hclients, hframe⟩ := post_clients h
  unfold Sys.goto at hclients
  have hq : s'.queue ≠ 0 := by
    rw [hqueue]
    split
    · omega
    · omega
  refine ⟨?_, fun _ => .inr (.inl hq), fun _ _ _ _ => .inl hq⟩
  intro j hj
  rw [hframe.1, hframe.2, hclients]
  rw [hclients, hlist] at hj
  by_cases hji : j = i
  · subst hji
    rw [set_same] at hj ⊢
    rcases hj with hpc' | hmem
    · cases hpc'
    · exact hs.accepted j (.inr hmem)
  · rw [set_other s _ hji] at hj ⊢
    exact hs.accepted j hj

theorem accepted_same (hs : s.Bound)
    (hsession : s'.fwup.currentSessionId = s.fwup.currentSessionId) (hepoch : s'.epoch = s.epoch)
    (hlist : ∀ j ∈ s'.waitList, j ∈ s.waitList)
    (hclients : ∀ j, (s'.clients j).pc = (s.clients j).pc ∧
      (s'.clients j).sessionId = (s.clients j).sessionId ∧ (s'.clients j).epoch = (s.clients j).epoch) :
    ∀ j, (s'.clients j).pc = .checked ∨ j ∈ s'.waitList →
      (s'.clients j).sessionId = s'.fwup.currentSessionId ∧ (s'.clients j).epoch = s'.epoch := by
  intro j hj
  obtain ⟨hpc, hid, hep⟩ := hclients j
  rw [hpc] at hj
  rw [hid, hep, hsession, hepoch]
  exact hs.accepted j (hj.imp_right (hlist j))

theorem set_keeps {c : Client} (hpc : c.pc = (s.clients i).pc) (hid : c.sessionId = (s.clients i).sessionId)
    (hep : c.epoch = (s.clients i).epoch) (j : Nat) :
    ((s.set i c).clients j).pc = (s.clients j).pc ∧
      ((s.set i c).clients j).sessionId = (s.clients j).sessionId ∧
      ((s.set i c).clients j).epoch = (s.clients j).epoch := by
  by_cases hji : j = i
  · subst hji
    rw [set_same]
    exact ⟨hpc, hid, hep⟩
  · rw [set_other s c hji]
    exact ⟨rfl, rfl, rfl⟩

theorem boot_bound (s : Sys) : s.boot.Bound :=
  ⟨fun _ hj => hj.elim nofun nofun, fun hne => absurd rfl hne, fun _ _ _ hne => absurd rfl hne⟩

theorem marked_later (hs : s.Bound) (hne : s.waitList ≠ []) (hst : s.sched ≠ .started)
    (hset : s.sched ≠ .setBusy) :
    s.fwup.currentState.busy = true ∨ s.queue ≠ 0 ∨ ∃ j, s.Posting j := by
  rcases hs.marked hne with hbusy | hq | hpost | hpc | hpc
  · exact .inl hbusy
  · exact .inr (.inl hq)
  · exact .inr (.inr hpost)
  · exact absurd hpc hst
  · exact absurd hpc hset

theorem sched_bound {junk : List Byte} {heap : Bool} (h : s.schedStep hw t junk heap = some s')
    (hs : s.Bound) : s'.Bound := by
  have hkeep : ∀ j, (s.clients j).pc = (s.clients j).pc ∧
      (s.clients j).sessionId = (s.clients j).sessionId ∧ (s.clients j).epoch = (s.clients j).epoch :=
    fun _ => ⟨rfl, rfl, rfl⟩
  -- what is known in the walk is enough for its steps
  have hlater : s.sched ≠ .started → s.sched ≠ .setBusy → s.waitList ≠ [] →
      s.fwup.currentState.busy = true ∨ s.queue ≠ 0 ∨ (∃ j, s.Posting j) ∨
        s'.sched = .started ∨ s'.sched = .setBusy := by
    intro hst hset hne
    rcases marked_later hs hne hst hset with hbusy | hq | hpost
    · exact .inl hbusy
    · exact .inr (.inl hq)
    · exact .inr (.inr (.inl hpost))
  cases sched_moves h with
  | receive hpc hq =>
    exact ⟨accepted_same hs rfl rfl (fun _ hj => hj) hkeep,
      fun _ => .inr (.inr (.inr (.inl rfl))), (by simp)⟩
  | started hpc =>
    refine ⟨accepted_same hs rfl rfl (fun _ hj => hj) hkeep, ?_, ?_⟩
    · intro hne
      exact .inr (.inr (.inr (.inr (if_neg hne))))
    · intro i temp hclear hne
      simp only [if_neg hne] at hclear
      cases hclear
  | setBusy hpc =>
    exact ⟨accepted_same hs rfl rfl (fun _ hj => hj) hkeep, fun _ => .inl rfl, (by simp)⟩
  | fetchNone hpc hl =>
    rw [hpc] at hlater
    exact ⟨accepted_same hs rfl rfl (fun _ hj => hj) hkeep, hlater (by simp) (by simp), (by simp)⟩
  | fetch hpc hl =>
    rw [hpc] at hlater
    exact ⟨accepted_same hs rfl rfl (fun _ hj => hj) hkeep, hlater (by simp) (by simp), (by simp)⟩
  | boot hpc => exact boot_bound s
  | @process i temp junk heap f st hpc hreq =>
    have hsession := request_session hreq
    have hsame : s.SameQueue (s.set i { s.clients i with status := st }) :=
      ⟨rfl, rfl, rfl, posting_same rfl⟩
    refine ⟨accepted_same hs hsession.id rfl (fun _ hj => hj) (set_keeps rfl rfl rfl), ?_, (by simp)⟩
    intro hne
    rcases marked_later hs hne (by rw [hpc]; simp) (by rw [hpc]; simp) with hbusy | hq | ⟨j, hj⟩
    · exact .inl (hsession.state.trans hbusy)
    · exact .inr (.inl hq)
    · exact .inr (.inr (.inl ⟨j, (hsame.posting j).mpr hj⟩))
  | @delete i temp hpc =>
    rw [hpc] at hlater
    refine ⟨accepted_same hs rfl rfl (fun _ hj => List.mem_of_mem_erase hj) hkeep, ?_, (by simp)⟩
    intro hne
    refine hlater (by simp) (by simp) ?_
    intro hnil
    exact hne (by simp only [hnil, List.erase_nil])
  | @test i temp hpc =>
    rw [hpc] at hlater
    refine ⟨accepted_same hs rfl rfl (fun _ hj => hj) hkeep, hlater (by simp) (by simp), ?_⟩
    intro j temp' hclear hne
    simp only [if_neg hne] at hclear
    cases hclear
  | @clear i temp hpc =>
    refine ⟨accepted_same hs rfl rfl (fun _ hj => hj) hkeep, ?_, (by simp)⟩
    intro hne
    rcases hs.clearing i temp hpc hne with hq | hpost
    · exact .inr (.inl hq)
    · exact .inr (.inr (.inl hpost))
  | @finish i temp hpc =>
    have hsame : s.SameQueue (s.set i { s.clients i with released := true }) :=
      ⟨rfl, rfl, rfl, posting_same rfl⟩
    refine ⟨accepted_same hs rfl rfl (fun _ hj => hj) (set_keeps rfl rfl rfl), ?_, (by simp)⟩
    intro hne
    rcases marked_later hs hne (by rw [hpc]; simp) (by rw [hpc]; simp) with hbusy | hq | ⟨j, hj⟩
    · exact .inl hbusy
    · exact .inr (.inl hq)
    · exact .inr (.inr (.inl ⟨j, (hsame.posting j).mpr hj⟩))
  | advanceNone hpc =>
    rw [hpc] at hlater
    exact ⟨accepted_same hs rfl rfl (fun _ hj => hj) hkeep, hlater (by simp) (by simp), (by simp)⟩
  | advance hpc =>
    rw [hpc] at hlater
    exact ⟨accepted_same hs rfl rfl (fun _ hj => hj) hkeep, hlater (by simp) (by simp), (by simp)⟩

/-- Careful steps keep accepted requests in their session. -/
theorem step_bound (h : Careful hw t s a s') (hown : s.Owned) (hs : s.Bound) : s'.Bound := by
  obtain ⟨hstep, hcalm⟩ := h
  rcases act_cases a with ⟨junk, heap, rfl⟩ | ⟨i, rfl⟩ | ⟨i, rfl⟩ | hq
  · exact sched_bound hstep hs
  · exact append_bound hstep hs
  · exact post_bound hstep hs
  · by_cases hc : a.Commits
    · exact commit_bound hstep hc (hcalm hc) hs
    · exact quiet_bound hstep hq hc hown hs

theorem start_bound (d : Dev) (booter : List Byte) : (Sys.start d booter).Bound :=
  ⟨fun _ hj => hj.elim nofun nofun, fun hne => absurd rfl hne, fun _ _ _ hne => absurd rfl hne⟩

end Isolation

/-- In every run from power-on that clears the counters only in calm states, a request is processed in the
session that accepted it, and `tls_fwup_exit` and `tls_fwup_reset` succeed only while nothing waits. -/
theorem session_isolation (hw : Engine) (t : Target) (d : Dev) (booter : List Byte) (as : List Act)
    (s : Sys) (hrun : Path (Careful hw t) (Sys.start d booter) as s) :
    s.Isolated ∧ ∀ a s', Careful hw t s a s' →
      (∃ i, a = .exitCommit i ∨ a = .resetCommit i) → s.waitList = [] := by
  obtain ⟨hown, hs⟩ : s.Owned ∧ s.Bound := hrun.inv (fun s => s.Owned ∧ s.Bound)
    (fun _ _ _ hc hs => ⟨step_owned hc.1 hs.1, step_bound hc hs.1 hs.2⟩)
    ⟨start_owned d booter, start_bound d booter⟩
  constructor
  · intro i temp hpc
    have hwalk := hown.walk
    rw [hpc] at hwalk
    exact hs.accepted i (.inr hwalk.1)
  · rintro a s' ⟨_, hcalm⟩ ⟨i, rfl | rfl⟩
    · exact calm_empty hs (hcalm trivial)
    · exact calm_empty hs (hcalm trivial)

theorem session_isolation_first : ∃ s, Path (Careful softEngine .air101) zeroStart
    (firstAppend ++ [.post 0, .sched [] true, .sched [] true, .sched [] true, .sched [] true]) s ∧
      s.sched = .process 0 none ∧ s.Isolated := by
  -- the session is entered while nothing else goes on
  have hcalm : ∀ s', zeroStart.step softEngine .air101 (.enterTest 0 true) = some s' → s'.Calm := by
    intro s' h
    cases h
    refine ⟨?_, ?_, rfl⟩
    · intro i
      by_cases h0 : i = 0
      · subst h0
        intro h
        cases h
      · simp [Sys.goto, Sys.set, h0, zeroStart, Sys.start, Client.fresh]
    · rintro (hq | ⟨i, hi⟩ | hpc | hpc)
      · exact hq rfl
      · by_cases h0 : i = 0
        · subst h0
          cases hi
        · simp [Sys.Posting, Sys.goto, Sys.set, h0, zeroStart, Sys.start, Client.fresh] at hi
      · cases hpc
      · cases hpc
  have hrun : ∃ s, Path (Careful softEngine .air101) zeroStart
      (firstAppend ++ [.post 0, .sched [] true, .sched [] true, .sched [] true, .sched [] true]) s ∧
        s.sched = .process 0 none :=
    ⟨_, .cons ⟨rfl, False.elim⟩ (.cons ⟨rfl, fun _ => hcalm _ rfl⟩ (.cons ⟨rfl, False.elim⟩ (.cons ⟨rfl, False.elim⟩
      (.cons ⟨rfl, False.elim⟩ (.cons ⟨rfl, False.elim⟩ (.cons ⟨rfl, False.elim⟩ (.cons ⟨rfl, False.elim⟩ (.cons ⟨rfl, False.elim⟩
        (.cons ⟨rfl, False.elim⟩ (.nil _)))))))))), rfl⟩
  obtain ⟨s, hpath, hpc⟩ := hrun
  exact ⟨s, hpath, hpc, (session_isolation softEngine .air101 zeros2M _ _ s hpath).1⟩

/-- Client 1 exits session 7 and enters session 9 while the request of client 0 is in the list. -/
def staleRequest : List Act :=
  firstAppend ++ [.exitTest 1 7, .exitCommit 1, .enterTest 1 true, .enterCommit 1 9 none, .post 0,
    .sched [] true, .sched [] true, .sched [] true, .sched [] true]

/-- The request accepted in session 7 is processed in session 9. -/
theorem session_not_isolated :
    ¬ ∀ as s, Path (fun s a s' => s.step softEngine .air101 a = some s') zeroStart as s →
      s.Isolated := by
  intro hall
  have hstale : ∃ s, exec (Sys.step softEngine .air101) zeroStart staleRequest = some s ∧
      s.sched = .process 0 none ∧ (s.clients 0).sessionId = 7 ∧ s.fwup.currentSessionId = 9 :=
    ⟨_, rfl, rfl, rfl, rfl⟩
  obtain ⟨s, hexec, hpc, hold, hnew⟩ := hstale
  have hsame := (hall staleRequest s (exec_path hexec) 0 none hpc).1
  rw [hold, hnew] at hsame
  cases hsame

end Fwup
end Air101
