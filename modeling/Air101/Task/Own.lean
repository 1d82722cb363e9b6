import Air101.Task.Books

/-!
# Task.Own

Whether a message still carries the work of its call when the thread handles it.

A message of its own is not changed on its way. A shared record is right for the message that points to it
as long as its calls keep out of each other's way (`SlotOk`).

* `step_own`: orderly steps keep the messages with their calls.
-/

namespace Air101
namespace Task

open Storage

/-! ## The shared records -/

/-- What the thread has of the shared record `id`. -/
def Thread.hold (id : Fin 9) : Thread → Option Hold
  | .got (.shared k i) => if i = id then some (.got k) else none
  | .tookFunction k i function => if i = id then some (.tookFunction k function) else none
  | .took k i function ctx => if i = id then some (.took k function ctx) else none
  | .loaded k i function ctx cnt => if i = id then some (.loaded k function ctx cnt) else none
  | _ => none

/-- The ticket of a message that points to the shared record `id`. -/
def Msg.slot (id : Fin 9) : Msg → Option Nat
  | .own _ _ => none
  | .shared k i => if i = id then some k else none

def Sys.mail (s : Sys) (id : Fin 9) : List Nat := s.mbox.filterMap (Msg.slot id)

def Sys.roles (s : Sys) (id : Fin 9) : Nat → Option Role := Caller.role id ∘ s.callers

/-- What the thread has in hand is what the call asked for. -/
def Thread.Own (asked : Nat → Work) : Thread → Prop
  | .got (.own k w) => asked k = w
  | .calling k function ctx => asked k = .callback function ctx
  | _ => True

/-- Messages carry the work of their calls, from the call to the thread. -/
structure Sys.Own (s : Sys) : Prop where
  handled : ∀ p ∈ s.handled, s.asked p.1 = p.2
  mail : ∀ k w, .own k w ∈ s.mbox → s.asked k = w
  thread : s.thread.Own s.asked
  posting : ∀ j k w block tries, s.callers j = .posting k w block tries → s.asked k = w
  slots : ∀ id, SlotOk s.asked (s.wlMsg id) (s.roles id) (s.thread.hold id) (s.mail id)

section Own

variable {s s' : Sys} {a : Act} {j : Nat}

theorem roles_goto (s : Sys) (j : Nat) (c : Caller) (id : Fin 9) :
    (s.goto j c).roles id = Function.update (s.roles id) j (c.role id) :=
  Function.comp_update _ _ _ _

theorem roles_kept {c : Caller} {id : Fin 9} (h : c.role id = (s.callers j).role id) :
    (s.goto j c).roles id = s.roles id := by
  rw [roles_goto, h]
  exact Function.update_eq_self j _

theorem role_ticket {id : Fin 9} {r : Role} (h : s.roles id j = some r) :
    (s.ledger.stage j).ticket = some r.ticket := by
  change (s.callers j).role id = some r at h
  change (s.callers j).stage.ticket = some r.ticket
  cases hc : s.callers j with
  | idle => rw [hc] at h; cases h
  | posting k w block tries => rw [hc] at h; cases h
  | tested k i function ctx block =>
    rw [hc] at h
    simp only [Caller.role] at h
    split at h
    · cases h
      rfl
    · cases h
  | wroteFunction k i function ctx block =>
    rw [hc] at h
    simp only [Caller.role] at h
    split at h
    · cases h
      rfl
    · cases h
  | sending k i function ctx block tries =>
    rw [hc] at h
    simp only [Caller.role] at h
    split at h
    · cases h
      rfl
    · cases h
  | posted k i =>
    rw [hc] at h
    simp only [Caller.role] at h
    split at h
    · cases h
      rfl
    · cases h
  | loaded k i cnt =>
    rw [hc] at h
    simp only [Caller.role] at h
    split at h
    · cases h
      rfl
    · cases h

theorem hold_held {id : Fin 9} {y : Hold} (h : s.thread.hold id = some y) : y.ticket ∈ s.thread.held := by
  cases hp : s.thread with
  | fetch => rw [hp] at h; cases h
  | got m =>
    rw [hp] at h
    cases m with
    | own k w => cases h
    | shared k i =>
      simp only [Thread.hold] at h
      split at h
      · cases h
        exact List.mem_singleton_self _
      · cases h
  | tookFunction k i function =>
    rw [hp] at h
    simp only [Thread.hold] at h
    split at h
    · cases h
      exact List.mem_singleton_self _
    · cases h
  | took k i function ctx =>
    rw [hp] at h
    simp only [Thread.hold] at h
    split at h
    · cases h
      exact List.mem_singleton_self _
    · cases h
  | loaded k i function ctx cnt =>
    rw [hp] at h
    simp only [Thread.hold] at h
    split at h
    · cases h
      exact List.mem_singleton_self _
    · cases h
  | calling k function ctx => rw [hp] at h; cases h

theorem out_pending {id : Fin 9} {k : Nat} (h : k ∈ out (s.thread.hold id) (s.mail id)) :
    k ∈ s.pending := by
  rcases List.mem_append.mp h with h | h
  · obtain ⟨y, hy, rfl⟩ := List.mem_map.mp h
    exact List.mem_append_left _ (hold_held (Option.mem_toList.mp hy))
  · obtain ⟨m, hm, hk⟩ := List.mem_filterMap.mp h
    refine List.mem_append_right _ (List.mem_map.mpr ⟨m, hm, ?_⟩)
    cases m with
    | own k' w => cases hk
    | shared k' i =>
      simp only [Msg.slot] at hk
      split at hk
      · cases hk
        rfl
      · cases hk

/-! ### Calls -/

theorem draw_own (hs : s.Own) (hl : s.ledger.Sound) (w : Work) (st : CallStatus) : (s.draw w st).Own := by
  have hkeep : ∀ k, k < s.tickets → Function.update s.asked s.tickets w k = s.asked k :=
    fun k hk => Function.update_of_ne (Nat.ne_of_lt hk) _ _
  have hposted : ∀ k, k ∈ s.done ++ s.pending → k < s.tickets := hl.lt
  refine ⟨?_, ?_, ?_, ?_, ?_⟩
  · intro p hp
    exact (hkeep p.1 (hposted _ (List.mem_append_left _ (List.mem_map_of_mem hp)))).trans
      (hs.handled p hp)
  · intro k w' hm
    refine (hkeep k (hposted _ ?_)).trans (hs.mail k w' hm)
    exact List.mem_append_right _ (List.mem_append_right _ (List.mem_map.mpr ⟨_, hm, rfl⟩))
  · have hthread := hs.thread
    have hheld : ∀ k ∈ s.thread.held, Function.update s.asked s.tickets w k = s.asked k := by
      intro k hk
      exact hkeep k (hposted _ (List.mem_append_right _ (List.mem_append_left _ hk)))
    change s.thread.Own _
    cases hp : s.thread with
    | got m =>
      rw [hp] at hthread hheld
      cases m with
      | own k w' => exact (hheld k (List.mem_singleton_self _)).trans hthread
      | shared k i => trivial
    | calling k function ctx =>
      rw [hp] at hthread hheld
      exact (hheld k (List.mem_singleton_self _)).trans hthread
    | _ => trivial
  · intro i k w' block tries hc
    have hticket : s.ledger.stage i = .before k := by
      change (s.callers i).stage = .before k
      have hc' : s.callers i = .posting k w' block tries := hc
      rw [hc']
      rfl
    exact (hkeep k (hl.before i k hticket).1).trans (hs.posting i k w' block tries hc)
  · intro id
    refine (hs.slots id).ask ?_ ?_
    · intro k hk
      exact hkeep k (hposted _ (List.mem_append_right _ (out_pending hk)))
    · intro i r hr
      exact hkeep r.ticket (hl.ticket (role_ticket hr)).1

theorem begin_own (hj : s.callers j = .idle) (r : Request) (heap : Bool)
    (ho : Orderly s (.call j r heap)) (hl : s.ledger.Sound) (hs : s.Own) : (s.begin j r heap).Own := by
  have hplain : ∀ w block, ((s.draw w .running).goto j (.posting s.tickets w block 0)).Own := by
    intro w block
    have hd := draw_own hs hl w .running
    refine ⟨hd.handled, hd.mail, hd.thread, ?_, ?_⟩
    · intro i k w' block' tries hc
      by_cases hij : i = j
      · subst hij
        simp only [Sys.goto, Function.update_self] at hc
        cases hc
        exact Function.update_self _ _ _
      · simp only [Sys.goto, Function.update_of_ne hij] at hc
        exact hd.posting i k w' block' tries hc
    · intro id
      rw [roles_kept (s := s.draw w .running) (by change none = (s.callers j).role id; rw [hj]; rfl)]
      exact hd.slots id
  unfold Sys.begin
  split
  · rename_i function ctx block id
    have hd : ∀ st, (s.draw (.callback function ctx) st).Own := fun st => draw_own hs hl _ st
    split
    · exact hd _
    · rename_i hcnt
      split
      · refine ⟨(hd .running).handled, (hd .running).mail, (hd .running).thread, ?_, ?_⟩
        · intro i k w' block' tries hc
          by_cases hij : i = j
          · subst hij
            simp only [Sys.goto, Function.update_self] at hc
            cases hc
          · simp only [Sys.goto, Function.update_of_ne hij] at hc
            exact (hd .running).posting i k w' block' tries hc
        · intro i
          by_cases hi : id = i
          · subst hi
            rw [roles_goto]
            have hzero : (s.wlMsg id).cnt = 0#8 := by
              have := hcnt
              bv_omega
            have hrole : (Caller.tested s.tickets id function ctx block).role id =
                some (.tested s.tickets function ctx) := if_pos rfl
            rw [hrole]
            exact ((hd .running).slots id).test ho hzero (Function.update_self _ _ _)
          · rw [roles_kept (j := j)]
            · exact (hd .running).slots i
            · change _ = (s.callers j).role i
              rw [hj]
              exact if_neg hi
      · exact hd _
  · split
    · exact hplain _ _
    · exact draw_own hs hl _ _

/-- A step of a call on the shared record `id`: the other records and their calls are not touched. -/
theorem slot_step (id : Fin 9) (hs : s.Own) {c : Caller} {x : Slot} (hhandled : s'.handled = s.handled)
    (hasked : s'.asked = s.asked) (hthread : s'.thread = s.thread)
    (hcallers : s'.callers = Function.update s.callers j c)
    (hwl : s'.wlMsg = Function.update s.wlMsg id x)
    (hmbox : ∀ k w, .own k w ∈ s'.mbox → .own k w ∈ s.mbox)
    (hmail : ∀ i, i ≠ id → s'.mail i = s.mail i)
    (hc : ∀ k w block tries, c ≠ .posting k w block tries)
    (hrole : ∀ i, i ≠ id → c.role i = (s.callers j).role i)
    (hslot : SlotOk s.asked x (Function.update (s.roles id) j (c.role id)) (s.thread.hold id)
      (s'.mail id)) : s'.Own := by
  have hroles : ∀ i, s'.roles i = Function.update (s.roles i) j (c.role i) := by
    intro i
    unfold Sys.roles
    rw [hcallers]
    exact Function.comp_update _ _ _ _
  refine ⟨by rw [hhandled, hasked]; exact hs.handled, ?_, by rw [hthread, hasked]; exact hs.thread, ?_, ?_⟩
  · intro k w hm
    rw [hasked]
    exact hs.mail k w (hmbox k w hm)
  · intro i k w block tries hi
    rw [hcallers] at hi
    rw [hasked]
    by_cases hij : i = j
    · subst hij
      rw [Function.update_self] at hi
      exact absurd hi (hc k w block tries)
    · rw [Function.update_of_ne hij] at hi
      exact hs.posting i k w block tries hi
  · intro i
    rw [hasked, hthread, hroles, hwl]
    by_cases hi : i = id
    · subst hi
      rw [Function.update_self]
      exact hslot
    · rw [Function.update_of_ne hi, hmail i hi, hrole i hi]
      have hsame : Function.update (s.roles i) j ((s.callers j).role i) = s.roles i :=
        Function.update_eq_self j (s.roles i)
      rw [hsame]
      exact hs.slots i

theorem plain_step (hs : s.Own) {c : Caller} (hhandled : s'.handled = s.handled)
    (hasked : s'.asked = s.asked) (hthread : s'.thread = s.thread)
    (hcallers : s'.callers = Function.update s.callers j c) (hwl : s'.wlMsg = s.wlMsg)
    (hmbox : ∀ k w, .own k w ∈ s'.mbox → s.asked k = w) (hmail : ∀ i, s'.mail i = s.mail i)
    (hc : ∀ k w block tries, c = .posting k w block tries → s.asked k = w)
    (hrole : ∀ i, c.role i = (s.callers j).role i) : s'.Own := by
  refine ⟨by rw [hhandled, hasked]; exact hs.handled, by rw [hasked]; exact hmbox,
    by rw [hthread, hasked]; exact hs.thread, ?_, ?_⟩
  · intro i k w block tries hi
    rw [hcallers] at hi
    rw [hasked]
    by_cases hij : i = j
    · subst hij
      rw [Function.update_self] at hi
      exact hc k w block tries hi
    · rw [Function.update_of_ne hij] at hi
      exact hs.posting i k w block tries hi
  · intro i
    have hroles : s'.roles i = s.roles i := by
      unfold Sys.roles
      rw [hcallers, Function.comp_update, hrole i]
      exact Function.update_eq_self j (s.roles i)
    rw [hasked, hthread, hroles, hwl, hmail i]
    exact hs.slots i

theorem mail_send (s : Sys) (m : Msg) (i : Fin 9) :
    (s.send m).mail i = s.mail i ++ [m].filterMap (Msg.slot i) := List.filterMap_append

theorem roles_of {c : Caller} (hc : s.callers j = c) (i : Fin 9) : s.roles i j = c.role i :=
  congrArg (Caller.role i) hc

theorem hold_loaded {p : Thread} {id : Fin 9} {k function ctx : Nat} {cnt : BitVec 8}
    (h : p.hold id = some (.loaded k function ctx cnt)) : p = .loaded k id function ctx cnt := by
  cases p with
  | loaded k' i function' ctx' cnt' =>
    simp only [Thread.hold] at h
    split at h
    · rename_i hi
      subst hi
      cases h
      rfl
    · cases h
  | got m =>
    cases m with
    | own _ _ => cases h
    | shared _ i =>
      simp only [Thread.hold] at h
      split at h
      · cases h
      · cases h
  | tookFunction _ i _ =>
    simp only [Thread.hold] at h
    split at h
    · cases h
    · cases h
  | took _ i _ _ =>
    simp only [Thread.hold] at h
    split at h
    · cases h
    · cases h
  | fetch => cases h
  | calling _ _ _ => cases h

theorem posting_own {k : Nat} {w : Work} {block : Bool} {tries : Nat} (hc : s.callers j = .posting k w block tries)
    (h : s.go j = some s') (hs : s.Own) : s'.Own := by
  have hask := hs.posting j k w block tries hc
  have hnone : ∀ i, Caller.idle.role i = (s.callers j).role i := by
    intro i
    rw [hc]
    rfl
  unfold Sys.go at h
  rw [hc] at h
  simp only [] at h
  split at h
  · cases h
    refine plain_step (j := j) hs rfl rfl rfl rfl rfl ?_ ?_ (by simp) hnone
    · intro k' w' hm
      rcases List.mem_append.mp hm with hm | hm
      · exact hs.mail k' w' hm
      · cases List.mem_singleton.mp hm
        exact hask
    · intro i
      exact (mail_send s (.own k w) i).trans (List.append_nil _)
  · split at h
    · split at h
      · cases h
        refine plain_step (j := j) hs rfl rfl rfl rfl rfl hs.mail (fun _ => rfl) ?_ hnone
        intro k' w' block' tries' hpost
        cases hpost
        exact hask
      · cases h
        exact plain_step (j := j) hs rfl rfl rfl rfl rfl hs.mail (fun _ => rfl) (by simp) hnone
    · cases h
      exact plain_step (j := j) hs rfl rfl rfl rfl rfl hs.mail (fun _ => rfl) (by simp) hnone

theorem sending_own {k : Nat} {id : Fin 9} {function ctx : Nat} {block : Bool} {tries : Nat}
    (hc : s.callers j = .sending k id function ctx block tries) (h : s.go j = some s') (ho : Orderly s (.go j))
    (hs : s.Own) : s'.Own := by
  have hj : s.roles id j = some (.sending k function ctx) := (roles_of hc id).trans (if_pos rfl)
  have hwl : s.wlMsg = Function.update s.wlMsg id (s.wlMsg id) := (Function.update_eq_self id _).symm
  unfold Sys.go at h
  simp only [Orderly] at ho
  rw [hc] at h ho
  simp only [] at h ho
  split at h
  · cases h
    refine slot_step (j := j) id hs rfl rfl rfl rfl hwl ?_ ?_ (by simp) ?_ ?_
    · intro k' w' hm
      rcases List.mem_append.mp hm with hm | hm
      · exact hm
      · cases List.mem_singleton.mp hm
    · intro i hi
      have hslot : Msg.slot i (.shared k id) = none := if_neg (Ne.symm hi)
      refine (mail_send s (.shared k id) i).trans ?_
      rw [List.filterMap_cons, hslot, List.filterMap_nil, List.append_nil]
    · intro i hi
      rw [hc]
      exact (if_neg (Ne.symm hi)).trans (if_neg (Ne.symm hi)).symm
    · have hrole : (Caller.posted k id).role id = some (.posted k) := if_pos rfl
      have hmail : ((s.send (.shared k id)).goto j (.posted k id)).mail id = s.mail id ++ [k] := by
        have hslot : Msg.slot id (.shared k id) = some k := if_pos rfl
        refine (mail_send s (.shared k id) id).trans ?_
        rw [List.filterMap_cons, hslot, List.filterMap_nil]
      rw [hrole, hmail]
      exact (hs.slots id).post hj
  · rename_i hfull
    split at h
    · rename_i hblock
      split at h
      · cases h
        refine slot_step (j := j) id hs rfl rfl rfl rfl hwl (fun _ _ hm => hm) (fun _ _ => rfl) (by simp) ?_ ?_
        · intro i hi
          rw [hc]
          exact (if_neg (Ne.symm hi)).trans (if_neg (Ne.symm hi)).symm
        · have hrole : (Caller.sending k id function ctx block (tries + 1)).role id = s.roles id j :=
            (if_pos rfl).trans hj.symm
          rw [hrole, Function.update_eq_self]
          exact hs.slots id
      · rename_i hlast
        exact absurd ((ho hblock).resolve_left hfull) hlast
    · cases h
      refine slot_step (j := j) id hs rfl rfl rfl rfl hwl (fun _ _ hm => hm) (fun _ _ => rfl) (by simp) ?_ ?_
      · intro i hi
        rw [hc]
        exact (if_neg (Ne.symm hi)).symm
      · exact (hs.slots id).fail hj

theorem go_own (h : s.go j = some s') (ho : Orderly s (.go j)) (hs : s.Own) : s'.Own := by
  cases hc : s.callers j with
  | idle =>
    unfold Sys.go at h
    rw [hc] at h
    cases h
  | posting k w block tries => exact posting_own hc h hs
  | tested k id function ctx block =>
    unfold Sys.go at h
    rw [hc] at h
    cases h
    have hj : s.roles id j = some (.tested k function ctx) := (roles_of hc id).trans (if_pos rfl)
    refine slot_step (j := j) id hs rfl rfl rfl rfl rfl (fun _ _ hm => hm) (fun _ _ => rfl) (by simp) ?_ ?_
    · intro i hi
      rw [hc]
      exact (if_neg (Ne.symm hi)).trans (if_neg (Ne.symm hi)).symm
    · have hrole : (Caller.wroteFunction k id function ctx block).role id =
          some (.wroteFunction k function ctx) := if_pos rfl
      rw [hrole]
      exact (hs.slots id).writeFunction hj
  | wroteFunction k id function ctx block =>
    unfold Sys.go at h
    rw [hc] at h
    cases h
    have hj : s.roles id j = some (.wroteFunction k function ctx) := (roles_of hc id).trans (if_pos rfl)
    refine slot_step (j := j) id hs rfl rfl rfl rfl rfl (fun _ _ hm => hm) (fun _ _ => rfl) (by simp) ?_ ?_
    · intro i hi
      rw [hc]
      exact (if_neg (Ne.symm hi)).trans (if_neg (Ne.symm hi)).symm
    · have hrole : (Caller.sending k id function ctx block 0).role id =
          some (.sending k function ctx) := if_pos rfl
      rw [hrole]
      exact (hs.slots id).writeCtx hj
  | sending k id function ctx block tries => exact sending_own hc h ho hs
  | posted k id =>
    unfold Sys.go at h
    simp only [Orderly] at ho
    rw [hc] at h ho
    cases h
    have hj : s.roles id j = some (.posted k) := (roles_of hc id).trans (if_pos rfl)
    refine slot_step (j := j) id hs rfl rfl rfl rfl (Function.update_eq_self id _).symm
      (fun _ _ hm => hm) (fun _ _ => rfl) (by simp) ?_ ?_
    · intro i hi
      rw [hc]
      exact (if_neg (Ne.symm hi)).trans (if_neg (Ne.symm hi)).symm
    · have hrole : (Caller.loaded k id (s.wlMsg id).cnt).role id =
          some (.loaded k (s.wlMsg id).cnt) := if_pos rfl
      rw [hrole]
      refine (hs.slots id).load hj ?_
      intro k' function ctx cnt hhold
      exact ho k' function ctx cnt (hold_loaded hhold)
  | loaded k id cnt =>
    unfold Sys.go at h
    rw [hc] at h
    cases h
    have hj : s.roles id j = some (.loaded k cnt) := (roles_of hc id).trans (if_pos rfl)
    refine slot_step (j := j) id hs rfl rfl rfl rfl rfl (fun _ _ hm => hm) (fun _ _ => rfl) (by simp) ?_ ?_
    · intro i hi
      rw [hc]
      exact (if_neg (Ne.symm hi)).symm
    · exact (hs.slots id).add hj

/-! ### The thread -/

/-- The thread goes on with the record `i` only. -/
theorem hold_step {p : Thread} {i : Fin 9} (hs : s.Own)
    (hother : ∀ id, i ≠ id → p.hold id = none ∧ s.thread.hold id = none)
    (hi : SlotOk s.asked (s.wlMsg i) (s.roles i) (p.hold i) (s.mail i)) (id : Fin 9) :
    SlotOk s.asked (s.wlMsg id) (s.roles id) (p.hold id) (s.mail id) := by
  by_cases hid : i = id
  · subst hid
    exact hi
  · obtain ⟨hp, ht⟩ := hother id hid
    rw [hp, ← ht]
    exact hs.slots id

/-- With a message out of the mailbox, only the record it names goes over to the thread. -/
theorem fetch_slots {m : Msg} {rest : List Msg} (hs : s.Own) (hp : s.thread = .fetch)
    (hm : s.mbox = m :: rest) (id : Fin 9) :
    SlotOk s.asked (s.wlMsg id) (s.roles id) ((Thread.got m).hold id) (rest.filterMap (Msg.slot id)) := by
  have hold : s.thread.hold id = none := by
    rw [hp]
    rfl
  have hmail : s.mail id = (m :: rest).filterMap (Msg.slot id) := by
    unfold Sys.mail
    rw [hm]
  have hslot := hs.slots id
  rw [hold, hmail] at hslot
  cases m with
  | own k w => exact hslot
  | shared k i =>
    by_cases hi : i = id
    · subst hi
      have hkind : Msg.slot i (.shared k i) = some k := if_pos rfl
      have hgot : (Thread.got (.shared k i)).hold i = some (.got k) := if_pos rfl
      rw [List.filterMap_cons, hkind] at hslot
      rw [hgot]
      exact hslot.fetch
    · have hkind : Msg.slot id (.shared k i) = none := if_neg hi
      have hgot : (Thread.got (.shared k i)).hold id = none := if_neg hi
      rw [List.filterMap_cons, hkind] at hslot
      rw [hgot]
      exact hslot

/-- What a call asked for may be done. -/
theorem handled_snoc {k : Nat} {w : Work} (hs : s.Own) (h : s.asked k = w) :
    ∀ p ∈ s.handled ++ [(k, w)], s.asked p.1 = p.2 := by
  intro p hmem
  rcases List.mem_append.mp hmem with hmem | hmem
  · exact hs.handled p hmem
  · rw [List.mem_singleton.mp hmem]
    exact h

/-- The records, with what the thread holds where it stands. -/
theorem Sys.Own.slot_held {p : Thread} (hs : s.Own) (hp : s.thread = p) (i : Fin 9) :
    SlotOk s.asked (s.wlMsg i) (s.roles i) (p.hold i) (s.mail i) := by
  subst hp
  exact hs.slots i

theorem thread_own (h : s.threadStep = some s') (ho : Orderly s .thread) (hs : s.Own) : s'.Own := by
  have hthread := hs.thread
  unfold Sys.threadStep at h
  simp only [Orderly] at ho
  cases hp : s.thread with
  | fetch =>
    rw [hp] at h
    simp only [] at h
    split at h
    · cases h
    · rename_i m rest hm
      cases h
      refine ⟨hs.handled, ?_, ?_, hs.posting, ?_⟩
      · intro k w hw
        exact hs.mail k w (by rw [hm]; exact List.mem_cons_of_mem _ hw)
      · cases m with
        | own k w => exact hs.mail k w (by rw [hm]; exact List.mem_cons_self)
        | shared k i => trivial
      · exact fetch_slots (s := s) hs hp hm
  | got m =>
    rw [hp] at h hthread
    cases m with
    | own k w =>
      cases h
      refine ⟨handled_snoc hs hthread, hs.mail, trivial, hs.posting, fun id => ?_⟩
      exact hs.slot_held hp id
    | shared k i =>
      cases h
      have hown := hs.slot_held hp i
      simp only [Thread.hold, if_true] at hown
      refine ⟨hs.handled, hs.mail, trivial, hs.posting,
        hold_step (s := s) (p := .tookFunction k i _) (i := i) hs ?_ ?_⟩
      · intro id hi
        exact ⟨if_neg hi, by rw [hp]; exact if_neg hi⟩
      · simp only [Thread.hold, if_true]
        exact hown.takeFunction
  | tookFunction k i function =>
    rw [hp] at h
    cases h
    have hown := hs.slot_held hp i
    simp only [Thread.hold, if_true] at hown
    refine ⟨hs.handled, hs.mail, trivial, hs.posting,
      hold_step (s := s) (p := .took k i function _) (i := i) hs ?_ ?_⟩
    · intro id hi
      exact ⟨if_neg hi, by rw [hp]; exact if_neg hi⟩
    · simp only [Thread.hold, if_true]
      exact hown.takeCtx
  | took k i function ctx =>
    rw [hp] at h ho
    cases h
    have hown := hs.slot_held hp i
    simp only [Thread.hold, if_true] at hown
    refine ⟨hs.handled, hs.mail, trivial, hs.posting,
      hold_step (s := s) (p := .loaded k i function ctx _) (i := i) hs ?_ ?_⟩
    · intro id hi
      exact ⟨if_neg hi, by rw [hp]; exact if_neg hi⟩
    · simp only [Thread.hold, if_true]
      exact hown.read ho
  | loaded k i function ctx cnt =>
    rw [hp] at h
    cases h
    have hown := hs.slot_held hp i
    simp only [Thread.hold, if_true] at hown
    refine ⟨hs.handled, hs.mail, hown.lower.2, hs.posting, ?_⟩
    intro id
    change SlotOk s.asked (Function.update s.wlMsg i { s.wlMsg i with cnt := cnt - 1#8 } id) (s.roles id)
      none (s.mail id)
    by_cases hi : id = i
    · subst hi
      rw [Function.update_self]
      exact hown.lower.1
    · have hslot := hs.slot_held hp id
      simp only [Thread.hold, if_neg (Ne.symm hi)] at hslot
      rw [Function.update_of_ne hi]
      exact hslot
  | calling k function ctx =>
    rw [hp] at h hthread
    cases h
    refine ⟨handled_snoc hs hthread, hs.mail, trivial, hs.posting, fun id => ?_⟩
    exact hs.slot_held hp id

/-- Every orderly step keeps the messages with their calls. -/
theorem step_own (h : Ordered s a s') (hl : s.ledger.Sound) (hs : s.Own) : s'.Own := by
  obtain ⟨hstep, ho⟩ := h
  cases a with
  | call j r heap =>
    simp only [Sys.step] at hstep
    split at hstep
    · rename_i hj
      cases hstep
      exact begin_own hj r heap ho hl hs
    · cases hstep
  | go j => exact go_own hstep ho hs
  | thread => exact thread_own hstep ho hs

end Own

end Task
end Air101
