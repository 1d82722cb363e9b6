import Air101.Task.Mailbox

/-!
# Task.Slot

One shared record of `wl_msg`: the call that is on it, the messages that point to it and what
`task_thread` has read of it.

`SlotOk` keeps `cnt` as the number of messages out, less one while a call has posted and not yet added
it, and keeps the record as the message that is out needs it. The lemmas say that each step on the record
keeps it if at most one call is on the record and no two changes of `cnt` overlap.
-/

namespace Air101
namespace Task

/-- What a caller does on a shared record. -/
inductive Role where
  | tested (ticket function ctx : Nat)
  | wroteFunction (ticket function ctx : Nat)
  | sending (ticket function ctx : Nat)
  | posted (ticket : Nat)
  | loaded (ticket : Nat) (cnt : BitVec 8)

def Role.ticket : Role → Nat
  | .tested k _ _ => k
  | .wroteFunction k _ _ => k
  | .sending k _ _ => k
  | .posted k => k
  | .loaded k _ => k

/-- What the thread has read of a shared record whose message it has in hand. -/
inductive Hold where
  | got (ticket : Nat)
  | tookFunction (ticket function : Nat)
  | took (ticket function ctx : Nat)
  | loaded (ticket function ctx : Nat) (cnt : BitVec 8)

def Hold.ticket : Hold → Nat
  | .got k => k
  | .tookFunction k _ => k
  | .took k _ _ => k
  | .loaded k _ _ _ => k

/-- The tickets of the messages out: in the thread's hand with `cnt` not yet lowered, and in the
mailbox. -/
def out (hold : Option Hold) (mail : List Nat) : List Nat := hold.toList.map Hold.ticket ++ mail

/-- What a call on the record can rely on. In front of its post no message is out. -/
def Role.Fits (asked : Nat → Work) (x : Slot) (ks : List Nat) : Role → Prop
  | .tested k function ctx => ks = [] ∧ x.cnt = 0#8 ∧ asked k = .callback function ctx
  | .wroteFunction k function ctx =>
    ks = [] ∧ x.cnt = 0#8 ∧ asked k = .callback function ctx ∧ x.function = function
  | .sending k function ctx =>
    ks = [] ∧ x.cnt = 0#8 ∧ asked k = .callback function ctx ∧ x.function = function ∧ x.ctx = ctx
  | .posted _ => x.cnt + 1#8 = BitVec.ofNat 8 ks.length
  | .loaded _ cnt => x.cnt + 1#8 = BitVec.ofNat 8 ks.length ∧ cnt = x.cnt

/-- What the thread has read is what the record holds. -/
def Hold.Fits (x : Slot) (roles : Nat → Option Role) : Hold → Prop
  | .got _ => True
  | .tookFunction _ function => function = x.function
  | .took _ function ctx => function = x.function ∧ ctx = x.ctx
  | .loaded _ function ctx cnt =>
    function = x.function ∧ ctx = x.ctx ∧ cnt = x.cnt ∧ ∀ j k c, roles j ≠ some (.loaded k c)

/-- The record, the calls on it, and the messages that point to it. -/
structure SlotOk (asked : Nat → Work) (x : Slot) (roles : Nat → Option Role) (hold : Option Hold)
    (mail : List Nat) : Prop where
  uniq : ∀ i j r q, roles i = some r → roles j = some q → i = j
  small : (out hold mail).length ≤ 1
  free : (∀ j, roles j = none) → x.cnt = BitVec.ofNat 8 (out hold mail).length
  fits : ∀ j r, roles j = some r → r.Fits asked x (out hold mail)
  content : ∀ k ∈ out hold mail, asked k = .callback x.function x.ctx
  holds : ∀ h, hold = some h → h.Fits x roles

section Slot

variable {asked asked' : Nat → Work} {x : Slot} {roles : Nat → Option Role} {hold : Option Hold}
variable {mail : List Nat} {j k function ctx : Nat} {cnt : BitVec 8}

theorem hold_none (h : out hold mail = []) : hold = none ∧ mail = [] := by
  cases hold with
  | none => exact ⟨rfl, h⟩
  | some y => cases h

theorem SlotOk.uniq_update (h : SlotOk asked x roles hold mail) {r : Role} (hj : roles j = some r)
    (new : Option Role) (a b : Nat) (p q : Role) (ha : Function.update roles j new a = some p)
    (hb : Function.update roles j new b = some q) : a = b := by
  have hold : ∀ c w, Function.update roles j new c = some w → c = j := by
    intro c w hc
    by_cases hcj : c = j
    · exact hcj
    · rw [Function.update_of_ne hcj] at hc
      exact h.uniq c j w r hc hj
  rw [hold a p ha, hold b q hb]

theorem SlotOk.only (h : SlotOk asked x roles hold mail) {r : Role} (hj : roles j = some r)
    (new : Option Role) {a : Nat} {p : Role} (ha : Function.update roles j new a = some p) :
    a = j ∧ new = some p := by
  by_cases haj : a = j
  · subst haj
    rw [Function.update_self] at ha
    exact ⟨rfl, ha⟩
  · rw [Function.update_of_ne haj] at ha
    exact absurd (h.uniq a j p r ha hj) haj

theorem SlotOk.ask (h : SlotOk asked x roles hold mail)
    (hout : ∀ k ∈ out hold mail, asked' k = asked k)
    (hroles : ∀ j r, roles j = some r → asked' r.ticket = asked r.ticket) :
    SlotOk asked' x roles hold mail := by
  refine ⟨h.uniq, h.small, h.free, ?_, ?_, h.holds⟩
  · intro j r hj
    have hfit := h.fits j r hj
    have hsame := hroles j r hj
    cases r with
    | tested k function ctx => exact ⟨hfit.1, hfit.2.1, hsame.trans hfit.2.2⟩
    | wroteFunction k function ctx => exact ⟨hfit.1, hfit.2.1, hsame.trans hfit.2.2.1, hfit.2.2.2⟩
    | sending k function ctx => exact ⟨hfit.1, hfit.2.1, hsame.trans hfit.2.2.1, hfit.2.2.2⟩
    | posted k => exact hfit
    | loaded k cnt => exact hfit
  · intro k hk
    rw [hout k hk]
    exact h.content k hk

/-! ## The steps of a call -/

theorem SlotOk.test (h : SlotOk asked x roles hold mail) (hfree : ∀ i, roles i = none)
    (hcnt : x.cnt = 0#8) (hask : asked k = .callback function ctx) :
    SlotOk asked x (Function.update roles j (some (.tested k function ctx))) hold mail := by
  have hnone : out hold mail = [] := by
    have hlen := h.free hfree
    rw [hcnt] at hlen
    have hsmall := h.small
    have hnat := congrArg BitVec.toNat hlen
    rw [BitVec.toNat_ofNat, BitVec.toNat_ofNat] at hnat
    exact List.eq_nil_of_length_eq_zero (by omega)
  obtain ⟨rfl, rfl⟩ := hold_none hnone
  have honly : ∀ a p, Function.update roles j (some (.tested k function ctx)) a = some p →
      a = j ∧ p = .tested k function ctx := by
    intro a p ha
    by_cases haj : a = j
    · subst haj
      rw [Function.update_self] at ha
      cases ha
      exact ⟨rfl, rfl⟩
    · rw [Function.update_of_ne haj, hfree a] at ha
      cases ha
  refine ⟨?_, h.small, ?_, ?_, fun _ h => (by cases h), fun _ h => (by cases h)⟩
  · intro a b p q ha hb
    rw [(honly a p ha).1, (honly b q hb).1]
  · intro hall
    have := hall j
    rw [Function.update_self] at this
    cases this
  · intro a p ha
    rw [(honly a p ha).2]
    exact ⟨rfl, hcnt, hask⟩

theorem SlotOk.writeFunction (h : SlotOk asked x roles hold mail)
    (hj : roles j = some (.tested k function ctx)) :
    SlotOk asked { x with function := function }
      (Function.update roles j (some (.wroteFunction k function ctx))) hold mail := by
  obtain ⟨hnone, hcnt, hask⟩ := h.fits j _ hj
  obtain ⟨rfl, rfl⟩ := hold_none hnone
  refine ⟨h.uniq_update hj _, h.small, ?_, ?_, fun _ h => (by cases h), fun _ h => (by cases h)⟩
  · intro hall
    have := hall j
    rw [Function.update_self] at this
    cases this
  · intro a p ha
    obtain ⟨_, hp⟩ := h.only hj _ ha
    cases hp
    exact ⟨rfl, hcnt, hask, rfl⟩

theorem SlotOk.writeCtx (h : SlotOk asked x roles hold mail)
    (hj : roles j = some (.wroteFunction k function ctx)) :
    SlotOk asked { x with ctx := ctx } (Function.update roles j (some (.sending k function ctx)))
      hold mail := by
  obtain ⟨hnone, hcnt, hask, hfun⟩ := h.fits j _ hj
  obtain ⟨rfl, rfl⟩ := hold_none hnone
  refine ⟨h.uniq_update hj _, h.small, ?_, ?_, fun _ h => (by cases h), fun _ h => (by cases h)⟩
  · intro hall
    have := hall j
    rw [Function.update_self] at this
    cases this
  · intro a p ha
    obtain ⟨_, hp⟩ := h.only hj _ ha
    cases hp
    exact ⟨rfl, hcnt, hask, hfun, rfl⟩

theorem SlotOk.post (h : SlotOk asked x roles hold mail) (hj : roles j = some (.sending k function ctx)) :
    SlotOk asked x (Function.update roles j (some (.posted k))) hold (mail ++ [k]) := by
  obtain ⟨hnone, hcnt, hask, hfun, hctx⟩ := h.fits j _ hj
  obtain ⟨rfl, rfl⟩ := hold_none hnone
  refine ⟨h.uniq_update hj _, Nat.le_refl 1, ?_, ?_, ?_, fun _ h => (by cases h)⟩
  · intro hall
    have := hall j
    rw [Function.update_self] at this
    cases this
  · intro a p ha
    obtain ⟨_, hp⟩ := h.only hj _ ha
    cases hp
    change x.cnt + 1#8 = 1#8
    rw [hcnt]
    rfl
  · intro c hc
    obtain rfl : c = k := List.mem_singleton.mp hc
    rw [hask, hfun, hctx]

theorem SlotOk.fail (h : SlotOk asked x roles hold mail) (hj : roles j = some (.sending k function ctx)) :
    SlotOk asked x (Function.update roles j none) hold mail := by
  obtain ⟨hnone, hcnt, _⟩ := h.fits j _ hj
  obtain ⟨rfl, rfl⟩ := hold_none hnone
  refine ⟨h.uniq_update hj _, h.small, fun _ => hcnt, ?_, fun _ h => (by cases h), fun _ h => (by cases h)⟩
  intro a p ha
  obtain ⟨_, hp⟩ := h.only hj _ ha
  cases hp

theorem SlotOk.load (h : SlotOk asked x roles hold mail) (hj : roles j = some (.posted k))
    (hread : ∀ k function ctx cnt, hold ≠ some (.loaded k function ctx cnt)) :
    SlotOk asked x (Function.update roles j (some (.loaded k x.cnt))) hold mail := by
  have hfit := h.fits j _ hj
  refine ⟨h.uniq_update hj _, h.small, ?_, ?_, h.content, ?_⟩
  · intro hall
    have := hall j
    rw [Function.update_self] at this
    cases this
  · intro a p ha
    obtain ⟨_, hp⟩ := h.only hj _ ha
    cases hp
    exact ⟨hfit, rfl⟩
  · intro y hy
    have hold := h.holds y hy
    cases y with
    | got k => trivial
    | tookFunction k function => exact hold
    | took k function ctx => exact hold
    | loaded k function ctx cnt => exact absurd hy (hread k function ctx cnt)

theorem SlotOk.add (h : SlotOk asked x roles hold mail) (hj : roles j = some (.loaded k cnt)) :
    SlotOk asked { x with cnt := cnt + 1#8 } (Function.update roles j none) hold mail := by
  obtain ⟨hlen, rfl⟩ := h.fits j _ hj
  refine ⟨h.uniq_update hj _, h.small, fun _ => hlen, ?_, h.content, ?_⟩
  · intro a p ha
    obtain ⟨_, hp⟩ := h.only hj _ ha
    cases hp
  · intro y hy
    have hold := h.holds y hy
    cases y with
    | got k => trivial
    | tookFunction k function => exact hold
    | took k function ctx => exact hold
    | loaded k' function ctx cnt => exact absurd hj (hold.2.2.2 j k x.cnt)

/-! ## The steps of the thread -/

theorem SlotOk.fetch (h : SlotOk asked x roles none (k :: mail)) :
    SlotOk asked x roles (some (.got k)) mail := by
  refine ⟨h.uniq, h.small, h.free, h.fits, h.content, ?_⟩
  intro y hy
  cases hy
  trivial

theorem SlotOk.takeFunction (h : SlotOk asked x roles (some (.got k)) mail) :
    SlotOk asked x roles (some (.tookFunction k x.function)) mail := by
  refine ⟨h.uniq, h.small, h.free, h.fits, h.content, ?_⟩
  intro y hy
  cases hy
  rfl

theorem SlotOk.takeCtx (h : SlotOk asked x roles (some (.tookFunction k function)) mail) :
    SlotOk asked x roles (some (.took k function x.ctx)) mail := by
  have hold := h.holds _ rfl
  refine ⟨h.uniq, h.small, h.free, h.fits, h.content, ?_⟩
  intro y hy
  cases hy
  exact ⟨hold, rfl⟩

theorem SlotOk.read (h : SlotOk asked x roles (some (.took k function ctx)) mail)
    (hroles : ∀ j k c, roles j ≠ some (.loaded k c)) :
    SlotOk asked x roles (some (.loaded k function ctx x.cnt)) mail := by
  have hold := h.holds _ rfl
  refine ⟨h.uniq, h.small, h.free, h.fits, h.content, ?_⟩
  intro y hy
  cases hy
  exact ⟨hold.1, hold.2, rfl, hroles⟩

theorem SlotOk.lower (h : SlotOk asked x roles (some (.loaded k function ctx cnt)) mail) :
    SlotOk asked { x with cnt := cnt - 1#8 } roles none mail ∧ asked k = .callback function ctx := by
  obtain ⟨rfl, rfl, rfl, hroles⟩ := h.holds _ rfl
  have hmail : mail = [] := by
    have := h.small
    simp only [out, Option.toList_some, List.map_cons, List.map_nil, List.length_append,
      List.length_singleton] at this
    exact List.eq_nil_of_length_eq_zero (by omega)
  subst hmail
  refine ⟨⟨h.uniq, Nat.zero_le 1, ?_, ?_, fun _ h => (by cases h), fun _ h => (by cases h)⟩,
    h.content k List.mem_cons_self⟩
  · intro hall
    have hone : x.cnt = 1#8 := h.free hall
    simp only [hone]
    rfl
  · intro a p ha
    have hfit := h.fits a p ha
    cases p with
    | tested k' function ctx => cases hfit.1
    | wroteFunction k' function ctx => cases hfit.1
    | sending k' function ctx => cases hfit.1
    | posted k' =>
      change x.cnt - 1#8 + 1#8 = 0#8
      have hone : x.cnt + 1#8 = 1#8 := hfit
      bv_omega
    | loaded k' cnt => exact absurd ha (hroles a k' cnt)

end Slot

end Task
end Air101
