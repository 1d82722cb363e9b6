import Air101.Storage.Pool
import Mathlib.Data.List.FinRange

/-!
# Dma.Channels

The channels of the DMA controller (`src/platform/drivers/dma/wm_dma.c`), which the drivers share.

Each call is one step. The source takes no lock in `tls_dma_request` or `tls_dma_free`, so the runs are those in
which no call interrupts another one.

* `request_spec`, `free_spec`: what a request and a release do to the channels.
* `Controller.Shows s p`: the tables and the registers hold the granted channels `p`.
* `start_ungranted`: what a start of a channel does that nobody was granted.
* `channels_refine`: every run is one of a pool, and the clock of the controller runs exactly while a
  channel is granted.
* `channel_exclusive`: a channel goes to one driver at a time.
-/

namespace Air101
namespace Dma

open Storage Storage.Pool

/-- `TLS_DMA_FLAGS_CHANNEL_VALID` -/
def flagsChannelValid : BitVec 8 := 1#8 <<< 7

/-- `struct tls_dma_descriptor` -/
structure Descriptor where
  srcAddr : BitVec 32
  destAddr : BitVec 32
  dmaCtrl : BitVec 32

/-- The registers of a channel. -/
structure Regs where
  srcAddr : BitVec 32
  destAddr : BitVec 32
  mode : BitVec 32
  ctrl : BitVec 32
  /-- `DMA_CHNL_CTRL_CHNL_ON` of `DMA_CHNLCTRL_REG` -/
  chnlOn : Bool

structure Controller where
  channels : Fin 8 → BitVec 8
  /-- `dma_used_bit` -/
  usedBit : BitVec 16
  /-- the bit of `TLS_PERIPHERAL_TYPE_DMA` among the peripheral clocks -/
  clock : Bool
  regs : Fin 8 → Regs

/-- `1 << ch` -/
def chBit (ch : Fin 8) : BitVec 16 := 1#16 <<< ch.val

def Controller.valid (s : Controller) (ch : Fin 8) : Bool := s.channels ch &&& flagsChannelValid != 0#8

/-- The channel that `tls_dma_request` chooses: the one asked for, if there is such a channel and it is
free, and the first free one otherwise. -/
def Controller.freeCh (s : Controller) (ch : Nat) : Option (Fin 8) :=
  if h : ch < 8 then
    if s.valid ⟨ch, h⟩ then (List.finRange 8).find? fun i => !s.valid i else some ⟨ch, h⟩
  else (List.finRange 8).find? fun i => !s.valid i

def Controller.take (s : Controller) (ch : Fin 8) (flags : BitVec 8) : Controller where
  clock := if s.usedBit = 0#16 then true else s.clock
  usedBit := s.usedBit ||| chBit ch
  channels := Function.update s.channels ch (flags ||| flagsChannelValid)
  regs := Function.update s.regs ch { s.regs ch with mode := flags.setWidth 32 }

/-- `tls_dma_request`: the channel, or `0xFF`. -/
def Controller.request (s : Controller) (ch : Nat) (flags : BitVec 8) : Nat × Controller :=
  match s.freeCh ch with
  | none => (0xFF, s)
  | some c => (c.val, s.take c flags)

/-- `tls_dma_stop`, which waits until the channel is off. -/
def Controller.stop (s : Controller) (ch : Fin 8) : Controller :=
  { s with regs := Function.update s.regs ch { s.regs ch with chnlOn := false } }

/-- `tls_dma_free`, of a channel below 8; it does nothing for other numbers. -/
def Controller.free (s : Controller) (ch : Fin 8) : Controller :=
  let s := s.stop ch
  let usedBit := s.usedBit &&& ~~~chBit ch
  { channels := Function.update s.channels ch 0#8
    usedBit := usedBit
    clock := if usedBit = 0#16 then false else s.clock
    regs := Function.update s.regs ch
      { s.regs ch with srcAddr := 0#32, destAddr := 0#32, mode := 0#32, ctrl := 0#32 } }

/-- `tls_dma_start`, of a channel below 8. -/
def Controller.start (s : Controller) (ch : Fin 8) (desc : Descriptor) (autoReload : Bool) : Controller :=
  { s with
    usedBit := if s.usedBit &&& chBit ch = 0#16 then s.usedBit ||| chBit ch else s.usedBit
    regs := Function.update s.regs ch
      { s.regs ch with
        srcAddr := desc.srcAddr
        destAddr := desc.destAddr
        ctrl := ((desc.dmaCtrl &&& 0x7fffff#32) <<< 1) ||| if autoReload then 1#32 else 0#32
        chnlOn := true } }

/-! ## The tables -/

variable {s : Controller} {ch : Fin 8}

theorem flags_valid (flags : BitVec 8) :
    (flags ||| flagsChannelValid) &&& flagsChannelValid ≠ 0#8 := by
  intro h
  have hbit := congrArg (fun x => x.getLsbD 7) h
  simp [flagsChannelValid] at hbit

theorem getLsbD_chBit (ch : Fin 8) (k : Nat) : (chBit ch).getLsbD k = decide (ch.val = k) := by
  have hch : ch.val < 16 := by omega
  have htwo : chBit ch = BitVec.twoPow 16 ch.val := rfl
  rw [htwo, BitVec.getLsbD_twoPow]
  simp [hch]

theorem getLsbD_free (u : BitVec 16) (ch : Fin 8) (k : Nat) :
    (u &&& ~~~chBit ch).getLsbD k = (u.getLsbD k && !decide (ch.val = k)) := by
  rw [BitVec.getLsbD_and, BitVec.getLsbD_not, getLsbD_chBit]
  by_cases hk : k < 16
  · simp [hk]
  · simp [hk, BitVec.getLsbD_of_ge u k (Nat.not_lt.mp hk)]

theorem eq_zero_iff (u : BitVec 16) : u = 0#16 ↔ ∀ k, u.getLsbD k = false := by
  constructor
  · rintro rfl k
    exact BitVec.getLsbD_zero
  · intro h
    exact BitVec.eq_of_getLsbD_eq fun k _ => by rw [h k, BitVec.getLsbD_zero]

theorem find_free {c : Fin 8} (h : ((List.finRange 8).find? fun i => !s.valid i) = some c) :
    s.valid c = false := by
  have hnot := List.find?_some h
  simpa using hnot

theorem find_none (h : ((List.finRange 8).find? fun i => !s.valid i) = none) (c : Fin 8) :
    s.valid c = true := by
  have hnot := List.find?_eq_none.mp h c (List.mem_finRange c)
  simpa using hnot

theorem freeCh_some {n : Nat} {c : Fin 8} (h : s.freeCh n = some c) :
    s.valid c = false ∧ ∀ d : Fin 8, d.val = n → s.valid d = false → c = d := by
  rw [Controller.freeCh] at h
  split at h
  case isTrue hn =>
    split at h
    case isTrue hvalid =>
      refine ⟨find_free h, ?_⟩
      rintro d rfl hfree
      exact absurd hvalid (by simp [hfree])
    case isFalse hvalid =>
      cases h
      refine ⟨by simpa using hvalid, ?_⟩
      rintro d rfl _
      rfl
  case isFalse hn =>
    refine ⟨find_free h, ?_⟩
    rintro d rfl _
    exact absurd d.isLt hn

theorem freeCh_none {n : Nat} (h : s.freeCh n = none) (c : Fin 8) : s.valid c = true := by
  rw [Controller.freeCh] at h
  split at h
  case isTrue hn =>
    split at h
    case isTrue => exact find_none h c
    case isFalse => cases h
  case isFalse => exact find_none h c

/-- A request gets a channel that is free, and the one it asks for if that is free; it is refused only
while none is free. -/
theorem request_spec (s : Controller) (n : Nat) (flags : BitVec 8) :
    (∃ c : Fin 8, s.request n flags = (c.val, s.take c flags) ∧ s.valid c = false ∧
      ∀ d : Fin 8, d.val = n → s.valid d = false → c = d) ∨
    (s.request n flags = (0xFF, s) ∧ ∀ c, s.valid c = true) := by
  cases h : s.freeCh n with
  | some c => exact .inl ⟨c, by rw [Controller.request, h], freeCh_some h⟩
  | none => exact .inr ⟨by rw [Controller.request, h], freeCh_none h⟩

/-! ## The pool of the channels -/

/-- The channels with the flags for which they are granted. -/
abbrev Grants := Fin 8 → Option (BitVec 8)

/-- A channel that is not granted has its registers cleared. -/
structure Controller.Shows (s : Controller) (p : Grants) : Prop where
  valid : ∀ c, s.valid c = true ↔ p c ≠ none
  used : ∀ k, s.usedBit.getLsbD k = true ↔ ∃ c : Fin 8, c.val = k ∧ p c ≠ none
  clock : s.clock = true ↔ ∃ c, p c ≠ none
  mode : ∀ c flags, p c = some flags → (s.regs c).mode = flags.setWidth 32
  quiet : ∀ c, p c = none → s.regs c = ⟨0#32, 0#32, 0#32, 0#32, false⟩

variable {p : Grants}

theorem Controller.Shows.unused (h : s.Shows p) : s.usedBit = 0#16 ↔ ∀ c, p c = none := by
  rw [eq_zero_iff]
  constructor
  · intro hzero c
    by_contra hc
    have hbit := (h.used c.val).mpr ⟨c, rfl, hc⟩
    rw [hzero] at hbit
    cases hbit
  · intro hnone k
    rw [Bool.eq_false_iff]
    intro hbit
    obtain ⟨c, -, hc⟩ := (h.used k).mp hbit
    exact hc (hnone c)

theorem take_shows (h : s.Shows p) (hfree : p ch = none) (flags : BitVec 8) :
    (s.take ch flags).Shows (Function.update p ch (some flags)) where
  valid c := by
    rcases eq_or_ne c ch with rfl | hne
    · simpa [Controller.valid, Controller.take] using flags_valid flags
    · have := h.valid c
      simpa [Controller.valid, Controller.take, Function.update_of_ne hne] using this
  used k := by
    rw [Controller.take, BitVec.getLsbD_or, getLsbD_chBit, Bool.or_eq_true, decide_eq_true_eq, h.used]
    constructor
    · rintro (⟨c, rfl, hc⟩ | rfl)
      · have hne : c ≠ ch := by
          rintro rfl
          exact hc hfree
        exact ⟨c, rfl, by rwa [Function.update_of_ne hne]⟩
      · exact ⟨ch, rfl, by simp⟩
    · rintro ⟨c, rfl, hc⟩
      rcases eq_or_ne c ch with rfl | hne
      · exact .inr rfl
      · rw [Function.update_of_ne hne] at hc
        exact .inl ⟨c, rfl, hc⟩
  clock := by
    have hsome : ∃ c, Function.update p ch (some flags) c ≠ none := ⟨ch, by simp⟩
    refine iff_of_true ?_ hsome
    rw [Controller.take]
    simp only
    split
    · rfl
    · rename_i hused
      rw [h.unused, not_forall] at hused
      exact h.clock.mpr hused
  mode c m hm := by
    rcases eq_or_ne c ch with rfl | hne
    · rw [Function.update_self] at hm
      cases hm
      simp [Controller.take]
    · rw [Function.update_of_ne hne] at hm
      simpa [Controller.take, Function.update_of_ne hne] using h.mode c m hm
  quiet c hc := by
    rcases eq_or_ne c ch with rfl | hne
    · rw [Function.update_self] at hc
      cases hc
    · rw [Function.update_of_ne hne] at hc
      simpa [Controller.take, Function.update_of_ne hne] using h.quiet c hc

theorem free_used (h : s.Shows p) (ch : Fin 8) (k : Nat) :
    (s.usedBit &&& ~~~chBit ch).getLsbD k = true ↔
      ∃ c : Fin 8, c.val = k ∧ Function.update p ch none c ≠ none := by
  rw [getLsbD_free, Bool.and_eq_true, h.used, Bool.not_eq_true', decide_eq_false_iff_not]
  constructor
  · rintro ⟨⟨c, rfl, hc⟩, hother⟩
    exact ⟨c, rfl, released_iff.mpr ⟨fun heq => hother (congrArg Fin.val heq.symm), hc⟩⟩
  · rintro ⟨c, rfl, hc⟩
    obtain ⟨hne, hc⟩ := released_iff.mp hc
    exact ⟨⟨c, rfl, hc⟩, fun heq => hne (Fin.ext heq.symm)⟩

theorem free_clock (h : s.Shows p) (ch : Fin 8) :
    (s.free ch).clock = true ↔ ∃ c, Function.update p ch none c ≠ none := by
  have hclock : (s.free ch).clock =
      if s.usedBit &&& ~~~chBit ch = 0#16 then false else s.clock := rfl
  rw [hclock]
  by_cases hzero : s.usedBit &&& ~~~chBit ch = 0#16
  · rw [if_pos hzero]
    rw [eq_zero_iff] at hzero
    refine iff_of_false (by decide) ?_
    rintro ⟨c, hc⟩
    have hbit := (free_used h ch c.val).mpr ⟨c, rfl, hc⟩
    rw [hzero] at hbit
    cases hbit
  · rw [if_neg hzero]
    rw [eq_zero_iff, not_forall] at hzero
    obtain ⟨k, hk⟩ := hzero
    rw [Bool.not_eq_false] at hk
    obtain ⟨c, -, hc⟩ := (free_used h ch k).mp hk
    exact iff_of_true (h.clock.mpr ⟨c, (released_iff.mp hc).2⟩) ⟨c, hc⟩

theorem free_shows (h : s.Shows p) (ch : Fin 8) :
    (s.free ch).Shows (Function.update p ch none) where
  valid c := by
    rcases eq_or_ne c ch with rfl | hne
    · simp [Controller.valid, Controller.free, Controller.stop]
    · have := h.valid c
      simpa [Controller.valid, Controller.free, Controller.stop, Function.update_of_ne hne] using this
  used := free_used h ch
  clock := free_clock h ch
  mode c m hm := by
    obtain ⟨hne, -⟩ := released_iff.mp (by rw [hm]; exact Option.some_ne_none m)
    rw [Function.update_of_ne hne] at hm
    simpa [Controller.free, Controller.stop, Function.update_of_ne hne] using h.mode c m hm
  quiet c hc := by
    rcases eq_or_ne c ch with rfl | hne
    · simp [Controller.free, Controller.stop]
    · rw [Function.update_of_ne hne] at hc
      simpa [Controller.free, Controller.stop, Function.update_of_ne hne] using h.quiet c hc

/-- The registers of a channel change, without its mode; those of a channel that is not granted do
not. -/
theorem regs_shows (h : s.Shows p) {r : Regs} (hmode : r.mode = (s.regs ch).mode)
    (hquiet : p ch = none → r = s.regs ch) :
    ({ s with regs := Function.update s.regs ch r } : Controller).Shows p where
  valid := h.valid
  used := h.used
  clock := h.clock
  mode c flags hc := by
    rcases eq_or_ne c ch with rfl | hne
    · simpa [hmode] using h.mode c flags hc
    · simpa [Function.update_of_ne hne] using h.mode c flags hc
  quiet c hc := by
    rcases eq_or_ne c ch with rfl | hne
    · simpa [hquiet hc] using h.quiet c hc
    · simpa [Function.update_of_ne hne] using h.quiet c hc

theorem stop_shows (h : s.Shows p) (ch : Fin 8) : (s.stop ch).Shows p := by
  refine regs_shows h rfl fun hnone => ?_
  rw [h.quiet ch hnone]

theorem start_shows (h : s.Shows p) (hgranted : p ch ≠ none) (desc : Descriptor)
    (autoReload : Bool) : (s.start ch desc autoReload).Shows p := by
  have hbit : ¬ s.usedBit &&& chBit ch = 0#16 := by
    rw [eq_zero_iff, not_forall]
    refine ⟨ch.val, ?_⟩
    rw [BitVec.getLsbD_and, getLsbD_chBit, (h.used ch.val).mpr ⟨ch, rfl, hgranted⟩]
    simp
  rw [Controller.start, if_neg hbit]
  exact regs_shows h rfl fun hnone => absurd hnone hgranted

/-- Why a driver may start only a channel that is granted: after a start while none is, the clock stays
off even for the next channel that is. -/
theorem start_ungranted (h : s.Shows p) (hnone : ∀ c, p c = none) (ch : Fin 8) (desc : Descriptor)
    (autoReload : Bool) (n : Nat) (flags : BitVec 8) :
    ((s.start ch desc autoReload).request n flags).2.clock = false := by
  have hclock : s.clock = false := by
    rw [Bool.eq_false_iff]
    intro htrue
    obtain ⟨c, hc⟩ := h.clock.mp htrue
    exact hc (hnone c)
  have hused : (s.start ch desc autoReload).usedBit ≠ 0#16 := by
    have hzero := h.unused.mpr hnone
    intro h0
    have hbit := (eq_zero_iff _).mp h0 ch.val
    simp [Controller.start, hzero, getLsbD_chBit] at hbit
  rcases request_spec (s.start ch desc autoReload) n flags with ⟨c, hreq, -⟩ | ⟨hreq, -⟩
  · rw [hreq, Controller.take]
    simp only
    rw [if_neg hused]
    exact hclock
  · rw [hreq]
    exact hclock

/-! ## Runs -/

inductive Action where
  | request (ch : Nat) (flags : BitVec 8)
  | free (ch : Fin 8)
  | start (ch : Fin 8) (desc : Descriptor) (autoReload : Bool)
  | stop (ch : Fin 8)
  /-- the controller is at the end of a transfer -/
  | done (ch : Fin 8)

/-- A call of a driver, with what its answer says. A driver starts a channel that is granted. -/
def Controller.step (s : Controller) : Action → Option (Event (Fin 8) (BitVec 8) × Controller)
  | .request ch flags =>
    let r := s.request ch flags
    some (if h : r.1 < 8 then .grant ⟨r.1, h⟩ flags else .refuse, r.2)
  | .free ch => some (.release ch, s.free ch)
  | .start ch desc autoReload =>
    if s.valid ch then some (.use ch, s.start ch desc autoReload) else none
  | .stop ch => some (.silent, s.stop ch)
  | .done ch =>
    some (.silent, { s with regs := Function.update s.regs ch { s.regs ch with chnlOn := false } })

def init : Controller where
  channels := fun _ => 0#8
  usedBit := 0#16
  clock := false
  regs := fun _ => ⟨0#32, 0#32, 0#32, 0#32, false⟩

theorem init_shows : init.Shows fun _ => none where
  valid c := by simp [Controller.valid, init]
  used k := by simp [init]
  clock := by simp [init]
  mode c flags hc := by cases hc
  quiet c hc := rfl

/-- A step of the drivers is a step of the pool. -/
theorem step_pool (h : s.Shows p) {act : Action} {e : Event (Fin 8) (BitVec 8)} {s' : Controller}
    (hs : s.step act = some (e, s')) : ∃ p', Step p e p' ∧ s'.Shows p' := by
  cases act with
  | request n flags =>
    rw [Controller.step] at hs
    rcases request_spec s n flags with ⟨c, hreq, hfree, -⟩ | ⟨hreq, hfull⟩
    · have hnone : p c = none := by
        by_contra hc
        exact absurd ((h.valid c).mpr hc) (by simp [hfree])
      simp only [hreq, c.isLt, dif_pos] at hs
      cases hs
      exact ⟨_, .grant flags hnone, take_shows h hnone flags⟩
    · have hlarge : ¬ 0xFF < 8 := by decide
      simp only [hreq, hlarge, dif_neg, not_false_eq_true] at hs
      cases hs
      exact ⟨p, .refuse fun c => (h.valid c).mp (hfull c), h⟩
  | free ch =>
    cases hs
    exact ⟨_, .release p ch, free_shows h ch⟩
  | start ch desc autoReload =>
    rw [Controller.step] at hs
    split at hs
    case isTrue hvalid =>
      cases hs
      have hgranted := (h.valid ch).mp hvalid
      exact ⟨p, .use hgranted, start_shows h hgranted desc autoReload⟩
    case isFalse => cases hs
  | stop ch =>
    cases hs
    exact ⟨p, .silent p, stop_shows h ch⟩
  | done ch =>
    cases hs
    exact ⟨p, .silent p, stop_shows h ch⟩

def Run (s : Controller) (es : List (Event (Fin 8) (BitVec 8))) (s' : Controller) : Prop :=
  Path (fun s e s' => ∃ act, s.step act = some (e, s')) s es s'

theorem run_pool {es : List (Event (Fin 8) (BitVec 8))} (h : Run init es s) :
    ∃ p, Path Step (fun _ => none) es p ∧ s.Shows p :=
  h.simulates (fun s p => s.Shows p) (fun _ _ _ _ ⟨_, hs⟩ hshows => step_pool hshows hs) init_shows

/-- Every run of the drivers is one of a pool of channels, and the clock of the controller runs exactly
while a channel is granted. -/
theorem channels_refine {es : List (Event (Fin 8) (BitVec 8))} (h : Run init es s) :
    (∃ p, Path Step (fun _ => none) es p ∧ s.Shows p) ∧
      (s.clock = true ↔ ∃ c, s.valid c = true) := by
  obtain ⟨p, hpath, hshows⟩ := run_pool h
  refine ⟨⟨p, hpath, hshows⟩, ?_⟩
  simp only [hshows.clock, hshows.valid]

/-- Two drivers ask for channel 1; the second one gets channel 0. -/
theorem channels_refine_two : ∃ (s : Controller) (p : Grants),
    Path Step (fun _ => none) [.grant 1 5#8, .grant 0 9#8, .release 1, .grant 1 9#8] p ∧ s.Shows p := by
  have hrun : Run init [.grant 1 5#8, .grant 0 9#8, .release 1, .grant 1 9#8] _ :=
    .cons ⟨.request 1 5#8, rfl⟩ (.cons ⟨.request 1 9#8, rfl⟩ (.cons ⟨.free 1, rfl⟩
      (.cons ⟨.request 1 9#8, rfl⟩ (.nil _))))
  obtain ⟨⟨p, hpath, hshows⟩, -⟩ := channels_refine hrun
  exact ⟨_, p, hpath, hshows⟩

/-- A channel that is granted goes to no other driver until it is freed. -/
theorem channel_exclusive {as bs cs : List (Event (Fin 8) (BitVec 8))} {c : Fin 8} {m n : BitVec 8}
    (h : Run init (as ++ .grant c m :: (bs ++ .grant c n :: cs)) s) : .release c ∈ bs := by
  obtain ⟨p, hpath, -⟩ := run_pool h
  exact exclusive hpath

theorem channel_exclusive_one :
    (.release 1 : Event (Fin 8) (BitVec 8)) ∈ [.grant 0 9#8, .release 1] := by
  have hrun : Run init ([] ++ .grant 1 5#8 :: ([.grant 0 9#8, .release 1] ++ .grant 1 9#8 :: [])) _ :=
    .cons ⟨.request 1 5#8, rfl⟩ (.cons ⟨.request 1 9#8, rfl⟩ (.cons ⟨.free 1, rfl⟩
      (.cons ⟨.request 1 9#8, rfl⟩ (.nil _))))
  exact channel_exclusive hrun

end Dma
end Air101
