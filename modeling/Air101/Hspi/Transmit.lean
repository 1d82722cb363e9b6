import Air101.Storage.Mem
import Mathlib.Data.List.Count
import Mathlib.Logic.Function.Iterate

/-!
# Hspi.Transmit

The transmit side of the SPI slave in `platform/drivers/hspi/wm_hspi.c`. Two descriptors form a ring that the driver
shares with the hardware: `tls_hspi_tx_data` fills descriptors and marks them valid, and the hardware sends the oldest
valid one and clears its mark.

`Ring` has the descriptors with the memory of their buffers, and `oldest` for the one the hardware sends next. A call is
given the number of descriptors that the hardware releases before each test of a valid bit. `marks` is what an observer
writes down: the descriptors marked valid by a call, with the bytes they hold.

* `Holds`: a ring with `v` valid descriptors.
* `release_holds`, `send_holds`: what the hardware and the driver do to it; `reachable_holds` is the run lemma.
* `fillLoop_out`: the outcome of the loop over the descriptors.
* `txData_transfers_iff`: the data is sent in order exactly if it fits in one descriptor, or stops after one, or says
  the same behind the first descriptor as at its start.
-/

namespace Air101
namespace Hspi

open Storage

/-! ## The driver -/

/-- `struct tls_hspi_tx_desc`, with `valid` for bit 31 of `valid_ctrl` and the index of the next descriptor. -/
structure TxDesc where
  valid : Bool
  bufInfo : UInt32
  bufAddr : Nat
  nextDesc : Nat

/-- The descriptors and `curr_tx_desc`, with the memory of the buffers and the hardware's own position. -/
structure Ring where
  desc : Nat → TxDesc
  currTxDesc : Nat
  mem : Nat → UInt8
  oldest : Nat

/-- A descriptor that was marked valid: whether it still was so before, and the bytes it holds. -/
structure Mark where
  index : Nat
  wasValid : Bool
  data : List UInt8

/-- `hspi_tx_init`, with `base` for `HSPI_TXBUF_BASE_ADDR`. -/
def txInit (base : Nat) (mem : Nat → UInt8) : Ring where
  desc i :=
    { valid := false
      bufInfo := 0
      bufAddr := base + i * 1600
      nextDesc := if i = 1 then 0 else i + 1 }
  currTxDesc := 0
  mem := mem
  oldest := 0

/-- The hardware clears the valid bit of the oldest descriptor. -/
def Ring.release (s : Ring) : Ring :=
  if (s.desc s.oldest).valid then
    { s with
      desc := Function.update s.desc s.oldest { s.desc s.oldest with valid := false }
      oldest := (s.desc s.oldest).nextDesc }
  else s

/-- The bytes that the hardware sends from a descriptor. -/
def Ring.holding (s : Ring) (i : Nat) : List UInt8 :=
  slice s.mem (s.desc i).bufAddr ((s.desc i).bufInfo >>> 12).toNat

/-- One turn of the loop over the descriptors: `MEMCPY`, `buf_info`, `valid_ctrl` and the step to the next one. -/
def Ring.send (s : Ring) (txbuf : Nat → UInt8) (txlen : Nat) : Ring :=
  { s with
    mem := overlay s.mem (s.desc s.currTxDesc).bufAddr (slice txbuf 0 txlen)
    desc := Function.update s.desc s.currTxDesc
      { s.desc s.currTxDesc with
        bufInfo := UInt32.ofNat txlen <<< 12
        valid := true }
    currTxDesc := (s.desc s.currTxDesc).nextDesc }

/-- The first loop of `tls_hspi_tx_data`. The schedule says how many descriptors are released before each test, the last
test being the one that finds the descriptor free. -/
def waitFree : List Nat → Ring → Option Ring
  | [], _ => none
  | n :: wait, s =>
    let s := Ring.release^[n] s
    if (s.desc s.currTxDesc).valid then waitFree wait s else if wait.isEmpty then some s else none

/-- What a call leaves: its result, the ring and the descriptors it marked, in order. -/
structure Outcome where
  result : Int
  ring : Ring
  marks : List Mark

/-- The second loop of `tls_hspi_tx_data` from its turn `i` on, `fill i` descriptors being released before the test of
that turn. -/
def fillLoop (txbuf : Nat → UInt8) (fill : Nat → Nat) (i totallen : Nat) (s : Ring) (marks : List Mark) :
    Nat × Ring × List Mark :=
  let s := Ring.release^[fill i] s
  if (s.desc s.currTxDesc).valid then (totallen, s, marks)
  else
    let txlen := if totallen > 1600 then 1600 else totallen
    let sent := s.send txbuf txlen
    let mark : Mark :=
      { index := s.currTxDesc
        wasValid := (s.desc s.currTxDesc).valid
        data := sent.holding s.currTxDesc }
    if totallen - txlen = 0 then (0, sent, marks ++ [mark])
    else fillLoop txbuf fill (i + 1) (totallen - txlen) sent (marks ++ [mark])
termination_by totallen
decreasing_by
  have hpos : 0 < totallen := by omega
  split <;> omega

/-- `tls_hspi_tx_data` in a schedule of the hardware; nothing if the schedule is none of its waiting loop. -/
def txData (s : Ring) (txbuf : Option (Nat → UInt8)) (len : Int) (wait : List Nat) (fill : Nat → Nat) :
    Option Outcome :=
  match txbuf with
  | none => some ⟨0, s, []⟩
  | some txbuf =>
    if len ≤ 0 ∨ len > 3200 then some ⟨0, s, []⟩
    else do
      let s ← waitFree wait s
      let (totallen, s, marks) := fillLoop txbuf fill 0 len.toNat s []
      return ⟨len - totallen, s, marks⟩

/-- The rings that calls and the hardware lead to. -/
inductive Reachable (base : Nat) : Ring → Prop
  | init (mem : Nat → UInt8) : Reachable base (txInit base mem)
  | release {s : Ring} : Reachable base s → Reachable base s.release
  | call {s : Ring} {txbuf : Option (Nat → UInt8)} {len : Int} {wait : List Nat} {fill : Nat → Nat}
      {out : Outcome} : Reachable base s → txData s txbuf len wait fill = some out → Reachable base out.ring

/-- The number of valid descriptors. -/
def Ring.validCount (s : Ring) : Nat := (List.range 2).countP fun i => (s.desc i).valid

/-- A positive number of bytes is transferred: the descriptors marked, one behind the other in the ring and each found
free, hold that many first bytes of the data. -/
structure Transfers (s : Ring) (txbuf : Nat → UInt8) (len : Int) (out : Outcome) : Prop where
  pos : 0 < out.result
  le : out.result ≤ len
  ring : out.marks.IsChain fun a b => b.index = (s.desc a.index).nextDesc
  data : out.marks.flatMap Mark.data = slice txbuf 0 out.result.toNat
  free : ∀ m ∈ out.marks, m.wasValid = false

/-! ## The ring -/

/-- The index behind `i`. -/
def next (i : Nat) : Nat := if i = 1 then 0 else i + 1

theorem next_next {i : Nat} (h : i < 2) : next (next i) = i := by
  rcases (by omega : i = 0 ∨ i = 1) with rfl | rfl <;> rfl

theorem next_lt {i : Nat} (h : i < 2) : next i < 2 := by
  rcases (by omega : i = 0 ∨ i = 1) with rfl | rfl <;> simp [next]

theorem next_ne {i : Nat} (h : i < 2) : next i ≠ i := by
  rcases (by omega : i = 0 ∨ i = 1) with rfl | rfl <;> simp [next]

/-- A ring with `v` valid descriptors. The current descriptor is the last to become valid, and the oldest valid one lies
`v` places before it. -/
structure Holds (base v : Nat) (s : Ring) : Prop where
  le : v ≤ 2
  curr_lt : s.currTxDesc < 2
  addr : ∀ i, (s.desc i).bufAddr = base + i * 1600
  nextDesc : ∀ i, (s.desc i).nextDesc = next i
  curr : (s.desc s.currTxDesc).valid = decide (v = 2)
  other : (s.desc (next s.currTxDesc)).valid = decide (1 ≤ v)
  oldest : s.oldest = if v = 1 then next s.currTxDesc else s.currTxDesc

section Ring

variable {base v : Nat} {s : Ring}

theorem txInit_holds (base : Nat) (mem : Nat → UInt8) : Holds base 0 (txInit base mem) :=
  ⟨by simp, by simp [txInit], fun _ => rfl, fun _ => rfl, rfl, rfl, rfl⟩

theorem Holds.validCount (h : Holds base v s) : s.validCount = v := by
  have hcurr := h.curr
  have hother := h.other
  have hle := h.le
  rcases (by have := h.curr_lt; omega : s.currTxDesc = 0 ∨ s.currTxDesc = 1) with hi | hi <;>
    rcases (by omega : v = 0 ∨ v = 1 ∨ v = 2) with rfl | rfl | rfl <;>
      simp_all [Ring.validCount, List.range_succ, next]

theorem release_currTxDesc (s : Ring) : s.release.currTxDesc = s.currTxDesc := by
  rw [Ring.release]
  split <;> rfl

theorem Holds.oldest_valid (h : Holds base v s) : (s.desc s.oldest).valid = decide (0 < v) := by
  rw [h.oldest]
  split
  · rename_i hv
    rw [h.other, hv]
    rfl
  · rename_i hv
    rw [h.curr, decide_eq_decide]
    have := h.le
    omega

theorem release_holds (h : Holds base v s) : Holds base (v - 1) s.release := by
  have hne := next_ne h.curr_lt
  have hle := h.le
  rw [Ring.release, h.oldest_valid]
  by_cases hv : 0 < v
  · rw [if_pos (decide_eq_true hv)]
    refine ⟨by omega, h.curr_lt, fun i => ?_, fun i => ?_, ?_, ?_, ?_⟩
    · rcases eq_or_ne i s.oldest with rfl | hi
      · simp [h.addr]
      · simp [hi, h.addr]
    · rcases eq_or_ne i s.oldest with rfl | hi
      · simp [h.nextDesc]
      · simp [hi, h.nextDesc]
    · rcases (by omega : v = 1 ∨ v = 2) with rfl | rfl
      · simp [h.oldest, h.curr, hne.symm]
      · simp [h.oldest]
    · rcases (by omega : v = 1 ∨ v = 2) with rfl | rfl
      · simp [h.oldest]
      · simp [h.oldest, h.other, hne]
    · rcases (by omega : v = 1 ∨ v = 2) with rfl | rfl
      · simp [h.oldest, h.nextDesc, next_next h.curr_lt]
      · simp [h.oldest, h.nextDesc]
  · obtain rfl : v = 0 := by omega
    rw [if_neg (by simp)]
    exact h

theorem releases_holds (n : Nat) (h : Holds base v s) : Holds base (v - n) (Ring.release^[n] s) := by
  induction n generalizing s v with
  | zero => exact h
  | succ n ih =>
    rw [Function.iterate_succ_apply, show v - (n + 1) = v - 1 - n by omega]
    exact ih (release_holds h)

theorem releases_currTxDesc (n : Nat) (s : Ring) : (Ring.release^[n] s).currTxDesc = s.currTxDesc := by
  induction n generalizing s with
  | zero => rfl
  | succ n ih => rw [Function.iterate_succ_apply, ih, release_currTxDesc]

theorem send_holds (txbuf : Nat → UInt8) (txlen : Nat) (h : Holds base v s) (hv : v ≤ 1) :
    Holds base (v + 1) (s.send txbuf txlen) := by
  have hne := next_ne h.curr_lt
  have hnn := next_next h.curr_lt
  refine ⟨by omega, ?_, fun i => ?_, fun i => ?_, ?_, ?_, ?_⟩
  · simpa [Ring.send, h.nextDesc] using next_lt h.curr_lt
  · rcases eq_or_ne i s.currTxDesc with rfl | hi
    · simp [Ring.send, h.addr]
    · simp [Ring.send, hi, h.addr]
  · rcases eq_or_ne i s.currTxDesc with rfl | hi
    · simp [Ring.send, h.nextDesc]
    · simp [Ring.send, hi, h.nextDesc]
  · rcases (by omega : v = 0 ∨ v = 1) with rfl | rfl <;> simp [Ring.send, h.nextDesc, hne, h.other]
  · simp [Ring.send, h.nextDesc, hnn]
  · rcases (by omega : v = 0 ∨ v = 1) with rfl | rfl <;> simp [Ring.send, h.nextDesc, hnn, h.oldest]

theorem send_holding (txbuf : Nat → UInt8) {txlen : Nat} (h : txlen ≤ 1600) :
    (s.send txbuf txlen).holding s.currTxDesc = slice txbuf 0 txlen := by
  have hlen : (UInt32.ofNat txlen <<< 12 >>> 12).toNat = txlen := by
    rw [UInt32.toNat_shiftRight, UInt32.toNat_shiftLeft, UInt32.toNat_ofNat', show (12 : UInt32).toNat % 32 = 12 from rfl,
      Nat.shiftLeft_eq, Nat.shiftRight_eq_div_pow]
    omega
  have hslice := slice_overlay s.mem (s.desc s.currTxDesc).bufAddr (slice txbuf 0 txlen)
  rw [slice_length] at hslice
  simpa [Ring.send, Ring.holding, hlen] using hslice

/-! ## The loops -/

theorem waitFree_holds {wait : List Nat} {s' : Ring} (h : Holds base v s) (hwait : waitFree wait s = some s') :
    Holds base (v - wait.sum) s' ∧ v ≤ wait.sum + 1 ∧ s'.currTxDesc = s.currTxDesc := by
  induction wait generalizing s v with
  | nil => cases hwait
  | cons n wait ih =>
    have hn := releases_holds n h
    have hle := h.le
    rw [waitFree] at hwait
    rw [List.sum_cons]
    split at hwait
    · obtain ⟨hholds, hv, hcurr⟩ := ih hn hwait
      rw [show v - (n + wait.sum) = v - n - wait.sum by omega]
      exact ⟨hholds, by omega, hcurr.trans (releases_currTxDesc n s)⟩
    · rename_i hfree
      rw [hn.curr, decide_eq_true_eq] at hfree
      split at hwait
      · rename_i hempty
        cases hwait
        rw [List.isEmpty_iff.mp hempty, List.sum_nil, Nat.add_zero]
        exact ⟨hn, by omega, releases_currTxDesc n s⟩
      · cases hwait

/-- The waiting loop ends once the hardware has released enough. -/
theorem waitFree_returns {rs : List Nat} (h : Holds base v s) (hne : rs ≠ []) (hv : v ≤ rs.sum + 1) :
    ∃ wait, wait <+: rs ∧ (waitFree wait s).isSome := by
  induction rs generalizing s v with
  | nil => exact absurd rfl hne
  | cons n rs ih =>
    have hn := releases_holds n h
    have hle := h.le
    by_cases hbusy : v - n = 2
    · have hrs : rs ≠ [] := by
        rintro rfl
        rw [List.sum_cons, List.sum_nil] at hv
        omega
      obtain ⟨wait, hpre, hsome⟩ := ih hn hrs (by
        rw [List.sum_cons] at hv
        omega)
      refine ⟨n :: wait, List.cons_prefix_cons.mpr ⟨rfl, hpre⟩, ?_⟩
      rw [waitFree]
      simpa [hn.curr, hbusy] using hsome
    · refine ⟨[n], List.cons_prefix_cons.mpr ⟨rfl, List.nil_prefix⟩, ?_⟩
      rw [waitFree]
      simp [hn.curr, hbusy]

/-- The mark that a turn leaves. -/
def markOf (s : Ring) (txbuf : Nat → UInt8) (txlen : Nat) : Mark := ⟨s.currTxDesc, false, slice txbuf 0 txlen⟩

theorem fillLoop_busy {txbuf : Nat → UInt8} {fill : Nat → Nat} {i totallen : Nat} {marks : List Mark}
    (h : Holds base v s) (hv : v - fill i = 2) :
    fillLoop txbuf fill i totallen s marks = (totallen, Ring.release^[fill i] s, marks) := by
  have hcurr := (releases_holds (fill i) h).curr
  rw [fillLoop]
  dsimp only
  rw [if_pos (by rw [hcurr, hv]; rfl)]

theorem fillLoop_last {txbuf : Nat → UInt8} {fill : Nat → Nat} {i totallen : Nat} {marks : List Mark}
    (h : Holds base v s) (hv : v - fill i ≤ 1) (hlen : totallen ≤ 1600) :
    fillLoop txbuf fill i totallen s marks =
      (0, (Ring.release^[fill i] s).send txbuf totallen, marks ++ [markOf s txbuf totallen]) := by
  have hcurr := (releases_holds (fill i) h).curr
  rw [decide_eq_false (by omega)] at hcurr
  rw [fillLoop]
  dsimp only
  rw [if_neg (by simp [hcurr]), if_neg (by omega : ¬ totallen > 1600), if_pos (by omega), send_holding txbuf hlen,
    hcurr, markOf, releases_currTxDesc]

theorem fillLoop_turn {txbuf : Nat → UInt8} {fill : Nat → Nat} {i totallen : Nat} {marks : List Mark}
    (h : Holds base v s) (hv : v - fill i ≤ 1) (hlen : 1600 < totallen) :
    fillLoop txbuf fill i totallen s marks =
      fillLoop txbuf fill (i + 1) (totallen - 1600) ((Ring.release^[fill i] s).send txbuf 1600)
        (marks ++ [markOf s txbuf 1600]) := by
  have hcurr := (releases_holds (fill i) h).curr
  rw [decide_eq_false (by omega)] at hcurr
  rw [fillLoop]
  dsimp only
  rw [if_neg (by simp [hcurr]), if_pos hlen, if_neg (by omega : ¬ totallen - 1600 = 0),
    send_holding txbuf (Nat.le_refl _), hcurr, markOf, releases_currTxDesc]

/-- The bytes left over and the marks of the loop over the descriptors, which finds the current descriptor free. -/
def loopMarks (s : Ring) (txbuf : Nat → UInt8) (fill : Nat → Nat) (v totallen : Nat) : Nat × List Mark :=
  if totallen ≤ 1600 then (0, [markOf s txbuf totallen])
  else if fill 0 + fill 1 < v then (totallen - 1600, [markOf s txbuf 1600])
  else (0, [markOf s txbuf 1600, ⟨next s.currTxDesc, false, slice txbuf 0 (totallen - 1600)⟩])

theorem fillLoop_out (txbuf : Nat → UInt8) (fill : Nat → Nat) (totallen : Nat) (h : Holds base v s) (hv : v ≤ 1)
    (hlen : totallen ≤ 3200) :
    ∃ s' v', Holds base v' s' ∧ fillLoop txbuf fill 0 totallen s [] =
      ((loopMarks s txbuf fill v totallen).1, s', (loopMarks s txbuf fill v totallen).2) := by
  have h0 := releases_holds (fill 0) h
  rw [loopMarks]
  split
  · rename_i hfit
    exact ⟨_, _, send_holds txbuf totallen h0 (by omega), fillLoop_last h (by omega) hfit⟩
  · rename_i hmore
    have h1 := send_holds txbuf 1600 h0 (by omega)
    rw [fillLoop_turn h (by omega) (by omega), Nat.zero_add]
    split
    · exact ⟨_, _, releases_holds (fill 1) h1, fillLoop_busy h1 (by omega)⟩
    · refine ⟨_, _, send_holds txbuf (totallen - 1600) (releases_holds (fill 1) h1) (by omega), ?_⟩
      rw [fillLoop_last h1 (by omega) (by omega), markOf]
      simp [markOf, Ring.send, releases_currTxDesc, h0.nextDesc]

theorem txData_out {txbuf : Nat → UInt8} {len : Int} {wait : List Nat} {fill : Nat → Nat} {out : Outcome}
    (h : Holds base v s) (hpos : 1 ≤ len) (hlen : len ≤ 3200)
    (hout : txData s (some txbuf) len wait fill = some out) :
    v ≤ wait.sum + 1 ∧ (∃ v', Holds base v' out.ring) ∧
      out.result = len - (loopMarks s txbuf fill (v - wait.sum) len.toNat).1 ∧
      out.marks = (loopMarks s txbuf fill (v - wait.sum) len.toNat).2 := by
  rw [txData, if_neg (by omega)] at hout
  cases hwait : waitFree wait s with
  | none =>
    rw [hwait] at hout
    cases hout
  | some s' =>
    obtain ⟨hfree, hv, hcurr⟩ := waitFree_holds h hwait
    obtain ⟨t, v', ht, hloop⟩ := fillLoop_out txbuf fill len.toNat hfree
      (by omega) (by omega)
    have hmarks : loopMarks s' txbuf fill (v - wait.sum) len.toNat =
        loopMarks s txbuf fill (v - wait.sum) len.toNat := by
      simp only [loopMarks, markOf, hcurr]
    rw [hmarks] at hloop
    simp only [hwait, hloop, Option.bind_eq_bind, Option.bind_some] at hout
    cases hout
    exact ⟨hv, ⟨v', ht⟩, rfl, rfl⟩

theorem reachable_holds (h : Reachable base s) : ∃ v, Holds base v s := by
  induction h with
  | init mem => exact ⟨0, txInit_holds base mem⟩
  | release _ ih =>
    obtain ⟨v, hv⟩ := ih
    exact ⟨v - 1, release_holds hv⟩
  | @call s txbuf len wait fill out _ hout ih =>
    obtain ⟨v, hv⟩ := ih
    cases txbuf with
    | none =>
      cases hout
      exact ⟨v, hv⟩
    | some txbuf =>
      by_cases hlen : len ≤ 0 ∨ len > 3200
      · rw [txData, if_pos hlen] at hout
        cases hout
        exact ⟨v, hv⟩
      · exact (txData_out hv (by omega) (by omega) hout).2.1

/-- What the marks of the loop say about the data. -/
theorem transfers_loopMarks {txbuf : Nat → UInt8} {fill : Nat → Nat} {len : Int} {out : Outcome} {n : Nat}
    (h : Holds base v s) (hpos : 1 ≤ len) (hlen : len ≤ 3200)
    (hresult : out.result = len - (loopMarks s txbuf fill n len.toNat).1)
    (hmarks : out.marks = (loopMarks s txbuf fill n len.toNat).2) :
    Transfers s txbuf len out ↔
      len ≤ 1600 ∨ fill 0 + fill 1 < n ∨
        slice txbuf 0 (len.toNat - 1600) = slice txbuf 1600 (len.toNat - 1600) := by
  rw [loopMarks] at hresult hmarks
  by_cases hfit : len.toNat ≤ 1600
  · rw [if_pos hfit] at hresult hmarks
    refine iff_of_true ⟨by omega, by omega, ?_, ?_, ?_⟩ (.inl (by omega))
    · simp [hmarks]
    · simp [hmarks, hresult, markOf]
    · simp [hmarks, markOf]
  · rw [if_neg hfit] at hresult hmarks
    by_cases hbusy : fill 0 + fill 1 < n
    · rw [if_pos hbusy] at hresult hmarks
      have hr : out.result.toNat = 1600 := by omega
      refine iff_of_true ⟨by omega, by omega, ?_, ?_, ?_⟩ (.inr (.inl hbusy))
      · simp [hmarks]
      · simp [hmarks, hr, markOf]
      · simp [hmarks, markOf]
    · rw [if_neg hbusy] at hresult hmarks
      have hr : out.result.toNat = len.toNat := by omega
      have hdata : out.marks.flatMap Mark.data = slice txbuf 0 1600 ++ slice txbuf 0 (len.toNat - 1600) := by
        simp [hmarks, markOf]
      have hall : slice txbuf 0 len.toNat = slice txbuf 0 1600 ++ slice txbuf 1600 (len.toNat - 1600) := by
        have happend := slice_append txbuf 0 1600 (len.toNat - 1600)
        rwa [Nat.add_sub_cancel' (by omega), Nat.zero_add] at happend
      constructor
      · intro ht
        have heq := ht.data
        rw [hdata, hr, hall] at heq
        exact .inr (.inr (List.append_cancel_left heq))
      · rintro (hle | hlt | heq)
        · omega
        · exact absurd hlt hbusy
        · refine ⟨by omega, by omega, ?_, ?_, ?_⟩
          · simp [hmarks, markOf, h.nextDesc]
          · rw [hdata, hr, hall, heq]
          · simp [hmarks, markOf]

end Ring

/-- On every reachable ring a call returns once the hardware has released enough, and then it transfers the data in order
if and only if the data fits in one descriptor, or the other descriptor is still valid when the loop comes to it, or the
data behind the first descriptor repeats its start. -/
theorem txData_transfers_iff {base : Nat} {s : Ring} (hs : Reachable base s) (txbuf : Nat → UInt8) {len : Int}
    (hpos : 1 ≤ len) (hlen : len ≤ 3200) :
    (∀ rs fill, rs ≠ [] → s.validCount ≤ rs.sum + 1 →
      ∃ wait, wait <+: rs ∧ (txData s (some txbuf) len wait fill).isSome) ∧
    ∀ wait fill out, txData s (some txbuf) len wait fill = some out →
      (Transfers s txbuf len out ↔
        len ≤ 1600 ∨ wait.sum + fill 0 + fill 1 < s.validCount ∨
          slice txbuf 0 (len.toNat - 1600) = slice txbuf 1600 (len.toNat - 1600)) := by
  obtain ⟨v, hv⟩ := reachable_holds hs
  rw [hv.validCount]
  constructor
  · intro rs fill hne hle
    obtain ⟨wait, hpre, hsome⟩ := waitFree_returns hv hne hle
    obtain ⟨s', hs'⟩ := Option.isSome_iff_exists.mp hsome
    refine ⟨wait, hpre, ?_⟩
    rw [txData, if_neg (by omega), hs']
    rfl
  · intro wait fill out hout
    obtain ⟨hle, -, hresult, hmarks⟩ := txData_out hv hpos hlen hout
    rw [transfers_loopMarks hv hpos hlen hresult hmarks,
      show fill 0 + fill 1 < v - wait.sum ↔ wait.sum + fill 0 + fill 1 < v by omega]

theorem txData_transfers_iff_init :
    Reachable 0 (txInit 0 fun _ => 0) ∧ ∀ wait fill out,
      txData (txInit 0 fun _ => 0) (some UInt8.ofNat) 1601 wait fill = some out →
        (Transfers (txInit 0 fun _ => 0) UInt8.ofNat 1601 out ↔
          (1601 : Int) ≤ 1600 ∨ wait.sum + fill 0 + fill 1 < (txInit 0 fun _ => 0).validCount ∨
            slice UInt8.ofNat 0 1 = slice UInt8.ofNat 1600 1) :=
  ⟨.init _, (txData_transfers_iff (.init _) UInt8.ofNat (by decide) (by decide)).2⟩

/-- With both descriptors free, the last of 1601 bytes is sent as the first one is. -/
theorem second_descriptor :
    Reachable 0 (txInit 0 fun _ => 0) ∧
      ∃ out, txData (txInit 0 fun _ => 0) (some UInt8.ofNat) 1601 [0] (fun _ => 0) = some out ∧
        out.result = 1601 ∧ (out.marks.flatMap Mark.data)[1600]? = some 0 ∧
        (slice UInt8.ofNat 0 1601)[1600]? = some 64 ∧ ¬ Transfers (txInit 0 fun _ => 0) UInt8.ofNat 1601 out := by
  have h := txInit_holds 0 fun _ => 0
  have hsome : (txData (txInit 0 fun _ => 0) (some UInt8.ofNat) 1601 [0] fun _ => 0).isSome := rfl
  obtain ⟨out, hout⟩ := Option.isSome_iff_exists.mp hsome
  obtain ⟨-, -, hresult, hmarks⟩ := txData_out h (by decide) (by decide) hout
  have hlast : (out.marks.flatMap Mark.data)[1600]? = some 0 := by
    have hdata : out.marks.flatMap Mark.data = slice UInt8.ofNat 0 1600 ++ slice UInt8.ofNat 0 1 := by
      simp [hmarks, loopMarks, markOf]
    rw [hdata, List.getElem?_append_right (by simp), slice_length]
    rfl
  refine ⟨.init _, out, hout, hresult, hlast, ?_, fun ht => ?_⟩
  · rw [slice_getElem?]
    rfl
  · rw [ht.data, hresult, slice_getElem?] at hlast
    cases hlast

end Hspi
end Air101
