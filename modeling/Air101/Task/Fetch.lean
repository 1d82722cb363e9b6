import Air101.Task.Timeouts

/-!
# Task.Fetch

The time that a task waits for a message: `tls_arch_mbox_fetch` of
`platform/common/task/wm_wl_mbox.c`, which turns milliseconds into ticks for the queue and the ticks it
has waited back into milliseconds, under `tls_timeouts_mbox_fetch_p`.

A tick is two milliseconds with the radio in the build and one without it. The tick values before and
after the wait are parameters; between them the counter may have passed zero.

* `elapsed_forward`, `elapsed_wrapped`: the elapsed ticks, one too few when the counter has wrapped.
* `fetch_onTime`: what a wait costs the first entry of the timeout list.
* `fetch_true_iff`: when the wait and the time reported are right.
-/

namespace Air101
namespace Task

variable {H A : Type}

/-- `HZ`, which is `configTICK_RATE_HZ`; `wireless` for `LUAT_USE_NIMBLE` or `LUAT_USE_WLAN`. -/
def tickRate (wireless : Bool) : BitVec 32 := if wireless then 500#32 else 1000#32

/-- `SYS_ARCH_TIMEOUT`. -/
def sysArchTimeout : BitVec 32 := 0xFFFFFFFF#32

section Functions

variable (hz : BitVec 32)

/-- The ticks that `tls_arch_mbox_fetch` hands to the queue; zero waits for ever. -/
def inTimeout (timeout : BitVec 32) : BitVec 32 :=
  let inTimeout := timeout * hz / 1000#32
  if timeout ≠ 0#32 ∧ inTimeout = 0#32 then 1#32 else inTimeout

/-- `tick_elapsed`. -/
def tickElapsed (tickStart tickStop : BitVec 32) : BitVec 32 :=
  if tickStart ≤ tickStop then tickStop - tickStart else 0xFFFFFFFF#32 - tickStart + tickStop

/-- `tls_arch_mbox_fetch`: what it hands to the queue and what it returns. `tickStop` is the tick at
which a message has come in, `none` if none has. -/
def tlsArchMboxFetch (timeout tickStart : BitVec 32) (tickStop : Option (BitVec 32)) :
    BitVec 32 × BitVec 32 :=
  (inTimeout hz timeout,
    match tickStop with
    | none => sysArchTimeout
    | some tickStop => tickElapsed tickStart tickStop * 1000#32 / hz)

/-- A pass of `tls_timeouts_mbox_fetch_p` with its fetch. -/
def mboxFetchPass (tickStart : BitVec 32) (tickStop : Option (BitVec 32)) (timeo : Timeouts H A) :
    Timeouts H A × Option (H × A) × List Arith :=
  let timeout := match timeo with
    | [] => 0#32
    | t :: _ => t.time
  let timeNeeded := (tlsArchMboxFetch hz timeout tickStart tickStop).2
  fetchPass (if timeNeeded = sysArchTimeout then none else some timeNeeded) timeo

end Functions

/-- The wait with `timeout` is right: the queue gets the milliseconds in ticks, rounded down or up and at
least one for a timeout that is not zero; the caller gets the milliseconds that have passed; and a
pending entry does not expire more than a tick late, whether the queue waits in vain or a message
comes in before that. -/
structure FetchTrue (H A : Type) (hz timeout tickStart tickStop : BitVec 32) : Prop where
  product : (timeout * hz).toNat = timeout.toNat * hz.toNat
  handed : (tlsArchMboxFetch hz timeout tickStart (some tickStop)).1.toNat =
      timeout.toNat * hz.toNat / 1000 ∨
    (tlsArchMboxFetch hz timeout tickStart (some tickStop)).1.toNat =
      (timeout.toNat * hz.toNat + 999) / 1000
  nonzero : timeout ≠ 0#32 → 1 ≤ (tlsArchMboxFetch hz timeout tickStart (some tickStop)).1.toNat
  returned : (tlsArchMboxFetch hz timeout tickStart (some tickStop)).2.toNat =
    (tickStop - tickStart).toNat * 1000 / hz.toNat
  onTime : ∀ (t : Timeo H A) (rest : Timeouts H A), t.time = timeout → timeout ≠ 0#32 →
    (mboxFetchPass hz tickStart none (t :: rest)).2.1 = some (t.h, t.arg) ∧
      (inTimeout hz timeout).toNat * 1000 ≤ timeout.toNat * hz.toNat + 1000 ∧
      ((tickStop - tickStart).toNat ≤ (inTimeout hz timeout).toNat →
        ∃ time, (mboxFetchPass hz tickStart (some tickStop) (t :: rest)).1 =
            { t with time := time } :: rest ∧
          (tickStop - tickStart).toNat * 1000 + time.toNat * hz.toNat ≤
            timeout.toNat * hz.toNat + 1000)

/-- The product with the tick rate fits 32 bits, the counter has not passed zero, and the elapsed
milliseconds times the tick rate fit 32 bits. -/
structure FetchFits (hz timeout tickStart tickStop : Nat) : Prop where
  product : timeout * hz < 2 ^ 32
  forward : tickStart ≤ tickStop
  elapsed : (tickStop - tickStart) * 1000 < 2 ^ 32

/-! ## The elapsed time -/

theorem elapsed_forward {tickStart tickStop : BitVec 32} (h : tickStart.toNat ≤ tickStop.toNat) :
    tickElapsed tickStart tickStop = tickStop - tickStart ∧
      (tickStop - tickStart).toNat = tickStop.toNat - tickStart.toNat := by
  have hle : tickStart ≤ tickStop := h
  exact ⟨if_pos hle, BitVec.toNat_sub_of_le hle⟩

/-- Behind the wrap a tick is missing. -/
theorem elapsed_wrapped {tickStart tickStop : BitVec 32} (h : tickStop.toNat < tickStart.toNat) :
    (tickElapsed tickStart tickStop).toNat + 1 = (tickStop - tickStart).toNat := by
  have hle : ¬ tickStart ≤ tickStop := Nat.not_le.mpr h
  have hlt := tickStart.isLt
  unfold tickElapsed
  rw [if_neg hle, BitVec.toNat_add, BitVec.toNat_sub, BitVec.toNat_sub, BitVec.toNat_ofNat]
  omega

theorem tickRate_cases (wireless : Bool) :
    (tickRate wireless).toNat = 500 ∨ (tickRate wireless).toNat = 1000 := by
  cases wireless
  · exact .inr rfl
  · exact .inl rfl

/-! ## The two scalings -/

section Scaling

variable {hz timeout tickStart tickStop : BitVec 32}

theorem inTimeout_toNat (h : timeout.toNat * hz.toNat < 2 ^ 32) :
    (inTimeout hz timeout).toNat =
      if timeout ≠ 0#32 ∧ timeout.toNat * hz.toNat / 1000 = 0 then 1
      else timeout.toNat * hz.toNat / 1000 := by
  have hquot : (timeout * hz / 1000#32).toNat = timeout.toNat * hz.toNat / 1000 := by
    rw [BitVec.toNat_udiv, BitVec.toNat_mul, Nat.mod_eq_of_lt h]
    rfl
  have hzero : timeout * hz / 1000#32 = 0#32 ↔ timeout.toNat * hz.toNat / 1000 = 0 := by
    rw [← hquot, ← BitVec.toNat_inj]
    rfl
  unfold inTimeout
  simp only [hzero]
  split
  · rfl
  · exact hquot

theorem fetch_toNat : (tlsArchMboxFetch hz timeout tickStart (some tickStop)).2.toNat =
    (tickElapsed tickStart tickStop).toNat * 1000 % 2 ^ 32 / hz.toNat := by
  simp only [tlsArchMboxFetch, BitVec.toNat_udiv, BitVec.toNat_mul]
  rfl

/-- A message is never taken for a timeout. -/
theorem fetch_ne (hhz : hz.toNat = 500 ∨ hz.toNat = 1000) :
    (tlsArchMboxFetch hz timeout tickStart (some tickStop)).2 ≠ sysArchTimeout := by
  intro h
  have hnat := congrArg BitVec.toNat h
  have hmax : sysArchTimeout.toNat = 2 ^ 32 - 1 := rfl
  rw [fetch_toNat, hmax] at hnat
  rcases hhz with h500 | h1000
  · rw [h500] at hnat
    omega
  · rw [h1000] at hnat
    omega

/-- The returned time is right exactly without a wrap of the counter or of the product. -/
theorem returned_iff (hhz : hz.toNat = 500 ∨ hz.toNat = 1000) :
    (tlsArchMboxFetch hz timeout tickStart (some tickStop)).2.toNat =
        (tickStop - tickStart).toNat * 1000 / hz.toNat ↔
      tickStart.toNat ≤ tickStop.toNat ∧ (tickStop.toNat - tickStart.toNat) * 1000 < 2 ^ 32 := by
  rw [fetch_toNat]
  rcases Nat.lt_or_ge tickStop.toNat tickStart.toNat with hwrap | hle
  · have hel := elapsed_wrapped hwrap
    generalize (tickElapsed tickStart tickStop).toNat = k at hel ⊢
    rw [← hel]
    constructor
    · intro h
      rcases hhz with h500 | h1000
      · rw [h500] at h
        omega
      · rw [h1000] at h
        omega
    · intro h
      omega
  · obtain ⟨hel, hnat⟩ := elapsed_forward hle
    rw [hel, hnat]
    generalize tickStop.toNat - tickStart.toNat = k
    constructor
    · intro h
      refine ⟨hle, ?_⟩
      rcases hhz with h500 | h1000
      · rw [h500] at h
        omega
      · rw [h1000] at h
        omega
    · intro h
      rw [Nat.mod_eq_of_lt h.2]

end Scaling

/-! ## The first entry -/

section OnTime

variable {hz timeout tickStart tickStop : BitVec 32} {t : Timeo H A} {rest : Timeouts H A}

/-- A wait in vain takes at most the entry's time, or a single tick. -/
theorem inTimeout_le (h : timeout.toNat * hz.toNat < 2 ^ 32) :
    (inTimeout hz timeout).toNat * 1000 ≤ timeout.toNat * hz.toNat + 1000 := by
  rw [inTimeout_toNat h]
  split <;> omega

theorem pass_timeout (h : 0 < t.time) :
    (mboxFetchPass hz tickStart none (t :: rest)).2.1 = some (t.h, t.arg) := by
  simp only [mboxFetchPass, tlsArchMboxFetch, if_true, fetchPass, if_pos h]

theorem pass_message (hhz : hz.toNat = 500 ∨ hz.toNat = 1000) (h : 0 < t.time) :
    (mboxFetchPass hz tickStart (some tickStop) (t :: rest)).1 =
      { t with time :=
        if (tlsArchMboxFetch hz t.time tickStart (some tickStop)).2 < t.time then
          t.time - (tlsArchMboxFetch hz t.time tickStart (some tickStop)).2
        else 0#32 } :: rest := by
  simp only [mboxFetchPass, if_neg (fetch_ne hhz), fetchPass, if_pos h]
  split <;> rfl

theorem left_over {rate time needed k : Nat} (hrate : rate = 500 ∨ rate = 1000)
    (hneeded : needed = k * 1000 / rate) (hlt : needed < time) :
    k * 1000 + (time - needed) * rate ≤ time * rate + 1000 := by
  rcases hrate with rfl | rfl <;> omega

/-- What the entry has left after a message, with the time that has passed. -/
theorem fetch_onTime (hhz : hz.toNat = 500 ∨ hz.toNat = 1000)
    (hfits : FetchFits hz.toNat t.time.toNat tickStart.toNat tickStop.toNat) (h : 0 < t.time)
    (hin : (tickStop - tickStart).toNat ≤ (inTimeout hz t.time).toNat) :
    ∃ time, (mboxFetchPass hz tickStart (some tickStop) (t :: rest)).1 = { t with time := time } :: rest ∧
      (tickStop - tickStart).toNat * 1000 + time.toNat * hz.toNat ≤
        t.time.toNat * hz.toNat + 1000 := by
  refine ⟨_, pass_message hhz h, ?_⟩
  have hreturned : (tlsArchMboxFetch hz t.time tickStart (some tickStop)).2.toNat =
      (tickStop - tickStart).toNat * 1000 / hz.toNat := (returned_iff hhz).mpr ⟨hfits.forward, hfits.elapsed⟩
  have hwait := inTimeout_le hfits.product
  generalize (tlsArchMboxFetch hz t.time tickStart (some tickStop)).2 = needed at hreturned ⊢
  generalize (tickStop - tickStart).toNat = k at hreturned hin ⊢
  split
  · rename_i hlt
    have hsub : (t.time - needed).toNat = t.time.toNat - needed.toNat :=
      BitVec.toNat_sub_of_le (BitVec.le_of_lt hlt)
    rw [hsub]
    exact left_over hhz hreturned hlt
  · have hzero : (0#32).toNat * hz.toNat = 0 := Nat.zero_mul _
    rw [hzero, Nat.add_zero]
    exact Nat.le_trans (Nat.mul_le_mul_right 1000 hin) hwait

end OnTime

/-- For any timeout and any ticks before and after the wait, and for both tick rates: the wait is right
exactly when nothing leaves 32 bits and the counter does not pass zero. -/
theorem fetch_true_iff (wireless : Bool) (timeout tickStart tickStop : BitVec 32) :
    FetchTrue H A (tickRate wireless) timeout tickStart tickStop ↔
      FetchFits (tickRate wireless).toNat timeout.toNat tickStart.toNat tickStop.toNat := by
  have hhz := tickRate_cases wireless
  generalize tickRate wireless = hz at hhz ⊢
  constructor
  · intro h
    have hprod := (timeout * hz).isLt
    rw [h.product] at hprod
    obtain ⟨hforward, helapsed⟩ := (returned_iff hhz).mp h.returned
    exact ⟨hprod, hforward, helapsed⟩
  · intro h
    have hticks := inTimeout_toNat h.product
    refine ⟨?_, ?_, ?_, (returned_iff hhz).mpr ⟨h.forward, h.elapsed⟩, ?_⟩
    · rw [BitVec.toNat_mul, Nat.mod_eq_of_lt h.product]
    · show (inTimeout hz timeout).toNat = _ ∨ (inTimeout hz timeout).toNat = _
      rw [hticks]
      split
      · rename_i hone
        have hpos : 0 < timeout.toNat * hz.toNat :=
          Nat.mul_pos (BitVec.toNat_pos_of_ne_zero hone.1) (by omega)
        right
        omega
      · exact .inl rfl
    · intro hne
      show 1 ≤ (inTimeout hz timeout).toNat
      rw [hticks]
      split
      · exact Nat.le_refl 1
      · rename_i hsplit
        exact Nat.pos_of_ne_zero fun h0 => hsplit ⟨hne, h0⟩
    · rintro t rest rfl hne
      have hpos : 0 < t.time := (BitVec.pos_iff_ne_zero _).mpr hne
      exact ⟨pass_timeout hpos, inTimeout_le h.product, fetch_onTime hhz h hpos⟩

/-- The counter passes zero during the wait, and one of the five ticks is lost. -/
theorem fetch_wrapped : ¬ FetchTrue Nat Nat (tickRate false) 100#32 0xFFFFFFFF#32 4#32 := by
  intro h
  have hforward := ((returned_iff (tickRate_cases false)).mp h.returned).1
  simp at hforward

end Task
end Air101
