import Air101.Fota.Chunks

/-!
# Fota.Accept

What it means that `luat_fota_done` returned 0. It tests the length (a 32-bit sum) and the checksum
of the body's whole words; the header itself was tested by `luat_fota_write`, which leaves the
result in `fota_head_check`. `luat_fota_done` does not look at that flag. `Sound` says when the
tests add up to an accepted image.

* `Kept`: the invariant. A checked header stays in flash, because no later flush reaches the first
  64 bytes of the zone; an accepted image stays in flash until the next `luat_fota_init`.
* `Kept.headCheck`: the one place where a flush is not bounded. The offset may pass the end of the
  chip and of the driver's window there, but a flush that lands on the header again has a small
  offset.
-/

namespace Air101
namespace Fota

open Storage
open Crypto
open Fls

variable {hw : Engine} {z : Zone} {s : State} {n : Nat}

/-- The cells `m` hold an image of at most `n` bytes: a valid header, and the checksum in it is the
CRC of all bytes of the body. -/
def ImageOk (hw : Engine) (z : Zone) (m : Nat → Byte) (n : Nat) : Prop :=
  HeadOk hw (slice m z.base 64) ∧
    64 + Header.imgLen (slice m z.base 64) ≤ n ∧
    Header.orgChecksum (slice m z.base 64) = (Crc32.update 0xFFFFFFFF#32
      (slice m (z.base + 64) (Header.imgLen (slice m z.base 64)))).toNat

/-- The bytes handed to `tls_fls_write` in a log. -/
def sent : List Ev → Nat
  | [] => 0
  | .write _ buf _ :: es => buf.length + sent es
  | .erase _ _ :: es => sent es

theorem sent_append (es fs : List Ev) : sent (es ++ fs) = sent es + sent fs := by
  induction es with
  | nil => simp [sent]
  | cons e es ih =>
    cases e with
    | write addr buf ops => rw [List.cons_append, sent, sent, ih, Nat.add_assoc]
    | erase sector ops => rw [List.cons_append, sent, sent, ih]

/-- A downloader with the number of bytes it has written since the last `luat_fota_init`. -/
structure Session where
  st : State
  written : Nat

/-- A call; only those of `luat_fota_write` and `luat_fota_done` write image bytes. -/
def Session.step (hw : Engine) (z : Zone) (x : Session) (c : Call) : Session :=
  let s := next hw z x.st c
  { st := s
    written := match c with
      | .init _ => 0
      | .fin _ => x.written
      | _ => x.written + (sent s.dev.log - sent x.st.dev.log) }

/-- The condition on a call of `luat_fota_done` under which its tests are enough: once 64 bytes have
come in, the header has been checked, and an image that is not too long for what came in has a body
of whole words and ends below the OTA flag. -/
def Sound (z : Zone) (s : State) : Call → Prop
  | .done => 64 ≤ s.total → s.fotaHeadCheck = true ∧
      ((Header.imgLen (s.imghead z) + 64) % 2 ^ 32 ≤ s.total →
        Header.imgLen (s.imghead z) % 4 = 0 ∧
          z.base + 64 + Header.imgLen (s.imghead z) ≤ z.density - 0x1000)
  | _ => True

/-- The invariant, with `n` bytes written since the last `luat_fota_init`. -/
structure Kept (hw : Engine) (z : Zone) (n : Nat) (s : State) : Prop where
  installed : s.dev.insideFls = some z.density
  buf_le : s.buf.length ≤ 0x8000
  offset_eq : s.fotaWriteOffset = n % 2 ^ 32
  checked : s.fotaHeadCheck = true →
    HeadOk hw (s.imghead z) ∧ 64 ≤ s.fotaWriteOffset ∧ s.fotaWriteOffset + 2 ^ 26 ≤ 2 ^ 32
  unchecked : s.fotaHeadCheck = false → HeadOk hw (s.imghead z) → s.fotaWriteOffset ≤ z.size
  accepted : s.fotaState = .done → s.buf = [] ∧ ImageOk hw z s.dev.mem n ∧
    z.base + 64 + Header.imgLen (s.imghead z) ≤ z.density - 0x1000

/-! ## Flushes -/

theorem flush_sent (z : Zone) (s : State) :
    sent (s.flush z).dev.log = sent s.dev.log + s.buf.length := by
  obtain ⟨ops, h⟩ := flush_log z s
  rw [h, sent_append]
  simp [sent]

theorem Kept.stage (h : Kept hw z n s) (ho : s.fotaState = .ongo) {bs : List Byte}
    (hl : s.buf.length + bs.length ≤ 0x8000) : Kept hw z n (s.stage bs) :=
  { h with
    buf_le := by simpa [State.stage] using hl
    accepted := fun hd => by simp [State.stage, ho] at hd }

theorem Kept.flush_offset_eq (h : Kept hw z n s) :
    (s.flush z).fotaWriteOffset = (n + s.buf.length) % 2 ^ 32 := by
  rw [flush_offset, h.offset_eq]
  omega

theorem Kept.flush_imghead (h : Kept hw z n s) (hc : s.fotaHeadCheck = true)
    (hguard : (s.fotaWriteOffset + s.buf.length) % 2 ^ 32 ≤ z.size) :
    (s.flush z).imghead z = s.imghead z := by
  have hz := z.density_le
  have he := z.end_le
  have hbuf := h.buf_le
  obtain ⟨_, h64, hsmall⟩ := h.checked hc
  rw [Nat.mod_eq_of_lt (by omega)] at hguard
  rw [State.imghead, flush_overlay h.installed hbuf (by omega)]
  exact slice_overlay_out (by omega)

theorem Kept.flush (h : Kept hw z n s) (ho : s.fotaState ≠ .done)
    (hguard : (s.fotaWriteOffset + s.buf.length) % 2 ^ 32 ≤ z.size) :
    Kept hw z (n + s.buf.length) (s.flush z) := by
  have hz := z.density_le
  have he := z.end_le
  have hbuf := h.buf_le
  refine ⟨by simp [h.installed], by simp, h.flush_offset_eq, ?_, ?_, ?_⟩
  · intro hc
    obtain ⟨hok, h64, hsmall⟩ := h.checked hc
    rw [h.flush_imghead hc hguard]
    refine ⟨hok, ?_, ?_⟩
    · rw [flush_offset, Nat.mod_eq_of_lt (by omega)]
      omega
    · rw [flush_offset]
      omega
  · intro _ _
    rw [flush_offset]
    exact hguard
  · intro hd
    exact absurd hd ho

/-- A flush whose offset stays near `2 ^ 32` cannot reach the header: it ends below the zone or is
refused by the driver. -/
theorem flush_imghead_high (hd : s.dev.insideFls = some z.density) (hb : s.buf.length ≤ 0x8000)
    (hhigh : 2 ^ 32 < s.fotaWriteOffset + s.buf.length + 2 ^ 26)
    (hlt : s.fotaWriteOffset + s.buf.length < 2 ^ 32) : (s.flush z).imghead z = s.imghead z := by
  have hz := z.density_le
  have he := z.end_le
  rcases flush_mem hd hb with ⟨hin, hmem⟩ | ⟨_, hmem⟩
  · rw [State.imghead, hmem]
    exact slice_overlay_out (by omega)
  · rw [State.imghead, hmem, State.imghead]

theorem Kept.flushRest_fields (h : Kept hw z n s) :
    (s.flushRest z).dev.insideFls = some z.density ∧ (s.flushRest z).buf.length ≤ 0x8000 ∧
      (s.flushRest z).fotaState = s.fotaState ∧
      (s.flushRest z).fotaHeadCheck = s.fotaHeadCheck ∧
      (s.flushRest z).fotaWriteOffset = (s.fotaWriteOffset + s.buf.length) % 2 ^ 32 ∧
      sent (s.flushRest z).dev.log = sent s.dev.log + s.buf.length := by
  have hoff : s.fotaWriteOffset < 2 ^ 32 := by rw [h.offset_eq]; omega
  rcases flushRest_cases z s with ⟨hb, e⟩ | ⟨_, e⟩
  · rw [e, hb, List.length_nil, Nat.add_zero, Nat.mod_eq_of_lt hoff]
    exact ⟨h.installed, by decide, rfl, rfl, rfl, rfl⟩
  · rw [e]
    exact ⟨by simp [h.installed], by simp, rfl, rfl, rfl, flush_sent z s⟩

/-- If the header is good at the test, then either it was good before, which leaves a small offset,
or the flush put it there, which does too. -/
theorem Kept.flushRest_low (h : Kept hw z n s) (hc : s.fotaHeadCheck = false)
    (hok : HeadOk hw ((s.flushRest z).imghead z)) :
    (s.flushRest z).fotaWriteOffset + 2 ^ 26 ≤ 2 ^ 32 := by
  have hz := z.density_le
  have he := z.end_le
  have hbuf := h.buf_le
  obtain ⟨-, -, -, -, hoff, -⟩ := h.flushRest_fields
  by_contra hhigh
  rw [hoff] at hhigh
  have hsame : (s.flushRest z).imghead z = s.imghead z := by
    rcases flushRest_cases z s with ⟨_, e⟩ | ⟨_, e⟩
    · rw [e]
    · rw [e]
      have := h.offset_eq
      exact flush_imghead_high h.installed hbuf (by omega) (by omega)
  have := h.unchecked hc (hsame ▸ hok)
  omega

/-- The header test keeps the invariant. -/
theorem Kept.headCheck (h : Kept hw z n s) (ho : s.fotaState = .ongo) :
    Kept hw z (n + (sent (headCheck hw z s).2.dev.log - sent s.dev.log)) (headCheck hw z s).2 := by
  obtain ⟨hinst, hlen, hst, hhc, hoff, hsent⟩ := h.flushRest_fields
  have hn : (s.flushRest z).fotaWriteOffset = (n + s.buf.length) % 2 ^ 32 := by
    rw [hoff, h.offset_eq]
    omega
  have hongo : (s.flushRest z).fotaState ≠ .done := by rw [hst, ho]; decide
  rcases headCheck_cases hw z s with ⟨_, e⟩ | ⟨hc, ⟨hok, e⟩ | ⟨hbad, _, e⟩⟩
  · simpa [e] using h
  · rw [e, hsent, Nat.add_sub_cancel_left]
    exact { installed := hinst
            buf_le := hlen
            offset_eq := hn
            checked := fun _ => ⟨hok, by simp only [hoff]; exact hc.2, h.flushRest_low hc.1 hok⟩
            unchecked := fun hf => by cases hf
            accepted := fun hd => absurd hd hongo }
  · rw [e, hsent, Nat.add_sub_cancel_left]
    exact { installed := hinst
            buf_le := hlen
            offset_eq := hn
            checked := fun ht => by rw [hhc, hc.1] at ht; cases ht
            unchecked := fun _ hok => absurd hok hbad
            accepted := fun hd => absurd hd hongo }

/-! ## The calls -/

theorem Kept.write (h : Kept hw z n s) (data : List Byte) :
    Kept hw z (n + (sent (luatFotaWrite hw z s data).2.dev.log - sent s.dev.log))
      (luatFotaWrite hw z s data).2 := by
  have hbuf := h.buf_le
  unfold luatFotaWrite
  split
  · simpa using h
  · rename_i hongo
    split
    · simpa using h
    · obtain ⟨k, ⟨hst, hle, hk⟩, _⟩ := copyLoop_inv (z := z)
        (P := fun t _ => t.fotaState = .ongo ∧ sent s.dev.log ≤ sent t.dev.log ∧
          Kept hw z (n + (sent t.dev.log - sent s.dev.log)) t)
        (by
          rintro t _ bs ⟨hst, hle, ht⟩ hl
          exact ⟨hst, hle, ht.stage hst hl⟩)
        (by
          rintro t _ ⟨hst, hle, ht⟩ hl hguard
          have hflush := ht.flush (by rw [hst]; decide) hguard
          refine ⟨hst, by rw [flush_sent]; omega, ?_⟩
          rw [flush_sent, show n + (sent t.dev.log + t.buf.length - sent s.dev.log) =
            n + (sent t.dev.log - sent s.dev.log) + t.buf.length by omega]
          exact hflush)
        (data.length + 1) s [] data hbuf (by omega)
        ⟨not_not.mp hongo, Nat.le_refl _, by simpa using h⟩
      generalize copyLoop z (data.length + 1) s data = r at hst hle hk ⊢
      obtain ⟨t, full⟩ := r
      cases full with
      | true => exact hk
      | false =>
        simp only [] at hst hle hk ⊢
        have hmono : sent t.dev.log ≤ sent (Fota.headCheck hw z t).2.dev.log := by
          obtain ⟨es, hes, _⟩ := ((Grows.refl hk.buf_le).headCheck hw z).1
          rw [hes, sent_append]
          omega
        have hchecked := hk.headCheck hst
        rwa [show n + (sent t.dev.log - sent s.dev.log) +
            (sent (Fota.headCheck hw z t).2.dev.log - sent t.dev.log) =
          n + (sent (Fota.headCheck hw z t).2.dev.log - sent s.dev.log) by omega] at hchecked

theorem Kept.doneCheck (hr : Reflected hw) (h : Kept hw z n s) (hb : s.buf = [])
    (hsound : 64 ≤ s.fotaWriteOffset → s.fotaHeadCheck = true ∧
      ((Header.imgLen (s.imghead z) + 64) % 2 ^ 32 ≤ s.fotaWriteOffset →
        Header.imgLen (s.imghead z) % 4 = 0 ∧
          z.base + 64 + Header.imgLen (s.imghead z) ≤ z.density - 0x1000)) :
    Kept hw z n (doneCheck hw z s).2 ∧
      ((doneCheck hw z s).1 = 0 → ImageOk hw z (doneCheck hw z s).2.dev.mem n) := by
  have hz := z.density_le
  rcases doneCheck_cases hw z s with ⟨hne, e⟩ | ⟨e, h64, hlen, hsum⟩
  · rw [e]
    exact ⟨h, fun h0 => absurd h0 hne⟩
  · obtain ⟨hc, hrest⟩ := hsound h64
    obtain ⟨hword, hfit⟩ := hrest hlen
    have hoff := h.offset_eq
    have himg : ImageOk hw z s.dev.mem n := by
      refine ⟨(h.checked hc).1, ?_, ?_⟩
      · rw [Nat.mod_eq_of_lt (by omega)] at hlen
        have : n % 2 ^ 32 ≤ n := Nat.mod_le _ _
        rw [State.imghead] at hlen
        omega
      · rw [imgChecksum_words hr (by rw [slice_length]; exact hword)] at hsum
        exact hsum.symm
    rw [e]
    exact ⟨{ h with accepted := fun _ => ⟨hb, himg, hfit⟩ }, fun _ => himg⟩

theorem Kept.done (hr : Reflected hw) (h : Kept hw z n s) (hsound : Sound z s .done) :
    Kept hw z (n + (sent (luatFotaDone hw z s).2.dev.log - sent s.dev.log))
        (luatFotaDone hw z s).2 ∧
      ((luatFotaDone hw z s).1 = 0 → ImageOk hw z (luatFotaDone hw z s).2.dev.mem
        (n + (sent (luatFotaDone hw z s).2.dev.log - sent s.dev.log))) := by
  have hz := z.density_le
  have he := z.end_le
  have hbuf := h.buf_le
  unfold luatFotaDone
  split
  · rename_i hne
    split
    · exact ⟨by simpa using h, by simp⟩
    · rename_i hguard
      have hguard := Nat.le_of_not_lt hguard
      have hnd : s.fotaState ≠ .done := fun hd => hne (h.accepted hd).1
      rw [doneCheck_dev, flush_sent, Nat.add_sub_cancel_left]
      have hflushed := h.flush hnd hguard
      have hdone := hflushed.doneCheck hr rfl (by
        rw [flush_offset]
        intro h64
        have hmod := Nat.mod_le (s.fotaWriteOffset + s.buf.length) (2 ^ 32)
        obtain ⟨hc, hrest⟩ := hsound (by unfold State.total; omega)
        refine ⟨hc, ?_⟩
        rw [h.flush_imghead hc hguard]
        intro hlen
        exact hrest (by unfold State.total; omega))
      rw [doneCheck_dev] at hdone
      exact hdone
  · rename_i hb
    have hb := not_not.mp hb
    rw [doneCheck_dev, Nat.sub_self, Nat.add_zero]
    have hdone := h.doneCheck hr hb (by
      unfold Sound State.total at hsound
      rwa [hb, List.length_nil, Nat.add_zero] at hsound)
    rw [doneCheck_dev] at hdone
    exact hdone

theorem Kept.fin (h : Kept hw z n s) (isOk : Bool) : Kept hw z n (luatFotaEnd z isOk s).2 := by
  have hz := z.density_le
  have he := z.end_le
  have hhead := z.head_le
  unfold luatFotaEnd
  split
  · rename_i hcond
    obtain ⟨hb, himg, hfit⟩ := h.accepted hcond.1
    simp only []
    split
    · have hflag : z.flagAddr % 0x8000000 = z.density - 0x1000 := by
        unfold Zone.flagAddr
        omega
      have hne : ((s.imghead z).drop 24).take 4 ≠ [] := by
        intro h0
        have := congrArg List.length h0
        simp [State.imghead] at this
      have hlen : (((s.imghead z).drop 24).take 4).length = 4 := by simp [State.imghead]
      have hmem := (tlsFlsWrite_ok h.installed (show z.flagAddr % 0x8000000 < z.density by omega) hne
        (by rw [hlen]; omega)).2
      rw [hflag] at hmem
      -- the header and the body lie below the flag
      have hsame : ∀ a k, a + k ≤ z.density - 0x1000 →
          slice (tlsFlsWrite s.dev z.flagAddr (((s.imghead z).drop 24).take 4)).2.mem a k =
            slice s.dev.mem a k := by
        intro a k hak
        rw [hmem]
        exact slice_overlay_out (.inl hak)
      have hh := hsame z.base 64 (by omega)
      have hbody := hsame (z.base + 64) (Header.imgLen (s.imghead z)) (by omega)
      rw [State.imghead] at hbody hfit
      refine ⟨by simp [h.installed], h.buf_le, h.offset_eq, ?_, ?_, ?_⟩
      · simp only [State.imghead] at hh ⊢
        rw [hh]
        exact h.checked
      · simp only [State.imghead] at hh ⊢
        rw [hh]
        exact h.unchecked
      · intro _
        refine ⟨hb, ?_, ?_⟩
        · unfold ImageOk at himg ⊢
          simp only [State.imghead] at hh hbody ⊢
          rw [hh, hbody]
          exact himg
        · simp only [State.imghead] at hh ⊢
          rw [hh]
          exact hfit
    · exact h
  · exact h

theorem Kept.init (h : Kept hw z n s) (heap : Bool) : Kept hw z 0 (luatFotaInit z heap s).2 := by
  unfold luatFotaInit
  simp only []
  split
  · exact ⟨h.installed, by simp, rfl, by simp, by simp, by simp⟩
  · exact ⟨by simp [h.installed], by simp, rfl, by simp, by simp, by simp⟩

/-! ## Runs -/

theorem reset_kept {d : Dev} (hd : d.insideFls = some z.density) : Kept hw z 0 (State.reset d) :=
  ⟨hd, by simp [State.reset], rfl, by simp [State.reset], by simp [State.reset],
    by simp [State.reset]⟩

theorem step_kept (hr : Reflected hw) {x : Session} {c : Call} (hsound : Sound z x.st c)
    (h : Kept hw z x.written x.st) :
    Kept hw z (x.step hw z c).written (x.step hw z c).st := by
  cases c with
  | init heap => exact h.init heap
  | write data => exact h.write data
  | done => exact (h.done hr hsound).1
  | fin isOk => exact h.fin isOk

/-- For every sequence of calls after reset in which every `luat_fota_done` meets `Sound`: when
`luat_fota_done` returns 0, the zone holds an image no longer than what was written since the last
`luat_fota_init`, and `luat_fota_end` writes the OTA flag only while it does. -/
theorem fota_done_accepts_images (hw : Engine) (hr : Reflected hw) (z : Zone) {d : Dev}
    (hd : d.insideFls = some z.density) {cs : List Call}
    (hsound : ∀ p ∈ trace (Session.step hw z) ⟨State.reset d, 0⟩ cs, Sound z p.1.st p.2) :
    ∀ p ∈ trace (Session.step hw z) ⟨State.reset d, 0⟩ cs,
      (p.2 = .done → (luatFotaDone hw z p.1.st).1 = 0 →
        ImageOk hw z (luatFotaDone hw z p.1.st).2.dev.mem (p.1.step hw z .done).written) ∧
      (∀ isOk, p.2 = .fin isOk → (luatFotaEnd z isOk p.1.st).2.dev.log ≠ p.1.st.dev.log →
        ImageOk hw z p.1.st.dev.mem p.1.written) := by
  intro p hp
  have hkept := (trace_inv (fun x => Kept hw z x.written x.st) (fun x c => Sound z x.st c)
    (fun x c hok h => step_kept hr hok h) hsound (reset_kept hd)).1 p hp
  refine ⟨?_, ?_⟩
  · intro hc h0
    have hs := hsound p hp
    rw [hc] at hs
    exact (hkept.done hr hs).2 h0
  · intro isOk _ hlog
    have hdone : p.1.st.fotaState = .done := by
      by_contra hnd
      exact hlog (by rw [luatFotaEnd, if_neg (fun h => hnd h.1)])
    exact (hkept.accepted hdone).2.1

/-- A full image (type 1) with an empty body. -/
def fullImage : List Byte :=
  leBytes 4 magicNo ++ leBytes 4 1 ++ List.replicate 16 0#8 ++ leBytes 4 0xFFFFFFFF ++
    List.replicate 32 0#8 ++ leBytes 4 0x91CBB43F

/-- Sixty-four bytes that are no header; only the place of `org_checksum` is not zero. -/
def noImage : List Byte := List.replicate 24 0#8 ++ leBytes 4 0xFFFFFFFF ++ List.replicate 36 0#8

/-- The state after `img` has been written to the AIR101 board in one piece. -/
def air101Written (img : List Byte) : State :=
  runs (next softEngine air101) (State.reset air101Dev) [.init true, .write img]

theorem air101Written_staged (img : List Byte) (hle : img.length ≤ 0x1000) :
    Staged air101 (eraseZone air101 air101Dev 1).mem img (air101Written img) := by
  have h := (init_staged (z := air101) (s := State.reset air101Dev) rfl).2
  have hfit : ([] : List Byte).length + img.length ≤ air101.size := by
    rw [List.length_nil, Nat.zero_add]
    exact hle
  exact (h.write softEngine hfit).1

theorem air101Written_head (img : List Byte) (hle : img.length ≤ 0x1000) (h64 : 64 ≤ img.length)
    (hok : HeadOk softEngine (img.take 64)) :
    (air101Written img).fotaHeadCheck = true ∧
      (air101Written img).imghead air101 = img.take 64 ∧
      (air101Written img).dev.mem = overlay (eraseZone air101 air101Dev 1).mem 0x10000 img := by
  have h := (init_staged (z := air101) (s := State.reset air101Dev) rfl).2
  have hfit : ([] : List Byte).length + img.length ≤ air101.size := by
    rw [List.length_nil, Nat.zero_add]
    exact hle
  exact h.write_first hfit rfl h64 hok

theorem air101_sound {img : List Byte} (hle : img.length ≤ 0x1000) (h64 : 64 ≤ img.length)
    (hok : HeadOk softEngine (img.take 64)) (hlen : Header.imgLen (img.take 64) = 0) :
    ∀ p ∈ trace (Session.step softEngine air101) ⟨State.reset air101Dev, 0⟩
      [.init true, .write img, .done], Sound air101 p.1.st p.2 := by
  have hsound : Sound air101 (air101Written img) .done := by
    obtain ⟨hcheck, hhead, _⟩ := air101Written_head img hle h64 hok
    intro _
    refine ⟨hcheck, fun _ => ?_⟩
    rw [hhead, hlen]
    decide
  intro p hp
  simp only [trace, List.mem_cons, List.not_mem_nil, or_false] at hp
  rcases hp with rfl | rfl | rfl
  · trivial
  · trivial
  · exact hsound

theorem fota_done_accepts_images_full :
    (luatFotaDone softEngine air101 (air101Written fullImage)).1 = 0 ∧
      ∀ p ∈ trace (Session.step softEngine air101) ⟨State.reset air101Dev, 0⟩
          [.init true, .write fullImage, .done],
        (p.2 = .done → (luatFotaDone softEngine air101 p.1.st).1 = 0 →
          ImageOk softEngine air101 (luatFotaDone softEngine air101 p.1.st).2.dev.mem
            (p.1.step softEngine air101 .done).written) ∧
        (∀ isOk, p.2 = .fin isOk →
          (luatFotaEnd air101 isOk p.1.st).2.dev.log ≠ p.1.st.dev.log →
          ImageOk softEngine air101 p.1.st.dev.mem p.1.written) := by
  have h := air101Written_staged fullImage (by decide)
  refine ⟨h.done_ok (by decide) (by decide) (by decide +kernel), ?_⟩
  apply fota_done_accepts_images softEngine softEngine_reflected air101 (d := air101Dev) rfl
  exact air101_sound (by decide) (by decide) (by decide +kernel) (by decide)

/-- `luat_fota_done` accepts 64 bytes that `luat_fota_write` has rejected. -/
theorem fota_done_accepts_no_image :
    (luatFotaDone softEngine air101 (air101Written noImage)).1 = 0 ∧
      ¬ ∃ n, ImageOk softEngine air101
        (luatFotaDone softEngine air101 (air101Written noImage)).2.dev.mem n := by
  have h := air101Written_staged noImage (by decide)
  refine ⟨h.done_ok (by decide) (by decide) (by decide +kernel), ?_⟩
  obtain ⟨t, hdone, _, hmem⟩ := h.done softEngine (by decide)
  rintro ⟨n, ⟨hmagic, _⟩, _⟩
  rw [hdone, doneCheck_dev, hmem] at hmagic
  have hhead := slice_overlay (eraseZone air101 air101Dev 1).mem air101.base noImage
  rw [show noImage.length = 64 from rfl] at hhead
  rw [hhead] at hmagic
  exact absurd hmagic (by decide)

end Fota
end Air101
