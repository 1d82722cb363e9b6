import Air101.Fota.Bounds

/-!
# Fota.Chunks

How the caller cuts an image into `luat_fota_write` calls does not matter. `Staged` relates the
state to the bytes received so far: a first part of them is in flash, the rest is in the buffer.

* `Staged.write`: a write that fits in the zone adds its bytes and returns 0 on a valid header.
* `Staged.done`: `luat_fota_done` puts the rest into flash, and its code depends on nothing else.
-/

namespace Air101
namespace Fota

open Storage
open Crypto
open Fls

variable {hw : Engine} {z : Zone} {m1 : Nat → Byte} {s : State} {pre : List Byte}

/-- The bytes `pre` have been received since the zone had the cells `m1`. -/
structure Staged (z : Zone) (m1 : Nat → Byte) (pre : List Byte) (s : State) : Prop where
  installed : s.dev.insideFls = some z.density
  ongo : s.fotaState = .ongo
  alloc : s.fotaBuffer = true
  buf_le : s.buf.length ≤ 0x8000
  offset_le : s.fotaWriteOffset ≤ z.size
  flushed : ∃ fl, pre = fl ++ s.buf ∧ fl.length = s.fotaWriteOffset ∧
    s.dev.mem = overlay m1 z.base fl

theorem Staged.total_eq (h : Staged z m1 pre s) : s.total = pre.length := by
  obtain ⟨fl, hpre, hfl, _⟩ := h.flushed
  rw [hpre, List.length_append, hfl, State.total]

theorem Staged.stage (h : Staged z m1 pre s) {bs : List Byte} (hl : s.buf.length + bs.length ≤ 0x8000) :
    Staged z m1 (pre ++ bs) (s.stage bs) := by
  obtain ⟨fl, hpre, hfl, hmem⟩ := h.flushed
  refine { h with buf_le := by simpa [State.stage] using hl, flushed := ⟨fl, ?_, hfl, hmem⟩ }
  rw [hpre, List.append_assoc]
  rfl

theorem Staged.flush (h : Staged z m1 pre s) (ht : s.total ≤ z.size) :
    Staged z m1 pre (s.flush z) := by
  have hz := z.density_le
  have he := z.end_le
  have hoff := h.offset_le
  obtain ⟨fl, hpre, hfl, hmem⟩ := h.flushed
  unfold State.total at ht
  have hmod : (s.fotaWriteOffset + s.buf.length) % 2 ^ 32 = s.fotaWriteOffset + s.buf.length :=
    Nat.mod_eq_of_lt (by omega)
  refine ⟨by simp [h.installed], h.ongo, h.alloc, by simp, by rw [flush_offset, hmod]; exact ht, ?_⟩
  refine ⟨fl ++ s.buf, by simp [hpre], by rw [flush_offset, hmod, List.length_append, hfl], ?_⟩
  rw [flush_overlay h.installed h.buf_le (by omega), hmem, overlay_append, hfl]

theorem Staged.flush_mem_eq (h : Staged z m1 pre s) (ht : s.total ≤ z.size) :
    (s.flush z).dev.mem = overlay m1 z.base pre := by
  obtain ⟨fl, hpre, _, hmem⟩ := (h.flush ht).flushed
  rw [flush_buf, List.append_nil] at hpre
  rw [hmem, hpre]

theorem Staged.mem_eq (h : Staged z m1 pre s) (hb : s.buf = []) :
    s.dev.mem = overlay m1 z.base pre := by
  obtain ⟨fl, hpre, _, hmem⟩ := h.flushed
  rw [hb, List.append_nil] at hpre
  rw [hmem, hpre]

theorem Staged.copyLoop (h : Staged z m1 pre s) {data : List Byte}
    (hfit : pre.length + data.length ≤ z.size) :
    (copyLoop z (data.length + 1) s data).2 = false ∧
      Staged z m1 (pre ++ data) (copyLoop z (data.length + 1) s data).1 ∧
      (copyLoop z (data.length + 1) s data).1.fotaHeadCheck = s.fotaHeadCheck := by
  have hz := z.density_le
  have he := z.end_le
  have hbuf := h.buf_le
  have htot := h.total_eq
  unfold State.total at htot
  have hnot : (Fota.copyLoop z (data.length + 1) s data).2 = false := by
    rw [← Bool.not_eq_true]
    intro hfull
    have hstop := (copyLoop_full_iff _ s data hbuf (by omega) h.offset_le).mp hfull
    omega
  obtain ⟨k, hk, _, hall⟩ := copyLoop_inv (z := z)
    (P := fun t q => Staged z m1 q t ∧ t.fotaHeadCheck = s.fotaHeadCheck)
    (fun t q bs ht hl => ⟨ht.1.stage hl, ht.2⟩)
    (fun t q ht hl hguard => ⟨ht.1.flush (by
      have hoff := ht.1.offset_le
      rw [Nat.mod_eq_of_lt (by omega)] at hguard
      exact hguard), ht.2⟩)
    (data.length + 1) s pre data hbuf (by omega) ⟨h, rfl⟩
  rw [List.take_of_length_le (hall hnot)] at hk
  exact ⟨hnot, hk⟩

theorem Staged.flushRest (h : Staged z m1 pre s) (ht : s.total ≤ z.size) :
    Staged z m1 pre (s.flushRest z) ∧ (s.flushRest z).dev.mem = overlay m1 z.base pre := by
  rcases flushRest_cases z s with ⟨hb, e⟩ | ⟨_, e⟩
  · rw [e]; exact ⟨h, h.mem_eq hb⟩
  · rw [e]; exact ⟨h.flush ht, h.flush_mem_eq ht⟩

theorem Staged.headCheck (h : Staged z m1 pre s) (ht : s.total ≤ z.size) :
    Staged z m1 pre (headCheck hw z s).2 := by
  obtain ⟨hst, _⟩ := h.flushRest ht
  rcases headCheck_cases hw z s with ⟨_, e⟩ | ⟨_, ⟨_, e⟩ | ⟨_, _, e⟩⟩
  · rw [e]; exact h
  · rw [e]; exact { hst with }
  · rw [e]; exact hst

theorem Staged.flushRest_imghead (h : Staged z m1 pre s) (ht : s.total ≤ z.size)
    (hlen : 64 ≤ pre.length) : (s.flushRest z).imghead z = pre.take 64 := by
  have : slice (overlay m1 z.base pre) (z.base + 0) 64 = (pre.drop 0).take 64 :=
    slice_overlay_in (by omega)
  rw [State.imghead, (h.flushRest ht).2]
  simpa using this

theorem Staged.headCheck_ok (h : Staged z m1 pre s) (ht : s.total ≤ z.size)
    (hok : 64 ≤ pre.length → HeadOk hw (pre.take 64)) :
    (Fota.headCheck hw z s).1 = 0 ∧
      (64 ≤ pre.length → (Fota.headCheck hw z s).2.fotaHeadCheck = true) := by
  have hz := z.density_le
  have he := z.end_le
  have htot := h.total_eq
  rcases headCheck_cases hw z s with ⟨hno, e⟩ | ⟨hcond, ⟨_, e⟩ | ⟨hbad, _, _⟩⟩
  · rw [e]
    refine ⟨rfl, fun hlen => ?_⟩
    by_contra hc
    refine hno ⟨by simpa using hc, ?_⟩
    unfold State.total at htot ht
    rw [Nat.mod_eq_of_lt (by omega)]
    omega
  · rw [e]
    exact ⟨rfl, fun _ => rfl⟩
  · have hlen : 64 ≤ pre.length := by
      rw [← htot]
      exact Nat.le_trans hcond.2 (Nat.mod_le _ _)
    rw [h.flushRest_imghead ht hlen] at hbad
    exact absurd (hok hlen) hbad

/-- A write that fits in the zone is the copy loop, which does not stop, and the header test. -/
theorem Staged.write_eq (h : Staged z m1 pre s) (hw : Engine) {data : List Byte}
    (hfit : pre.length + data.length ≤ z.size) :
    ∃ t, Staged z m1 (pre ++ data) t ∧ t.fotaHeadCheck = s.fotaHeadCheck ∧ t.total ≤ z.size ∧
      luatFotaWrite hw z s data = Fota.headCheck hw z t := by
  obtain ⟨hnot, hst, hhc⟩ := h.copyLoop hfit
  unfold luatFotaWrite
  rw [if_neg (not_not.mpr h.ongo), if_neg (by simp [h.alloc])]
  generalize Fota.copyLoop z (data.length + 1) s data = r at hnot hst hhc ⊢
  obtain ⟨t, full⟩ := r
  subst hnot
  refine ⟨t, hst, hhc, ?_, rfl⟩
  rw [hst.total_eq, List.length_append]
  exact hfit

/-- A write that fits in the zone adds its bytes; it returns 0 unless it sees a bad header. -/
theorem Staged.write (h : Staged z m1 pre s) (hw : Engine) {data : List Byte}
    (hfit : pre.length + data.length ≤ z.size) :
    Staged z m1 (pre ++ data) (luatFotaWrite hw z s data).2 ∧
      ((64 ≤ (pre ++ data).length → HeadOk hw ((pre ++ data).take 64)) →
        (luatFotaWrite hw z s data).1 = 0 ∧
          (64 ≤ (pre ++ data).length → (luatFotaWrite hw z s data).2.fotaHeadCheck = true)) := by
  obtain ⟨t, hst, _, ht, e⟩ := h.write_eq hw hfit
  rw [e]
  exact ⟨hst.headCheck ht, hst.headCheck_ok ht⟩

/-- The first write that completes a valid header puts everything into flash and checks it. -/
theorem Staged.write_first (h : Staged z m1 pre s) {data : List Byte}
    (hfit : pre.length + data.length ≤ z.size) (hc : s.fotaHeadCheck = false)
    (hlen : 64 ≤ (pre ++ data).length) (hok : HeadOk hw ((pre ++ data).take 64)) :
    (luatFotaWrite hw z s data).2.fotaHeadCheck = true ∧
      (luatFotaWrite hw z s data).2.imghead z = (pre ++ data).take 64 ∧
      (luatFotaWrite hw z s data).2.dev.mem = overlay m1 z.base (pre ++ data) := by
  obtain ⟨t, hst, hhc, ht, e⟩ := h.write_eq hw hfit
  have hz := z.density_le
  have he := z.end_le
  have htot := hst.total_eq
  have hhead := hst.flushRest_imghead ht hlen
  rw [e]
  rcases headCheck_cases hw z t with ⟨hno, _⟩ | ⟨_, ⟨_, e⟩ | ⟨hbad, _, _⟩⟩
  · refine absurd ⟨hhc.trans hc, ?_⟩ hno
    unfold State.total at htot ht
    rw [Nat.mod_eq_of_lt (by omega)]
    omega
  · rw [e]
    exact ⟨rfl, hhead, (hst.flushRest ht).2⟩
  · rw [hhead] at hbad
    exact absurd hok hbad

theorem Staged.writes {img : List Byte} (hle : img.length ≤ z.size) (hok : HeadOk hw (img.take 64)) :
    ∀ (chunks : List (List Byte)) (pre : List Byte) (s : State), Staged z m1 pre s →
      pre ++ chunks.flatten = img →
      (∀ p ∈ trace (next hw z) s (chunks.map .write), (call hw z p.1 p.2).1 = 0) ∧
        Staged z m1 img (runs (next hw z) s (chunks.map .write)) := by
  intro chunks
  induction chunks with
  | nil =>
    intro pre s h himg
    rw [List.flatten_nil, List.append_nil] at himg
    exact ⟨by simp [trace], himg ▸ h⟩
  | cons data chunks ih =>
    intro pre s h himg
    rw [List.flatten_cons, ← List.append_assoc] at himg
    have hlen := congrArg List.length himg
    rw [List.length_append, List.length_append] at hlen
    have hhead : 64 ≤ (pre ++ data).length → HeadOk hw ((pre ++ data).take 64) := by
      intro h64
      rw [← himg, List.take_append_of_le_length h64] at hok
      exact hok
    obtain ⟨hst, hret⟩ := h.write hw (show pre.length + data.length ≤ z.size by omega)
    obtain ⟨hrest, hend⟩ := ih (pre ++ data) _ hst himg
    refine ⟨?_, hend⟩
    intro p hp
    rcases List.mem_cons.mp hp with rfl | hp
    · exact (hret hhead).1
    · exact hrest p hp

theorem Staged.writes_checked {img : List Byte} (hle : img.length ≤ z.size)
    (hok : HeadOk hw (img.take 64)) (h64 : 64 ≤ img.length) :
    ∀ (chunks : List (List Byte)) (pre : List Byte) (s : State), Staged z m1 pre s →
      pre ++ chunks.flatten = img → chunks ≠ [] →
      (runs (next hw z) s (chunks.map .write)).fotaHeadCheck = true := by
  intro chunks
  induction chunks with
  | nil => intro pre s _ _ hne; exact absurd rfl hne
  | cons data chunks ih =>
    intro pre s h himg _
    rw [List.flatten_cons, ← List.append_assoc] at himg
    have hlen := congrArg List.length himg
    rw [List.length_append, List.length_append] at hlen
    obtain ⟨hst, hret⟩ := h.write hw (show pre.length + data.length ≤ z.size by omega)
    cases chunks with
    | nil =>
      -- the last write has the whole image before it
      rw [List.flatten_nil, List.append_nil] at himg
      rw [himg] at hret
      exact (hret fun _ => hok).2 h64
    | cons data' chunks => exact ih (pre ++ data) _ hst himg (List.cons_ne_nil _ _)

theorem doneCheck_code {s t : State} (ho : s.fotaWriteOffset = t.fotaWriteOffset)
    (hm : s.dev.mem = t.dev.mem) : (doneCheck hw z s).1 = (doneCheck hw z t).1 := by
  have hhead : s.imghead z = t.imghead z := by rw [State.imghead, State.imghead, hm]
  unfold doneCheck
  simp only [ho, hm, hhead]
  repeat' split
  all_goals rfl

/-- `luat_fota_done` on a whole image: it makes the final tests on the flash with the image in it. -/
theorem Staged.done (h : Staged z m1 pre s) (hw : Engine) (ht : pre.length ≤ z.size) :
    ∃ t, luatFotaDone hw z s = doneCheck hw z t ∧ t.fotaWriteOffset = pre.length ∧
      t.dev.mem = overlay m1 z.base pre := by
  have hz := z.density_le
  have he := z.end_le
  have htot := h.total_eq
  unfold luatFotaDone
  split
  · rw [← htot] at ht
    have hmod : (s.fotaWriteOffset + s.buf.length) % 2 ^ 32 = s.total :=
      Nat.mod_eq_of_lt (by unfold State.total at ht; omega)
    rw [hmod, if_neg (by omega)]
    exact ⟨s.flush z, rfl, by rw [flush_offset, hmod, htot], h.flush_mem_eq ht⟩
  · rename_i hb
    have hb := not_not.mp hb
    refine ⟨s, rfl, ?_, h.mem_eq hb⟩
    rw [← htot, State.total, hb, List.length_nil, Nat.add_zero]

/-- `luat_fota_done` accepts an image whose length and body checksum agree with its header. -/
theorem Staged.done_ok (h : Staged z m1 pre s) (hle : pre.length ≤ z.size)
    (hlen : 64 + Header.imgLen (pre.take 64) ≤ pre.length)
    (hsum : imgChecksum hw ((pre.drop 64).take (Header.imgLen (pre.take 64))) =
      Header.orgChecksum (pre.take 64)) : (luatFotaDone hw z s).1 = 0 := by
  have hz := z.density_le
  have he := z.end_le
  obtain ⟨t, hdone, hoff, hmem⟩ := h.done hw hle
  have hhead : t.imghead z = pre.take 64 := by
    have : slice (overlay m1 z.base pre) (z.base + 0) 64 = (pre.drop 0).take 64 :=
    slice_overlay_in (by omega)
    rw [State.imghead, hmem]
    simpa using this
  have hbody : slice t.dev.mem (z.base + 64) (Header.imgLen (pre.take 64)) =
      (pre.drop 64).take (Header.imgLen (pre.take 64)) := by
    rw [hmem]
    exact slice_overlay_in hlen
  rw [hdone]
  unfold doneCheck
  simp only [hhead, hoff, hbody, hsum]
  rw [Nat.mod_eq_of_lt (by omega), if_neg (by omega), if_neg (by omega), if_neg (by omega),
    if_neg (by simp)]

theorem init_staged (hd : s.dev.insideFls = some z.density) :
    (luatFotaInit z true s).1 = 0 ∧
      Staged z (eraseZone z s.dev (z.size / 4096)).mem [] (luatFotaInit z true s).2 := by
  unfold luatFotaInit
  simp only [Bool.true_eq_false, and_false, if_false, true_and]
  exact ⟨by simp [hd], rfl, rfl, by simp, Nat.zero_le _, [], by simp⟩

/-- For every image that fits in the zone and has a valid header, and every way of cutting it into
chunks: every call returns 0, `luat_fota_done` returns what it returns for the image in one piece,
the image is in flash, and no byte outside the zone has changed. -/
theorem fota_chunking_independent (hw : Engine) (z : Zone) {s : State}
    (hd : s.dev.insideFls = some z.density) {img : List Byte} (hle : img.length ≤ z.size)
    (hok : HeadOk hw (img.take 64)) {chunks : List (List Byte)} (hchunks : chunks.flatten = img) :
    (luatFotaInit z true s).1 = 0 ∧
      let s1 := (luatFotaInit z true s).2
      let s2 := runs (next hw z) s1 (chunks.map .write)
      (∀ p ∈ trace (next hw z) s1 (chunks.map .write), (call hw z p.1 p.2).1 = 0) ∧
      (luatFotaDone hw z s2).1 = (luatFotaDone hw z (luatFotaWrite hw z s1 img).2).1 ∧
      slice (luatFotaDone hw z s2).2.dev.mem z.base img.length = img ∧
      ∀ x, x < z.base ∨ z.base + z.size ≤ x →
        (luatFotaDone hw z s2).2.dev.mem x = s.dev.mem x := by
  obtain ⟨hret, h1⟩ := init_staged (z := z) hd
  refine ⟨hret, ?_⟩
  obtain ⟨hcodes, h2⟩ := Staged.writes hle hok chunks [] _ h1 hchunks
  obtain ⟨-, h3⟩ := Staged.writes hle hok [img] [] _ h1 (by simp)
  obtain ⟨t2, hdone2, hoff2, hmem2⟩ := h2.done hw hle
  obtain ⟨t3, hdone3, hoff3, hmem3⟩ := h3.done hw hle
  have hone : runs (next hw z) (luatFotaInit z true s).2 ([img].map .write) =
      (luatFotaWrite hw z (luatFotaInit z true s).2 img).2 := rfl
  rw [hone] at hdone3
  refine ⟨hcodes, ?_, ?_, ?_⟩
  · rw [hdone2, hdone3]
    exact doneCheck_code (hoff2.trans hoff3.symm) (hmem2.trans hmem3.symm)
  · rw [hdone2, doneCheck_dev, hmem2, slice_overlay]
  · intro x hx
    rw [hdone2, doneCheck_dev, hmem2, overlay_out (by omega),
      eraseZone_mem hd _ (Nat.le_refl _), if_neg (by omega)]

/-- A valid header in front of an empty body. -/
def emptyImage : List Byte := leBytes 4 magicNo ++ List.replicate 56 0#8 ++ leBytes 4 0x1917EAC2

theorem fota_chunking_independent_empty :
    slice (luatFotaDone softEngine air101 (runs (next softEngine air101)
      (luatFotaInit air101 true (State.reset air101Dev)).2
      ([emptyImage.take 10, [], emptyImage.drop 10].map .write))).2.dev.mem 0x10000 64 = emptyImage :=
  (fota_chunking_independent softEngine air101 (s := State.reset air101Dev) rfl
    (show emptyImage.length ≤ air101.size by decide) (by decide +kernel) (by decide)).2.2.2.1

end Fota
end Air101
