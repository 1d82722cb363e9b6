import Air101.Fota.Download

/-!
# Fota.Steps

What the pieces of the downloader do, once, for the results about whole runs.

* `flush_mem`: a flush lays the buffer over the cells at its chip offset, or is refused.
* `eraseZone_mem`: the erase loop clears the whole sectors of the zone and nothing else.
* `headCheck_cases`: the outcomes of the header test.
* `doneCheck_cases`: the outcomes of the tests of `luat_fota_done`.
* `copyLoop_inv`: what appending to the buffer and a guarded flush preserve, the copy loop does.
* `copyLoop_full_iff`: when the loop stops at a full zone.
-/

namespace Air101
namespace Fota

open Storage
open Crypto
open Fls

variable {hw : Engine} {z : Zone}

/-! ## Flushes -/

section Flush

variable (z) (s : State)

@[simp] theorem flush_headCheck : (s.flush z).fotaHeadCheck = s.fotaHeadCheck := rfl
@[simp] theorem flush_buf : (s.flush z).buf = [] := rfl
@[simp] theorem flush_offset :
    (s.flush z).fotaWriteOffset = (s.fotaWriteOffset + s.buf.length) % 2 ^ 32 := rfl
@[simp] theorem flush_insideFls : (s.flush z).dev.insideFls = s.dev.insideFls := by
  simp [State.flush]

end Flush

theorem flush_chip (z : Zone) (off : Nat) :
    (z.addr + off) % 2 ^ 32 % 0x8000000 = (z.base + off) % 2 ^ 27 := by
  unfold Zone.addr
  omega

/-- A flush of at most 32 KB lays the buffer over the cells, or is refused and does nothing. -/
theorem flush_mem {s : State} (hd : s.dev.insideFls = some z.density) (hb : s.buf.length ≤ 0x8000) :
    ((z.base + s.fotaWriteOffset) % 2 ^ 27 < z.density ∧
        (s.flush z).dev.mem = overlay s.dev.mem ((z.base + s.fotaWriteOffset) % 2 ^ 27) s.buf) ∨
      (z.density ≤ (z.base + s.fotaWriteOffset) % 2 ^ 27 ∧ (s.flush z).dev.mem = s.dev.mem) := by
  have hz := z.density_le
  by_cases hlt : (z.base + s.fotaWriteOffset) % 2 ^ 27 < z.density
  · refine .inl ⟨hlt, ?_⟩
    by_cases hne : s.buf = []
    · -- an empty write is refused, and an empty overlay changes nothing
      rw [hne, overlay_nil]
      simp [State.flush, tlsFlsWrite, rangeCheck, hd, hne, Ev.ops]
    · have hin : (z.addr + s.fotaWriteOffset) % 2 ^ 32 % 0x8000000 < z.density := by
        rw [flush_chip]
        exact hlt
      have h := (tlsFlsWrite_ok hd hin hne (by rw [flush_chip]; omega)).2
      rw [flush_chip] at h
      exact h
  · refine .inr ⟨by omega, ?_⟩
    have hout : z.density ≤ (z.addr + s.fotaWriteOffset) % 2 ^ 32 % 0x8000000 := by
      rw [flush_chip]
      omega
    unfold State.flush
    simp only [tlsFlsWrite_einval hd hout]
    rfl

theorem flush_overlay {s : State} (hd : s.dev.insideFls = some z.density)
    (hb : s.buf.length ≤ 0x8000) (hoff : z.base + s.fotaWriteOffset < z.density) :
    (s.flush z).dev.mem = overlay s.dev.mem (z.base + s.fotaWriteOffset) s.buf := by
  have hz := z.density_le
  have hmod : (z.base + s.fotaWriteOffset) % 2 ^ 27 = z.base + s.fotaWriteOffset :=
    Nat.mod_eq_of_lt (by omega)
  rcases flush_mem hd hb with ⟨_, h⟩ | ⟨h, _⟩
  · rw [h, hmod]
  · omega

theorem flush_log (z : Zone) (s : State) :
    ∃ ops, (s.flush z).dev.log =
      s.dev.log ++ [.write ((z.addr + s.fotaWriteOffset) % 2 ^ 32) s.buf ops] := by
  obtain ⟨ops, h⟩ := tlsFlsWrite_issue s.dev ((z.addr + s.fotaWriteOffset) % 2 ^ 32) s.buf
  refine ⟨ops, ?_⟩
  unfold State.flush
  simp only [h, Dev.issue_log]

theorem flush_reaches (z : Zone) (s : State) : s.dev.Reaches (s.flush z).dev :=
  tlsFlsWrite_reaches _ _ _

theorem flushRest_cases (z : Zone) (s : State) :
    (s.buf = [] ∧ s.flushRest z = s) ∨ (s.buf ≠ [] ∧ s.flushRest z = s.flush z) := by
  unfold State.flushRest
  split
  · rename_i h
    exact .inl ⟨h, rfl⟩
  · rename_i h
    exact .inr ⟨h, rfl⟩

/-! ## The header test -/

/-- What the header test does: nothing, or it flushes the rest and finds a good header or a bad
one. -/
theorem headCheck_cases (hw : Engine) (z : Zone) (s : State) :
    (¬ (s.fotaHeadCheck = false ∧ 64 ≤ (s.fotaWriteOffset + s.buf.length) % 2 ^ 32) ∧
        headCheck hw z s = (0, s)) ∨
      ((s.fotaHeadCheck = false ∧ 64 ≤ (s.fotaWriteOffset + s.buf.length) % 2 ^ 32) ∧
        ((HeadOk hw ((s.flushRest z).imghead z) ∧
            headCheck hw z s = (0, { s.flushRest z with fotaHeadCheck := true })) ∨
          (¬ HeadOk hw ((s.flushRest z).imghead z) ∧ (headCheck hw z s).1 ≠ 0 ∧
            (headCheck hw z s).2 = s.flushRest z))) := by
  unfold headCheck
  split
  · rename_i hcond
    refine .inr ⟨hcond, ?_⟩
    simp only []
    split
    · rename_i hmagic
      exact .inr ⟨fun hok => hmagic hok.1, by simp, rfl⟩
    · rename_i hmagic
      split
      · rename_i hsum
        exact .inr ⟨fun hok => hsum hok.2, by simp, rfl⟩
      · rename_i hsum
        exact .inl ⟨⟨not_not.mp hmagic, not_not.mp hsum⟩, rfl⟩
  · rename_i hcond
    exact .inl ⟨hcond, rfl⟩

/-! ## The final tests -/

/-- What the tests of `luat_fota_done` do: they fail and change nothing, or all of them passed. -/
theorem doneCheck_cases (hw : Engine) (z : Zone) (s : State) :
    ((doneCheck hw z s).1 ≠ 0 ∧ (doneCheck hw z s).2 = s) ∨
      (doneCheck hw z s = (0, { s with fotaState := .done }) ∧ 64 ≤ s.fotaWriteOffset ∧
        (Header.imgLen (s.imghead z) + 64) % 2 ^ 32 ≤ s.fotaWriteOffset ∧
        imgChecksum hw (slice s.dev.mem (z.base + 64) (Header.imgLen (s.imghead z))) =
          Header.orgChecksum (s.imghead z)) := by
  unfold doneCheck
  simp only []
  split
  · exact .inl ⟨by simp, rfl⟩
  · split
    · exact .inl ⟨by simp, rfl⟩
    · split
      · exact .inl ⟨by simp, rfl⟩
      · split
        · exact .inl ⟨by simp, rfl⟩
        · rename_i h64 hlen hsum
          exact .inr ⟨rfl, Nat.le_of_not_lt h64, Nat.le_of_not_lt hlen, not_not.mp hsum⟩

theorem doneCheck_dev (hw : Engine) (z : Zone) (s : State) : (doneCheck hw z s).2.dev = s.dev := by
  rcases doneCheck_cases hw z s with ⟨_, e⟩ | ⟨e, _⟩
  · rw [e]
  · rw [e]

/-! ## The erase loop -/

@[simp] theorem eraseZone_insideFls (z : Zone) (d : Dev) (n : Nat) :
    (eraseZone z d n).insideFls = d.insideFls := by
  induction n with
  | zero => rfl
  | succ n ih => rw [eraseZone, tlsFlsErase_insideFls, ih]

/-- After `n` sectors the first `n` sectors of the zone are clear and all else is as before. -/
theorem eraseZone_mem {d : Dev} (hd : d.insideFls = some z.density) : ∀ n, n ≤ z.size / 4096 →
    ∀ x, (eraseZone z d n).mem x =
      if z.base ≤ x ∧ x < z.base + n * 4096 then 0xFF#8 else d.mem x := by
  have hz := z.density_le
  have he := z.end_le
  have ha := z.base_aligned
  intro n
  induction n with
  | zero => intro _ x; rw [if_neg (by omega)]; rfl
  | succ n ih =>
    intro hn x
    have hd' : (eraseZone z d n).insideFls = some z.density := by rw [eraseZone_insideFls, hd]
    have hsec : sectorOf (z.base + n * 4096) = z.base + n * 4096 := by unfold sectorOf; omega
    have hstep := tlsFlsErase_ok hd' (show z.base + n * 4096 + 4096 ≤ z.density by omega) (by omega)
    rw [← Nat.add_assoc, hsec] at hstep
    simp only [eraseZone, Zone.addr, hstep, Dev.issue_mem, Ev.ops, run_cons, run_nil, Op.apply]
    rw [ih (by omega)]
    by_cases h1 : z.base + n * 4096 ≤ x ∧ x < z.base + n * 4096 + 4096
    · rw [if_pos h1, if_pos (by lia)]
    · rw [if_neg h1]
      by_cases h2 : z.base ≤ x ∧ x < z.base + n * 4096
      · rw [if_pos h2, if_pos (by lia)]
      · rw [if_neg h2, if_neg (by lia)]

theorem eraseZone_reaches (z : Zone) (d : Dev) (n : Nat) : d.Reaches (eraseZone z d n) := by
  induction n with
  | zero => exact .refl d
  | succ n ih => exact ih.trans (tlsFlsErase_reaches _ _)

theorem eraseZone_log (z : Zone) (d : Dev) (n : Nat) :
    ∃ es, (eraseZone z d n).log = d.log ++ es ∧ ∀ e ∈ es, ∃ sec ops, e = .erase sec ops := by
  induction n with
  | zero => exact ⟨[], by simp [eraseZone]⟩
  | succ n ih =>
    obtain ⟨es, hlog, hes⟩ := ih
    obtain ⟨ops, h⟩ := tlsFlsErase_issue (eraseZone z d n) ((z.addr + n * 4096) / 4096)
    refine ⟨es ++ [.erase ((z.addr + n * 4096) / 4096) ops], ?_, ?_⟩
    · rw [eraseZone, h, Dev.issue_log, hlog, List.append_assoc]
    · intro e he
      rcases List.mem_append.mp he with he | he
      · exact hes e he
      · exact ⟨_, ops, List.mem_singleton.mp he⟩

/-! ## The copy loop -/

/-- Bytes put into the buffer. -/
def State.stage (s : State) (bs : List Byte) : State := { s with buf := s.buf ++ bs }

theorem pass_length {l n : Nat} (hl : l ≤ 0x8000) (hn : 0 < n) :
    l + min (0x8000 - l) n ≤ 0x8000 ∧
      (l + min (0x8000 - l) n < 0x8000 → min (0x8000 - l) n = n) ∧
      (l < 0x8000 → 0 < min (0x8000 - l) n) := by
  omega

/-- A relation between the state and the bytes taken so far that survives filling the buffer and a
guarded flush of a full buffer survives the copy loop. It takes a prefix of the data, all of it
unless the zone is full. -/
theorem copyLoop_inv {P : State → List Byte → Prop}
    (hstage : ∀ s pre bs, P s pre → s.buf.length + bs.length ≤ 0x8000 → P (s.stage bs) (pre ++ bs))
    (hflush : ∀ s pre, P s pre → s.buf.length = 0x8000 →
      (s.fotaWriteOffset + s.buf.length) % 2 ^ 32 ≤ z.size → P (s.flush z) pre) :
    ∀ (fuel : Nat) (s : State) (pre data : List Byte), s.buf.length ≤ 0x8000 →
      data.length + s.buf.length / 0x8000 ≤ fuel → P s pre →
      ∃ k, P (copyLoop z fuel s data).1 (pre ++ data.take k) ∧
        (copyLoop z fuel s data).1.buf.length ≤ 0x8000 ∧
        ((copyLoop z fuel s data).2 = false → data.length ≤ k) := by
  intro fuel
  induction fuel with
  | zero =>
    intro s pre data hl hf hp
    exact ⟨0, by simpa [copyLoop] using hp, hl, fun _ => by omega⟩
  | succ fuel ih =>
    intro s pre data hl hf hp
    unfold copyLoop
    split
    · rename_i hnil
      exact ⟨0, by simpa using hp, hl, fun _ => by simp [hnil]⟩
    · rename_i hne
      have hpos : 0 < data.length := List.length_pos_iff.mpr hne
      obtain ⟨hfit, hall, hsome⟩ := pass_length hl hpos
      simp only []
      generalize min (0x8000 - s.buf.length) data.length = r at hfit hall hsome ⊢
      have hp1 : P (s.stage (data.take r)) (pre ++ data.take r) :=
        hstage s pre _ hp (by rw [List.length_take]; omega)
      have hl1 : (s.stage (data.take r)).buf.length ≤ 0x8000 := by
        simp only [State.stage, List.length_append, List.length_take]
        omega
      -- what the recursive call takes comes behind the `r` bytes of this pass
      have hjoin : ∀ k, pre ++ data.take r ++ (data.drop r).take k = pre ++ data.take (r + k) := by
        intro k
        rw [List.append_assoc, ← List.take_add]
      split
      · rename_i hfull
        split
        · exact ⟨r, hp1, hl1, by simp⟩
        · rename_i hguard
          have hp2 := hflush (s.stage (data.take r)) _ hp1 (Nat.le_antisymm hl1 hfull)
            (by simpa [State.stage] using hguard)
          obtain ⟨k, hk, hkl, hkall⟩ := ih _ _ (data.drop r) (by simp)
            (by simp only [flush_buf, List.length_nil, List.length_drop]; omega) hp2
          exact ⟨r + k, by rw [← hjoin]; exact hk, hkl, fun h => by
            have := hkall h
            rw [List.length_drop] at this
            omega⟩
      · rename_i hpart
        have hlt : s.buf.length + (data.take r).length < 0x8000 := by
          simpa [State.stage] using hpart
        rw [List.length_take] at hlt
        obtain ⟨k, hk, hkl, hkall⟩ := ih (s.stage (data.take r)) _ (data.drop r) hl1
          (by simp only [State.stage, List.length_append, List.length_take, List.length_drop]; omega) hp1
        exact ⟨r + k, by rw [← hjoin]; exact hk, hkl, fun h => by
          have := hkall h
          rw [List.length_drop] at this
          omega⟩

theorem copyLoop_stage {s : State} {data : List Byte} (h : s.buf.length + data.length < 0x8000)
    (fuel : Nat) : copyLoop z (fuel + 1) s data = (s.stage data, false) := by
  unfold copyLoop
  split
  · rename_i hnil
    simp [hnil, State.stage]
  · have hmin : min (0x8000 - s.buf.length) data.length = data.length := by omega
    simp only [hmin, List.take_length, List.drop_length, List.length_append]
    rw [if_neg (by omega)]
    cases fuel <;> rfl

/-- The number of bytes that have gone through: flushed and still staged. -/
def State.total (s : State) : Nat := s.fotaWriteOffset + s.buf.length

/-- Whether the copy loop stops at a full zone is decided by the last whole buffer. -/
theorem copyLoop_full_iff : ∀ (fuel : Nat) (s : State) (data : List Byte), s.buf.length ≤ 0x8000 →
    data.length + s.buf.length / 0x8000 ≤ fuel → s.fotaWriteOffset ≤ z.size →
    ((copyLoop z fuel s data).2 = true ↔ data ≠ [] ∧ 0x8000 ≤ s.buf.length + data.length ∧
      z.size < s.fotaWriteOffset + (s.buf.length + data.length) / 0x8000 * 0x8000) := by
  have hz := z.density_le
  have he := z.end_le
  intro fuel
  induction fuel with
  | zero =>
    intro s data hl hf _
    have hnil : data = [] := List.length_eq_zero_iff.mp (by omega)
    simp [copyLoop, hnil]
  | succ fuel ih =>
    intro s data hl hf hoff
    unfold copyLoop
    split
    · rename_i hnil
      simp [hnil]
    · rename_i hne
      have hpos : 0 < data.length := List.length_pos_iff.mpr hne
      obtain ⟨hfit, hall, hsome⟩ := pass_length hl hpos
      have hmin : min (0x8000 - s.buf.length) data.length ≤ data.length := Nat.min_le_right _ _
      simp only []
      generalize min (0x8000 - s.buf.length) data.length = r at hfit hall hsome hmin ⊢
      have htake : (data.take r).length = r := by rw [List.length_take]; omega
      simp only [List.length_append, htake, ne_eq, hne, not_false_eq_true, true_and]
      split
      · rename_i hfull
        have hr : s.buf.length + r = 0x8000 := Nat.le_antisymm hfit hfull
        rw [hr, Nat.mod_eq_of_lt (by omega)]
        split
        · simp only [true_iff]
          omega
        · rename_i hguard
          have hdiv : (s.buf.length + data.length) / 0x8000 * 0x8000 =
              0x8000 + (data.length - r) / 0x8000 * 0x8000 := by
            rw [show s.buf.length + data.length = 0x8000 + (data.length - r) by omega,
              Nat.add_div_left _ (by omega), Nat.succ_mul, Nat.add_comm]
          have hoff1 : (s.fotaWriteOffset + 0x8000) % 2 ^ 32 = s.fotaWriteOffset + 0x8000 :=
            Nat.mod_eq_of_lt (by omega)
          rw [ih _ _ (by simp) (by simp only [flush_buf, List.length_nil, List.length_drop]; omega)
            (by simp only [flush_offset, List.length_append, htake, hr, hoff1]; omega)]
          simp only [flush_buf, flush_offset, List.length_nil, List.length_append, htake, hr, hoff1,
            hdiv, List.length_drop, Nat.zero_add]
          constructor
          · rintro ⟨_, h1, h2⟩
            omega
          · rintro ⟨h1, h2⟩
            have h3 : 0x8000 ≤ data.length - r := by
              by_contra hlt
              rw [Nat.div_eq_of_lt (by omega)] at h2
              omega
            refine ⟨?_, h3, by omega⟩
            intro h0
            have := congrArg List.length h0
            simp only [List.length_drop, List.length_nil] at this
            omega
      · rename_i hpart
        have hrn : r = data.length := hall (by omega)
        have hdrop : data.drop r = [] := by rw [hrn, List.drop_length]
        have hstop := ih (s.stage (data.take r)) []
          (by simp only [State.stage, List.length_append, htake]; omega)
          (by simp only [State.stage, List.length_nil, List.length_append, htake]; omega) hoff
        simp only [State.stage, ne_eq, not_true_eq_false, false_and] at hstop
        rw [hdrop, hstop, false_iff]
        intro h1
        omega

end Fota
end Air101
