import Air101.Fota.Repeat
import Air101.Fota.Unfinished

/-!
# Fota.Restart

The check at boot, cut off by a power loss and started again. Every run decompresses the same body
and so makes the same driver calls, whatever an earlier run has left in the script partition; the
header goes last.

* `Pending.attempt`: what a run that is cut off leaves to the next one.
* `check_agree`: two runs that come to their end, from any flashes on which the update is pending.
* `script_update_restartable`: any number of cuts does not show in the scripts or in the header.
-/

namespace Air101
namespace Fota

open Storage
open Crypto
open Fls

/-! ## The check at boot -/

/-- The flash as the check at boot finds it. -/
def Board.device (bd : Board) (m : Nat → Byte) : Dev := ⟨some bd.density, m, []⟩

/-- The script bytes in the OTA zone of the flash `m`, with their offsets in the script partition:
those of a full image. -/
def Carried (bd : Board) (t : Tinfl) (m : Nat → Byte) (w : Byte × Nat) : Prop :=
  Header.imgType (slice m bd.base 64) = 1 ∧
    ∃ n, w ∈ Parser.reset.script (rounds t (bd.base + 64 + 10) (Header.imgLen (slice m bd.base 64))
      m n t.init 0 0).flatten

/-- The sectors they are addressed to. -/
def ScriptSector (bd : Board) (t : Tinfl) (m : Nat → Byte) (x : Nat) : Prop :=
  ∃ w, Carried bd t m w ∧ (bd.luadbAddr + w.2) % 0x8000000 / 4096 = x / 4096

/-- An update in the OTA zone of the flash `m`: its header is accepted, its scripts are not
addressed to the sector of the header, and its body is decompressed alike whatever the script
sectors hold. -/
structure Update (hw : Engine) (bd : Board) (t : Tinfl) (m : Nat → Byte) : Prop where
  accepted : HeadOk hw (slice m bd.base 64)
  apart : ∀ x, bd.base ≤ x → x < bd.base + 4096 → ¬ ScriptSector bd t m x
  body : Deterministic t (bd.base + 64 + 10) (Header.imgLen (slice m bd.base 64)) m
    (ScriptSector bd t m)

/-- A run of the check at boot that ends with a power cut: whether the decompressor can be
allocated, how many rounds it makes, and how many commands reach the flash. -/
structure Attempt where
  heap : Bool
  fuel : Nat
  cut : Nat

/-- The cells after it. -/
def attempt (hw : Engine) (bd : Board) (t : Tinfl) (m : Nat → Byte) (x : Attempt) : Nat → Byte :=
  run m ((commands (checkOtaZone hw bd t x.heap x.fuel (bd.device m)).1.log).take x.cut)

/-- The flash `m'` differs from `m` in the script sectors only. -/
def Pending (bd : Board) (t : Tinfl) (m m' : Nat → Byte) : Prop :=
  ∀ x, ¬ ScriptSector bd t m x → m' x = m x

section Check

variable {hw : Engine} {bd : Board} {t : Tinfl} {m : Nat → Byte}

theorem clean_eq {d : Dev} (hd : d.insideFls = some bd.density) :
    clean bd d = d.issue (.erase (bd.addr / 4096) [.erase bd.base 4096]) := by
  have hend := bd.end_le
  have hdens := bd.density_le
  have hal := bd.base_aligned
  rw [clean, Zone.addr, tlsFlsErase_ok hd (by omega) (by omega)]
  rw [show sectorOf bd.base = bd.base by unfold sectorOf; omega]

theorem clean_mem {d : Dev} (hd : d.insideFls = some bd.density) (x : Nat) :
    (clean bd d).mem x = if bd.base ≤ x ∧ x < bd.base + 4096 then 0xFF#8 else d.mem x := by
  rw [clean_eq hd]
  rfl

theorem Pending.head (h : Update hw bd t m) {m' : Nat → Byte} (hm : Pending bd t m m') :
    slice m' bd.base 64 = slice m bd.base 64 := by
  apply slice_congr
  intro i hi
  exact hm _ (h.apart _ (by omega) (by omega))

theorem check_eq (h : Update hw bd t m) {m' : Nat → Byte} (hm : Pending bd t m m') (fuel : Nat) :
    checkOtaZone hw bd t true fuel (bd.device m') =
      if Header.imgType (slice m bd.base 64) = 1 then
        match tinflLoop bd.luadbAddr t (bd.base + 64 + 10) (Header.imgLen (slice m bd.base 64)) fuel
          ⟨bd.device m', Parser.reset⟩ t.init 0 0 with
        | (g, some _) => (clean bd g.dev, true)
        | (g, none) => (g.dev, false)
      else (clean bd (bd.device m'), true) := by
  obtain ⟨hmagic, hsum⟩ := h.accepted
  unfold checkOtaZone inflateScripts
  rw [show (bd.device m').mem = m' from rfl, hm.head h]
  have hset : Header.magic (slice m bd.base 64) ≠ 0xFFFFFFFF := by
    rw [hmagic]
    decide
  refine (if_neg hset).trans ?_
  refine (if_neg (not_not_intro hmagic)).trans ?_
  exact (if_neg (not_not_intro hsum)).trans rfl

theorem rounds_sectors (htype : Header.imgType (slice m bd.base 64) = 1) (n x : Nat)
    (hx : InSectors bd.luadbAddr (Parser.reset.script (rounds t (bd.base + 64 + 10)
      (Header.imgLen (slice m bd.base 64)) m n t.init 0 0).flatten) x) : ScriptSector bd t m x := by
  obtain ⟨w, hw, e⟩ := hx
  exact ⟨w, ⟨htype, n, hw⟩, e⟩

/-- A run of the check at boot: writes in script sectors, and the erase of the header's sector once
it has come to its end. -/
theorem check_frame (h : Update hw bd t m) {m' : Nat → Byte} (hm : Pending bd t m m') (fuel : Nat) :
    ∃ d, Within (ScriptSector bd t m) (bd.device m') d ∧ d.insideFls = some bd.density ∧
      (checkOtaZone hw bd t true fuel (bd.device m')).1 =
        if (checkOtaZone hw bd t true fuel (bd.device m')).2 then clean bd d else d := by
  rw [check_eq h hm]
  split
  · rename_i htype
    have hframe := tinflLoop_frame bd.luadbAddr bd.density_le h.body fuel
      ⟨bd.device m', Parser.reset⟩ t.init 0 0 reset_ready.wf rfl .start hm (rounds_sectors htype)
    have hins := tinflLoop_insideFls bd.luadbAddr t (bd.base + 64 + 10)
      (Header.imgLen (slice m bd.base 64)) fuel ⟨bd.device m', Parser.reset⟩ t.init 0 0
      reset_ready.wf
    generalize tinflLoop bd.luadbAddr t (bd.base + 64 + 10) (Header.imgLen (slice m bd.base 64)) fuel
      ⟨bd.device m', Parser.reset⟩ t.init 0 0 = r at hframe hins ⊢
    obtain ⟨g, fin⟩ := r
    cases fin with
    | none => exact ⟨g.dev, hframe, hins, rfl⟩
    | some ret => exact ⟨g.dev, hframe, hins, rfl⟩
  · exact ⟨bd.device m', .refl _ _, rfl, rfl⟩

/-- The update has been done on some pending flash, and the sector of its header is erased. -/
def Finished (hw : Engine) (bd : Board) (t : Tinfl) (m m' : Nat → Byte) : Prop :=
  ∃ m'' fuel, Pending bd t m m'' ∧ (checkOtaZone hw bd t true fuel (bd.device m'')).2 = true ∧
    m' = (checkOtaZone hw bd t true fuel (bd.device m'')).1.mem

/-- What a run that is cut off leaves: the update is still pending, or it is done. -/
theorem Pending.attempt (h : Update hw bd t m) {m' : Nat → Byte} (hm : Pending bd t m m')
    {x : Attempt} (hheap : x.heap = true) :
    Pending bd t m (Fota.attempt hw bd t m' x) ∨ Finished hw bd t m (Fota.attempt hw bd t m' x) := by
  obtain ⟨d, ⟨es, hlog, hmem, hin⟩, hins, hend⟩ := check_frame h hm x.fuel
  have hes : d.log = es := hlog
  -- as long as the header is there, only script sectors have been touched
  have hcut : Pending bd t m (run m' ((commands es).take x.cut)) := by
    intro y hy
    rw [run_frame fun o ho ht => hy (hin o (List.mem_of_mem_take ho) y ht)]
    exact hm y hy
  unfold Fota.attempt
  rw [hheap]
  cases hdone : (checkOtaZone hw bd t true x.fuel (bd.device m')).2 with
  | false =>
    left
    rw [hdone, if_neg (by decide)] at hend
    rw [hend, hes]
    exact hcut
  | true =>
    have hwhole := hdone
    rw [hdone, if_pos rfl, clean_eq hins] at hend
    have hcmds : commands (checkOtaZone hw bd t true x.fuel (bd.device m')).1.log =
        commands es ++ [.erase bd.base 4096] := by
      rw [hend, Dev.issue_log, hes, commands_append]
      rfl
    by_cases hk : x.cut ≤ (commands es).length
    · left
      rw [hcmds, List.take_append_of_le_length hk]
      exact hcut
    · right
      refine ⟨m', x.fuel, hm, hwhole, ?_⟩
      rw [List.take_of_length_le (by rw [hcmds, List.length_append, List.length_singleton]; omega),
        hcmds, run_append, hend, Dev.issue_mem, hmem]
      rfl

theorem Finished.check (h : Update hw bd t m) {m' : Nat → Byte} (hm : Finished hw bd t m m')
    (heap : Bool) (fuel : Nat) : checkOtaZone hw bd t heap fuel (bd.device m') = (bd.device m', true) := by
  obtain ⟨m'', fuel'', hpend, hdone, rfl⟩ := hm
  obtain ⟨d, _, hins, hend⟩ := check_frame h hpend fuel''
  rw [hdone, if_pos rfl] at hend
  rw [hend]
  have hcells : (slice (clean bd d).mem bd.base 64).take 4 = List.replicate 4 0xFF#8 := by
    rw [slice_take _ _ _ _ (by omega)]
    apply List.ext_getElem
    · simp
    · intro i h1 h2
      rw [slice_length] at h1
      rw [slice_getElem, clean_mem hins, if_pos (by omega), List.getElem_replicate]
  have hmagic : Header.magic (slice (clean bd d).mem bd.base 64) = 0xFFFFFFFF := by
    rw [Header.magic, field, List.drop_zero, hcells]
    decide
  unfold checkOtaZone
  rw [show (bd.device (clean bd d).mem).mem = (clean bd d).mem from rfl]
  simp only [hmagic, if_true]

theorem attempts_spec (h : Update hw bd t m) {xs : List Attempt} (hheap : ∀ x ∈ xs, x.heap = true) :
    Pending bd t m (runs (attempt hw bd t) m xs) ∨ Finished hw bd t m (runs (attempt hw bd t) m xs) := by
  refine runs_inv (fun m' => Pending bd t m m' ∨ Finished hw bd t m m')
    (fun _ x => x.heap = true) ?_ (fun p hp => hheap p.2 (mem_of_mem_trace hp))
    (.inl fun _ _ => rfl)
  intro m' x hx hm
  rcases hm with hm | hm
  · exact hm.attempt h hx
  · right
    have hsame : attempt hw bd t m' x = m' := by
      rw [attempt, hm.check h]
      simp [commands, Board.device]
    rw [hsame]
    exact hm

theorem check_done (h : Update hw bd t m) {m' : Nat → Byte} (hm : Pending bd t m m')
    (htype : Header.imgType (slice m bd.base 64) = 1) {fuel : Nat}
    (hdone : (checkOtaZone hw bd t true fuel (bd.device m')).2 = true) (k : Nat) :
    (checkOtaZone hw bd t true fuel (bd.device m')).1 =
      clean bd (tinflLoop bd.luadbAddr t (bd.base + 64 + 10) (Header.imgLen (slice m bd.base 64))
        (fuel + k) ⟨bd.device m', Parser.reset⟩ t.init 0 0).1.dev := by
  have hmore := fun b => tinflLoop_more bd.luadbAddr t (bd.base + 64 + 10)
    (Header.imgLen (slice m bd.base 64)) (b := b) fuel k ⟨bd.device m', Parser.reset⟩ t.init 0 0
  rw [check_eq h hm, if_pos htype] at hdone ⊢
  generalize tinflLoop bd.luadbAddr t (bd.base + 64 + 10) (Header.imgLen (slice m bd.base 64)) fuel
    ⟨bd.device m', Parser.reset⟩ t.init 0 0 = r at hdone hmore ⊢
  obtain ⟨g, fin⟩ := r
  cases fin with
  | none => simp at hdone
  | some b => rw [hmore b rfl]

theorem check_ends (h : Update hw bd t m) {m1 m2 : Nat → Byte} (hm1 : Pending bd t m m1)
    (hm2 : Pending bd t m m2) {fuel : Nat}
    (hdone : (checkOtaZone hw bd t true fuel (bd.device m1)).2 = true) :
    (checkOtaZone hw bd t true fuel (bd.device m2)).2 = true := by
  rw [check_eq h hm1] at hdone
  rw [check_eq h hm2]
  split
  · rename_i htype
    rw [if_pos htype] at hdone
    have hflag := (tinflLoop_agree bd.luadbAddr bd.density_le h.body 0 fuel
      Parser.reset (bd.device m1) (bd.device m2) t.init 0 0 reset_ready.wf rfl rfl .start hm1 hm2
      (rounds_sectors htype)).1
    generalize tinflLoop bd.luadbAddr t (bd.base + 64 + 10) (Header.imgLen (slice m bd.base 64)) fuel
      ⟨bd.device m1, Parser.reset⟩ t.init 0 0 = r1 at hdone hflag
    generalize tinflLoop bd.luadbAddr t (bd.base + 64 + 10) (Header.imgLen (slice m bd.base 64)) fuel
      ⟨bd.device m2, Parser.reset⟩ t.init 0 0 = r2 at hflag ⊢
    obtain ⟨g1, fin1⟩ := r1
    obtain ⟨g2, fin2⟩ := r2
    simp only [] at hflag
    subst hflag
    cases fin1 with
    | none => simp at hdone
    | some b => rfl
  · rfl

/-- Two runs of the check at boot that come to their end on pending flashes. -/
theorem check_agree (h : Update hw bd t m) {m1 m2 : Nat → Byte} (hm1 : Pending bd t m m1)
    (hm2 : Pending bd t m m2) {n1 n2 : Nat}
    (hdone1 : (checkOtaZone hw bd t true n1 (bd.device m1)).2 = true)
    (hdone2 : (checkOtaZone hw bd t true n2 (bd.device m2)).2 = true) :
    (∀ w, Carried bd t m w → bd.luadbAddr + w.2 < bd.density →
      (checkOtaZone hw bd t true n1 (bd.device m1)).1.mem (bd.luadbAddr + w.2) =
        (checkOtaZone hw bd t true n2 (bd.device m2)).1.mem (bd.luadbAddr + w.2)) ∧
      ∀ x, bd.base ≤ x → x < bd.base + 4096 →
        (checkOtaZone hw bd t true n1 (bd.device m1)).1.mem x =
          (checkOtaZone hw bd t true n2 (bd.device m2)).1.mem x := by
  refine ⟨?_, ?_⟩
  · rintro w ⟨htype, n, hw⟩ hlt
    -- both loops have come to their end, so they are the same with more rounds
    have hagree := tinflLoop_agree bd.luadbAddr bd.density_le h.body
      (bd.luadbAddr + w.2) (n + (n1 + n2)) Parser.reset (bd.device m1) (bd.device m2) t.init 0 0
      reset_ready.wf rfl rfl .start hm1 hm2 (rounds_sectors htype)
    have hcell := hagree.2 (.inr ⟨w, rounds_mono n (n1 + n2) _ _ _ _ hw, rfl, hlt⟩)
    have hins : ∀ fuel m', (tinflLoop bd.luadbAddr t (bd.base + 64 + 10)
        (Header.imgLen (slice m bd.base 64)) fuel ⟨bd.device m', Parser.reset⟩ t.init 0
          0).1.dev.insideFls = some bd.density := fun fuel m' =>
      tinflLoop_insideFls bd.luadbAddr t _ _ fuel _ _ _ _ reset_ready.wf
    rw [check_done h hm1 htype hdone1 (n + n2), check_done h hm2 htype hdone2 (n + n1),
      clean_mem (hins _ _), clean_mem (hins _ _), show n1 + (n + n2) = n + (n1 + n2) by omega,
      show n2 + (n + n1) = n + (n1 + n2) by omega, hcell]
  · intro x hlo hhi
    obtain ⟨d1, _, hins1, hend1⟩ := check_frame h hm1 n1
    obtain ⟨d2, _, hins2, hend2⟩ := check_frame h hm2 n2
    rw [hdone1, if_pos rfl] at hend1
    rw [hdone2, if_pos rfl] at hend2
    rw [hend1, hend2, clean_mem hins1, clean_mem hins2, if_pos ⟨hlo, hhi⟩, if_pos ⟨hlo, hhi⟩]

end Check

/-- For every update in the OTA zone whose decompressor can be allocated: if one uninterrupted check
at boot comes to its end, then so does the check after any number of power cuts at any commands,
with the same script bytes on the chip and the same sector of the header. -/
theorem script_update_restartable (hw : Engine) (bd : Board) (t : Tinfl) (m : Nat → Byte)
    (h : Update hw bd t m) (xs : List Attempt) (hheap : ∀ x ∈ xs, x.heap = true) (fuel : Nat)
    (hdone : (checkOtaZone hw bd t true fuel (bd.device m)).2 = true) :
    let once := checkOtaZone hw bd t true fuel (bd.device m)
    let again := checkOtaZone hw bd t true fuel (bd.device (runs (attempt hw bd t) m xs))
    again.2 = true ∧
      (∀ w, Carried bd t m w → bd.luadbAddr + w.2 < bd.density →
        again.1.mem (bd.luadbAddr + w.2) = once.1.mem (bd.luadbAddr + w.2)) ∧
      ∀ x, bd.base ≤ x → x < bd.base + 4096 → again.1.mem x = once.1.mem x := by
  intro once again
  have hself : Pending bd t m m := fun _ _ => rfl
  rcases attempts_spec h hheap with hm | hm
  · have hagain : again.2 = true := check_ends h hself hm hdone
    exact ⟨hagain, check_agree h hm hself hagain hdone⟩
  · have hnothing := hm.check h true fuel
    obtain ⟨m'', fuel'', hpend, hdone'', hmem⟩ := hm
    have hagree := check_agree h hpend hself hdone'' hdone
    rw [← hmem] at hagree
    have hagain : again = (bd.device (runs (attempt hw bd t) m xs), true) := hnothing
    rw [hagain]
    exact ⟨rfl, hagree⟩

/-! ## A run without memory -/

theorem check_no_heap {hw : Engine} {bd : Board} {m : Nat → Byte} (t : Tinfl)
    (hok : HeadOk hw (slice m bd.base 64)) (fuel : Nat) :
    checkOtaZone hw bd t false fuel (bd.device m) = (clean bd (bd.device m), true) := by
  obtain ⟨hmagic, hsum⟩ := hok
  unfold checkOtaZone inflateScripts
  rw [show (bd.device m).mem = m from rfl]
  simp only [hmagic, hsum, if_true, if_false, ne_eq, not_true_eq_false,
    show ¬ magicNo = 0xFFFFFFFF by decide]
  split <;> rfl

/-- The AIR101 board with the first part of an update in its OTA zone and a zero at the start of its
script partition. -/
def oneByteUpdate : Nat → Byte :=
  overlay (overlay (fun _ => 0xFF#8) 0x10000 firstPart) 0x1E0000 [0#8]

/-- The script image of one byte that it decompresses to. -/
def oneByteScript : List Byte := header 2 1 ++ [0x5A#8]

theorem oneByteUpdate_head : slice oneByteUpdate air101Board.base 64 = firstPart.take 64 := by
  have hl := firstPart_length
  have hin : slice oneByteUpdate 0x10000 64 = firstPart.take 64 := by
    rw [oneByteUpdate, slice_overlay_out (by simp)]
    exact slice_overlay_in (a := 0x10000) (k := 0) (n := 64) (by omega)
  exact hin

theorem oneByteUpdate_block {m : Nat → Byte} (hm : ∀ x, x < 0x11000 → m x = oneByteUpdate x)
    (decomp : storedTinfl.σ) :
    storedTinfl.decompress decomp (slice m 0x1004A 1000) 0x8000 = ⟨(), 70, oneByteScript, .done⟩ := by
  have hl := firstPart_length
  have hbody : slice m 0x1004A 70 = firstPart.drop 74 := by
    have hsame : slice m 0x1004A 70 = slice oneByteUpdate 0x1004A 70 :=
      slice_congr fun i hi => hm _ (by omega)
    rw [hsame, oneByteUpdate, slice_overlay_out (by simp)]
    refine (slice_overlay_in (a := 0x10000) (k := 74) (n := 70) (by omega)).trans ?_
    rw [List.take_of_length_le (by rw [List.length_drop]; omega)]
  have hsplit : slice m 0x1004A 1000 = firstPart.drop 74 ++ slice m 0x10090 930 := by
    rw [← hbody]
    exact slice_append m 0x1004A 70 930
  rw [hsplit]
  exact firstPart_block _

theorem oneByteUpdate_rounds (n : Nat) (w : Byte × Nat)
    (hw : w ∈ Parser.reset.script (rounds storedTinfl 0x1004A 1000 oneByteUpdate n storedTinfl.init 0
      0).flatten) : w = (0x5A#8, 0) := by
  cases n with
  | zero => simp [rounds, Parser.script] at hw
  | succ n =>
    simp only [rounds, Nat.add_zero, Nat.sub_zero] at hw
    rw [oneByteUpdate_block (fun _ _ => rfl), if_neg (by decide)] at hw
    have hscript : Parser.reset.script oneByteScript = [(0x5A#8, 0)] := by decide +kernel
    simp only [List.flatten_cons, List.flatten_nil, List.append_nil] at hw
    rw [hscript] at hw
    exact List.mem_singleton.mp hw

theorem oneByteUpdate_sector {x : Nat} (hx : ScriptSector air101Board storedTinfl oneByteUpdate x) :
    x / 4096 = 0x1E0 := by
  obtain ⟨w, ⟨_, n, hw⟩, e⟩ := hx
  rw [oneByteUpdate_head, firstPart_head.2.2] at hw
  have hone : w = (0x5A#8, 0) := oneByteUpdate_rounds n w hw
  rw [hone] at e
  exact e.symm

theorem oneByteUpdate_visits {decomp : storedTinfl.σ} {inBufOfs dictOfs : Nat}
    (h : Visits storedTinfl 0x1004A 1000 oneByteUpdate decomp inBufOfs dictOfs) :
    inBufOfs = 0 ∧ dictOfs = 0 := by
  induction h with
  | start => exact ⟨rfl, rfl⟩
  | next _ hr hmore ih =>
    exfalso
    obtain ⟨rfl, rfl⟩ := ih
    simp only [Nat.add_zero, Nat.sub_zero] at hr
    rw [oneByteUpdate_block fun _ _ => rfl] at hr
    rw [← hr] at hmore
    exact absurd hmore (by decide)

theorem oneByteUpdate_update : Update softEngine air101Board storedTinfl oneByteUpdate := by
  refine ⟨?_, ?_, ?_⟩
  · rw [oneByteUpdate_head]
    exact firstPart_head.1
  · intro x hlo hhi hx
    have hsec := oneByteUpdate_sector hx
    have hbase : air101Board.base = 0x10000 := rfl
    omega
  · have hptr : air101Board.base + 64 + 10 = 0x1004A := rfl
    rw [oneByteUpdate_head, firstPart_head.2.2, hptr]
    intro m' hm' decomp inBufOfs dictOfs hvisit
    obtain ⟨rfl, rfl⟩ := oneByteUpdate_visits hvisit
    have hlow : ∀ x, x < 0x11000 → m' x = oneByteUpdate x := by
      intro x hx
      apply hm'
      intro hsec
      have := oneByteUpdate_sector hsec
      omega
    simp only [Nat.add_zero, Nat.sub_zero]
    rw [oneByteUpdate_block hlow, oneByteUpdate_block fun _ _ => rfl]

theorem oneByteScript_written (d : Dev) :
    (otaGzcb 0x1E0000 ⟨d, Parser.reset⟩ oneByteScript).dev =
      (tlsFlsWrite d 0x1E0000 [0x5A#8]).2 := by
  rfl

theorem oneByteUpdate_check :
    checkOtaZone softEngine air101Board storedTinfl true 1 (air101Board.device oneByteUpdate) =
      (clean air101Board (tlsFlsWrite (air101Board.device oneByteUpdate) 0x1E0000 [0x5A#8]).2,
        true) := by
  have hptr : air101Board.base + 64 + 10 = 0x1004A := rfl
  rw [check_eq oneByteUpdate_update (fun _ _ => rfl), oneByteUpdate_head, if_pos firstPart_head.2.1,
    firstPart_head.2.2, hptr, tinflLoop]
  simp only [Nat.add_zero, Nat.sub_zero]
  rw [show (air101Board.device oneByteUpdate).mem = oneByteUpdate from rfl,
    oneByteUpdate_block fun _ _ => rfl]
  simp only [round_eq, show ¬ TinflStatus.done = .hasMoreOutput by decide, if_false,
    show air101Board.luadbAddr = 0x1E0000 from rfl, oneByteScript_written]

theorem oneByteUpdate_carried : Carried air101Board storedTinfl oneByteUpdate (0x5A#8, 0) := by
  have hptr : air101Board.base + 64 + 10 = 0x1004A := rfl
  refine ⟨by rw [oneByteUpdate_head]; exact firstPart_head.2.1, 1, ?_⟩
  rw [oneByteUpdate_head, firstPart_head.2.2, hptr, rounds]
  simp only [Nat.add_zero, Nat.sub_zero]
  rw [oneByteUpdate_block fun _ _ => rfl, if_neg (by decide)]
  decide +kernel

/-- Cut after its first command, it has erased the first sector of the script partition. -/
theorem oneByteUpdate_cut :
    attempt softEngine air101Board storedTinfl oneByteUpdate ⟨true, 1, 1⟩ =
      (Op.erase 0x1E0000 4096).apply oneByteUpdate := by
  have hops : commands (clean air101Board
      (tlsFlsWrite (air101Board.device oneByteUpdate) 0x1E0000 [0x5A#8]).2).log =
      writeSectors 1 oneByteUpdate 0x1E0 0 [0x5A#8] ++ [.erase 0x10000 4096] := rfl
  rw [attempt, oneByteUpdate_check, hops, writeSectors_one _ (by decide) (by decide)]
  rfl

theorem script_update_restartable_one_byte :
    let m' := runs (attempt softEngine air101Board storedTinfl) oneByteUpdate [⟨true, 1, 1⟩]
    let once := checkOtaZone softEngine air101Board storedTinfl true 1 (air101Board.device oneByteUpdate)
    let again := checkOtaZone softEngine air101Board storedTinfl true 1 (air101Board.device m')
    again.2 = true ∧ again.1.mem air101Board.luadbAddr = once.1.mem air101Board.luadbAddr := by
  obtain ⟨hdone, hscript, _⟩ := script_update_restartable softEngine air101Board storedTinfl
    oneByteUpdate oneByteUpdate_update [⟨true, 1, 1⟩] (by simp) 1
    (by rw [oneByteUpdate_check])
  have hzero : air101Board.luadbAddr + ((0x5A#8, 0) : Byte × Nat).2 = air101Board.luadbAddr := rfl
  have hbyte := hscript _ oneByteUpdate_carried (by decide)
  rw [hzero] at hbyte
  exact ⟨hdone, hbyte⟩

/-- The first check at boot is cut off after it has erased the first sector of the script partition;
the next one has no memory for the decompressor, drops the update and comes to its end. The script
byte is neither the new one nor the old one. -/
theorem script_update_lost_without_memory :
    let m' := attempt softEngine air101Board storedTinfl oneByteUpdate ⟨true, 1, 1⟩
    let once := fun heap =>
      checkOtaZone softEngine air101Board storedTinfl heap 1 (air101Board.device oneByteUpdate)
    let again := checkOtaZone softEngine air101Board storedTinfl false 1 (air101Board.device m')
    HeadOk softEngine (slice oneByteUpdate air101Board.base 64) ∧
      Carried air101Board storedTinfl oneByteUpdate (0x5A#8, 0) ∧
      (once true).2 = true ∧ again.2 = true ∧ (once true).1.mem 0x1E0000 = 0x5A#8 ∧
      (once false).1.mem 0x1E0000 = 0#8 ∧ again.1.mem 0x1E0000 = 0xFF#8 := by
  have hok := oneByteUpdate_update.accepted
  have hhead : slice ((Op.erase 0x1E0000 4096).apply oneByteUpdate) air101Board.base 64 =
      slice oneByteUpdate air101Board.base 64 := by
    apply slice_congr
    intro i hi
    have hbase : air101Board.base = 0x10000 := rfl
    exact if_neg (by omega)
  intro m' once again
  have hm' : m' = (Op.erase 0x1E0000 4096).apply oneByteUpdate := oneByteUpdate_cut
  have hagain : again = (clean air101Board (air101Board.device m'), true) := by
    apply check_no_heap
    rw [hm', hhead]
    exact hok
  have hnew : once true = _ := oneByteUpdate_check
  have hold : once false = _ := check_no_heap storedTinfl hok 1
  refine ⟨hok, oneByteUpdate_carried, by rw [hnew], by rw [hagain], ?_, ?_, ?_⟩
  · rw [hnew, clean_mem (by rw [tlsFlsWrite_insideFls]; rfl), if_neg (by decide),
      (tlsFlsWrite_ok (show (air101Board.device oneByteUpdate).insideFls = some 0x200000 from rfl)
        (by decide) (by simp) (by decide)).2]
    rfl
  · rw [hold, clean_mem rfl, if_neg (by decide)]
    rfl
  · rw [hagain, clean_mem rfl, if_neg (by decide), hm']
    rfl

end Fota
end Air101
