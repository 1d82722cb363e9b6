import Air101.Fota.Payload
import Air101.Fota.Tracks

/-!
# Fota.Unfinished

A download that was never accepted, a reset, and the check at boot. `luat_fota_write` puts the
header into flash with the first bytes of the body, and `check_ota_zone` asks for nothing more than
the header: the checksum of the body, the bytes that came in and the OTA flag are not looked at.
So a full image that was cut off in the middle is decompressed as far as it goes.

The data and the place of the reset decide what the flash holds then (`Unfinished.left`), and that
decides whether the check at boot writes a script.
-/

namespace Air101
namespace Fota

open Storage
open Crypto
open Fls

/-- An unfinished download: `luat_fota_init`, then any calls that take in data, none of them a
`luat_fota_done` that returned 0, and a reset after `sent` flash commands. -/
structure Unfinished (hw : Engine) (z : Zone) where
  before : State
  heap : Bool
  calls : List Call
  sent : Nat
  installed : before.dev.insideFls = some z.density
  fresh : before.dev.log = []
  data : ∀ c ∈ calls, c.isData = true
  refused : ∀ q ∈ trace (next hw z) before (.init heap :: calls), q.2 = .done →
    (luatFotaDone hw z q.1).1 ≠ 0

namespace Unfinished

variable {hw : Engine} {z : Zone} (u : Unfinished hw z)

/-- The flash after the reset, by the flash commands of the calls. -/
def flash : Nat → Byte :=
  run u.before.dev.mem ((commands (runs (next hw z) u.before (.init u.heap :: u.calls)).dev.log).take u.sent)

/-- How far the data of the calls has come. -/
def progress : Progress := runs (Progress.feed hw z (cleared z u.before.dev.mem)) .start u.calls

/-- The same, by the data. Without a buffer nothing is done. -/
def left : Nat → Byte :=
  if u.before.fotaBuffer = false ∧ u.heap = false then u.before.dev.mem
  else leftAt z u.before.dev.mem u.progress.pieces u.sent

/-- A downloader that has no buffer does nothing. -/
theorem runs_unbuffered (hw : Engine) (z : Zone) {cs : List Call} (hcs : ∀ c ∈ cs, c.isData = true) :
    ∀ {s : State}, s.fotaBuffer = false → s.buf = [] → s.fotaWriteOffset = 0 →
      runs (next hw z) s cs = s := by
  induction cs with
  | nil => intro s _ _ _; rfl
  | cons c cs ih =>
    intro s hbuffer hbuf hoff
    have hsame : next hw z s c = s := by
      cases c with
      | init heap => simpa [Call.isData] using hcs _ List.mem_cons_self
      | write data => simp [next, call, luatFotaWrite, hbuffer]
      | done => simp [next, call, luatFotaDone, doneCheck, hbuf, hoff]
      | fin isOk => simpa [Call.isData] using hcs _ List.mem_cons_self
    rw [runs_cons, hsame]
    exact ih (fun d hd => hcs d (List.mem_cons_of_mem _ hd)) hbuffer hbuf hoff

theorem flash_eq_left : u.flash = u.left := by
  unfold left
  split
  · rename_i hnone
    have hinit : next hw z u.before (.init u.heap) =
        { u.before with fotaState := .ongo, fotaWriteOffset := 0, fotaHeadCheck := false, buf := [] } := by
      simp [next, call, luatFotaInit, hnone]
    have hidle := runs_unbuffered hw z u.data (s := next hw z u.before (.init u.heap))
      (by rw [hinit]; exact hnone.1) (by rw [hinit]) (by rw [hinit])
    have hlog : (next hw z u.before (.init u.heap)).dev.log = [] := by
      rw [hinit]
      exact u.fresh
    rw [flash, runs_cons, hidle, hlog, commands, List.flatMap_nil, List.take_nil, run_nil]
  · rename_i hbuffer
    have hrefused : ∀ q ∈ trace (next hw z) (luatFotaInit z u.heap u.before).2 u.calls, q.2 = .done →
        (luatFotaDone hw z q.1).1 ≠ 0 := fun q hq => u.refused q (List.mem_cons_of_mem _ hq)
    have htracks := run_tracks (init_tracks u.installed u.fresh hbuffer) u.data hrefused
    exact htracks.left_eq u.sent

end Unfinished

/-- After every unfinished download the check at boot writes nothing to the script partition if and only
if what the data and the reset have left in flash bears no script. -/
theorem unfinished_download_iff (hw : Engine) (bd : Board) (t : Tinfl) (u : Unfinished hw bd.toZone) :
    (∀ heap fuel, NoScriptWrite bd
      (checkOtaZone hw bd t heap fuel ⟨some bd.density, u.flash, []⟩).1.log) ↔
      ¬ BearsScript hw bd t u.left := by
  rw [boot_check_iff, u.flash_eq_left]

/-- miniz on a single stored block that ends the stream; anything else stops it. -/
def storedTinfl : Tinfl where
  σ := Unit
  init := ()
  decompress := fun _ inp room =>
    let len := field inp 1 2
    if inp.head? = some 1#8 ∧ field inp 3 2 = 0xFFFF - len ∧ 5 + len ≤ inp.length ∧ len ≤ room then
      ⟨(), 5 + len, (inp.drop 5).take len, .done⟩
    else ⟨(), 0, [], .stopped⟩
  out_le := by
    intro s inp room
    simp only []
    split
    · rename_i h
      rw [List.length_take]
      omega
    · simp

/-- The first 144 bytes of a download of 1064: a header of type 1, the ten bytes of a gzip header,
and a stored block with a script image of one byte. -/
def firstPart : List Byte :=
  (header 1 1000).take 60 ++ leBytes 4 0xE7880344 ++ List.replicate 10 0#8 ++
    1#8 :: leBytes 2 65 ++ leBytes 2 (0xFFFF - 65) ++ header 2 1 ++ [0x5A#8]

theorem firstPart_length : firstPart.length = 144 := by simp [firstPart, header]

theorem firstPart_head : HeadOk softEngine (firstPart.take 64) ∧
    Header.imgType (firstPart.take 64) = 1 ∧ Header.imgLen (firstPart.take 64) = 1000 := by
  decide +kernel

theorem firstPart_block (rest : List Byte) :
    storedTinfl.decompress () (firstPart.drop 74 ++ rest) 0x8000 =
      ⟨(), 5 + 65, header 2 1 ++ [0x5A#8], .done⟩ := by
  have hlen : field (firstPart.drop 74 ++ rest) 1 2 = 65 := rfl
  have hnlen : ((firstPart.drop 74 ++ rest).drop 3).take 2 = leBytes 2 (0xFFFF - 65) := rfl
  have hcom : field (firstPart.drop 74 ++ rest) 3 2 = 0xFFFF - 65 := by
    rw [field, hnlen, leNat_leBytes (by omega)]
  have hfit : 5 + 65 ≤ (firstPart.drop 74 ++ rest).length := by
    rw [List.length_append, List.length_drop, firstPart_length]
    omega
  have hdata : ((firstPart.drop 74 ++ rest).drop 5).take 65 = header 2 1 ++ [0x5A#8] := rfl
  simp only [storedTinfl]
  rw [hlen, hcom, hdata, if_pos ⟨rfl, rfl, hfit, by decide⟩]

/-- The first part of that download on the AIR101 board, with a reset after `sent` flash commands. -/
def firstPartRun (sent : Nat) : Unfinished softEngine air101Board.toZone where
  before := State.reset air101Dev
  heap := true
  calls := [.write firstPart]
  sent := sent
  installed := rfl
  fresh := rfl
  data := by
    intro c hc
    rw [List.mem_singleton.mp hc]
    rfl
  refused := by
    intro q hq hdone
    simp only [trace, List.mem_cons, List.not_mem_nil, or_false] at hq
    rcases hq with rfl | rfl <;> simp at hdone

/-- A single piece with a good header. -/
theorem progress_piece {hw : Engine} {z : Zone} {img : List Byte} (m : Nat → Byte) (h64 : 64 ≤ img.length)
    (hlen : img.length < 0x8000) (hok : HeadOk hw (img.take 64)) :
    Progress.feed hw z m .start (.write img) = ⟨[⟨z.base, img⟩], img.length, [], true⟩ := by
  have hz := z.density_le
  have he := z.end_le
  have hcopy : Progress.start.copy z img = (⟨[], 0, img, false⟩, false) :=
    copy_few (p := .start) (by rw [Progress.start, List.length_nil, Nat.zero_add]; exact hlen)
  have hplace : (z.base + 0) % 2 ^ 27 = z.base := Nat.mod_eq_of_lt (by omega)
  have hne : img ≠ [] := List.ne_nil_of_length_pos (by omega)
  have htotal : (⟨[], 0, img, false⟩ : Progress).total = img.length := by
    rw [Progress.total, Nat.zero_add]
    exact Nat.mod_eq_of_lt (Nat.lt_trans hlen (by decide))
  have hflush := flush_taken (z := z) (p := ⟨[], 0, img, false⟩) hne (by rw [hplace]; omega)
  rw [htotal, hplace, List.nil_append] at hflush
  have hhead : slice (laid m [⟨z.base, img⟩]) z.base 64 = img.take 64 := by
    rw [laid_cons, laid_nil]
    exact slice_overlay_in (k := 0) (by omega)
  rw [Progress.feed, hcopy, if_neg (by simp), Progress.check, if_pos ⟨rfl, by rw [htotal]; exact h64⟩, hflush,
    hhead, decide_eq_true hok]

theorem firstPart_left (sent : Nat) : (firstPartRun sent).left =
    leftAt air101Board.toZone (fun _ => 0xFF#8) [⟨0x10000, firstPart⟩] sent := by
  have hl := firstPart_length
  have hpiece := @progress_piece _ air101Board.toZone firstPart (cleared air101Board.toZone fun _ => 0xFF#8)
    (by omega) (by omega) firstPart_head.1
  have hprogress : (firstPartRun sent).progress = ⟨[⟨0x10000, firstPart⟩], firstPart.length, [], true⟩ := by
    unfold Unfinished.progress firstPartRun
    rw [runs_cons, runs_nil]
    exact hpiece
  rw [Unfinished.left, hprogress, if_neg (fun h => Bool.noConfusion h.2)]
  rfl

theorem firstPart_commands : (⟨0x10000, firstPart⟩ : Piece).commands = 17 := by
  rw [Piece.commands, firstPart_length]
  decide

/-- A reset in front of the first page of the piece: the zone is clear. -/
theorem unfinished_download_torn : NoScriptWrite air101Board (checkOtaZone softEngine air101Board storedTinfl true 8
    ⟨some air101Board.density, (firstPartRun 2).flash, []⟩).1.log := by
  refine (unfinished_download_iff softEngine air101Board storedTinfl (firstPartRun 2)).mpr ?_ true 8
  rintro ⟨⟨hmagic, -⟩, -⟩
  have hplace : tornAt 0x10000 1 = 0x10000 := by decide
  have hhead : slice (firstPartRun 2).left air101Board.base 64 = List.replicate 64 0xFF#8 := by
    rw [firstPart_left, leftAt, if_neg (by decide), torn, firstPart_commands, if_pos (by decide)]
    change slice (tear _ 0x10000 firstPart 1) _ _ = _
    rw [tear, hplace, Nat.sub_self, List.take_zero, overlay_nil]
    rfl
  rw [hhead] at hmagic
  exact absurd hmagic (by decide)

theorem firstPart_whole {sent : Nat} (h : 18 ≤ sent) : (firstPartRun sent).left =
    overlay (cleared air101Board.toZone fun _ => 0xFF#8) 0x10000 firstPart := by
  have hzone : air101Board.size / 4096 = 1 := by decide
  rw [firstPart_left, leftAt, hzone, if_neg (by omega), torn_end _ _ _ (by
    rw [commandCount_cons, firstPart_commands, commandCount_nil]
    omega), laid_cons, laid_nil]

theorem firstPart_bearsScript {sent : Nat} (h : 18 ≤ sent) :
    BearsScript softEngine air101Board storedTinfl (firstPartRun sent).left := by
  obtain ⟨hok, htype, hlen⟩ := firstPart_head
  have hl := firstPart_length
  rw [firstPart_whole h]
  generalize cleared air101Board.toZone (fun _ => 0xFF#8) = m
  have hhead : slice (overlay m 0x10000 firstPart) air101Board.base 64 = firstPart.take 64 :=
    slice_overlay_in (k := 0) (by omega)
  have hbody : slice (overlay m 0x10000 firstPart) 0x1004A 70 = firstPart.drop 74 := by
    refine (slice_overlay_in (a := 0x10000) (k := 74) (n := 70) (by omega)).trans ?_
    rw [List.take_of_length_le (by rw [List.length_drop]; omega)]
  have hinput : slice (overlay m 0x10000 firstPart) 0x1004A 1000 =
      firstPart.drop 74 ++ slice (overlay m 0x10000 firstPart) 0x10090 930 := by
    rw [← hbody]
    exact slice_append _ 0x1004A 70 930
  refine ⟨by rw [hhead]; exact hok, by rw [hhead]; exact htype, header 2 1 ++ [0x5A#8], ?_,
    [], header 2 1, 0x5A#8, [], by simp, by simp [header], by decide +kernel, by decide +kernel, rfl⟩
  have hcall := Puts.last (t := storedTinfl) () 0 (slice (overlay m 0x10000 firstPart) 0x1004A 1000)
  rw [Nat.sub_zero, hinput, firstPart_block, ← hinput] at hcall
  rw [hhead, hlen]
  exact hcall

/-- A reset behind the first 144 bytes of a download of 1064, and the check at boot writes the script
byte it finds in them to the script partition. -/
theorem unfinished_download_reaches_scripts :
    ¬ ∀ heap fuel, NoScriptWrite air101Board (checkOtaZone softEngine air101Board storedTinfl heap fuel
      ⟨some air101Board.density, (firstPartRun 18).flash, []⟩).1.log := by
  rw [boot_check_iff, Unfinished.flash_eq_left]
  exact not_not.mpr (firstPart_bearsScript (Nat.le_refl _))

end Fota
end Air101
