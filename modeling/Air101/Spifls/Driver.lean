import Air101.Spi.Fifo
import Air101.Storage.Link

/-!
# Spifls.Driver

The driver of an external SPI flash (`platform/drivers/flash/wm_fls_gd25qxx.c`) and the writer of whole
pages over it, `tls_spifls_page_write` (`platform/drivers/flash/wm_fls.c`).

The chip is NOR flash behind the SPI master. Every call of `tls_spi_write`, `tls_spi_write_with_cmd` or
`tls_spi_read_with_cmd` is one message, which may fail; the `while (1)` polls of the status register
count as the one message that ends them. A failed message may leave anything in the chip.

The sizes are those that `tls_spifls_drv_probe` sets: pages of 256 bytes and sectors of 4096.

* `cmdAddr_command`: the command word carries the low 24 bits of an address.
* `drvErase_sends`, `drvPageWrite_sends`: what the driver's calls send.
* `rewriteSector_iff`, `rewriteSector_eq`: an erase and `tls_spifls_page_write` of its 16 pages give a
  sector new content.
-/

namespace Air101
namespace Spifls

open Storage
open Spi

/-- The cells of the chip behind the SPI master. -/
abbrev Chip := Link (Nat → Byte)

/-- What becomes of the messages, by their number. -/
abbrev Io := Nat → Answer (Nat → Byte)

/-- `TLS_FLS_STATUS_*`. -/
inductive Status where
  | ok
  | einval
  | eperm
  | enomem
  | eio
  | enodrv
  deriving DecidableEq, Repr

/-- `struct tls_fls_drv` after the probe, for a chip of whole sectors. -/
structure Drv where
  totalSize : Nat
  whole : totalSize % 4096 = 0
  size_lt : totalSize < 2 ^ 32

/-- `spi_fls`, if it is installed, with its `current_drv`. -/
abbrev SpiFls := Option (Option Drv)

/-! ## Commands -/

/-- A command word: the opcode in its low byte, and `swap32(addr) & 0xffffff00`. -/
def command (opcode : Byte) (addr : Nat) : BitVec 32 :=
  opcode.setWidth 32 ||| (swap32 (BitVec.ofNat 32 addr) &&& 0xFFFFFF00#32)

/-- The address that the chip takes from the bytes behind the opcode, most significant first. -/
def cmdAddr (cmd : BitVec 32) : Nat :=
  (byteAt cmd 1).toNat * 65536 + (byteAt cmd 2).toNat * 256 + (byteAt cmd 3).toNat

/-- `EXSPIFLASH_DATA_READ`. -/
def dataRead : Byte := 0x03#8
/-- `EXSPIFLASH_PAGE_PROGRAM`. -/
def pageProgram : Byte := 0x02#8
/-- `EXSPIFLASH_SECTOR_ERASE`. -/
def sectorErase : Byte := 0x20#8

section Driver

variable (io : Io)

/-- `tls_spifls_drv_write_enable`. -/
def drvWriteEnable (c : Chip) : Bool × Chip := Link.send io id c

/-- `tls_spifls_drv_wait_write_enable`. -/
def drvWaitWriteEnable (c : Chip) : Bool × Chip := Link.send io id c

/-- `tls_spifls_drv_wait_flash_ready`. -/
def drvWaitFlashReady (c : Chip) : Bool × Chip := Link.send io id c

/-- `tls_spifls_drv_read`, with the bytes it puts into the buffer. -/
def drvRead (addr len : Nat) (c : Chip) : (Bool × Chip) × List Byte :=
  (Link.send io id c, slice c.mem (cmdAddr (command dataRead addr)) len)

/-- `tls_spifls_drv_page_write`. -/
def drvPageWrite (page : Nat) (buf : List Byte) (c : Chip) : Bool × Chip :=
  Link.andThen (drvWriteEnable io c) fun c =>
    Link.andThen (drvWaitWriteEnable io c) fun c =>
      Link.andThen
        (Link.send io
          (fun m => (Op.program (cmdAddr (command pageProgram (page * 256))) (buf.take 256)).apply m) c)
        (drvWaitFlashReady io)

/-- `tls_spifls_drv_erase`; the chip ignores the address bits inside a sector. -/
def drvErase (sector : Nat) (c : Chip) : Bool × Chip :=
  Link.andThen (drvWriteEnable io c) fun c =>
    Link.andThen (drvWaitWriteEnable io c) fun c =>
      Link.andThen
        (Link.send io
          (fun m => (Op.erase (cmdAddr (command sectorErase (sector * 4096)) / 4096 * 4096) 4096).apply m) c)
        (drvWaitFlashReady io)

/-- The status of a driver call. -/
def driverStatus (ok : Bool) : Status := if ok then .ok else .eio

/-- `tls_spifls_page_write`. -/
def tlsSpiflsPageWrite (fls : SpiFls) (page : Nat) (buf : List Byte) (pageCnt : Nat) (c : Chip) :
    Status × Chip :=
  match fls with
  | none => (.eperm, c)
  | some none => (.enodrv, c)
  | some (some drv) =>
    if drv.totalSize / 256 ≤ page ∨ pageCnt = 0 then (.einval, c)
    else
      let writePages :=
        if drv.totalSize / 256 < (page + pageCnt) % 2 ^ 32 then drv.totalSize / 256 - page else pageCnt
      let r := Link.loop (fun i => drvPageWrite io ((page + i) % 2 ^ 32) (buf.drop (i * 256))) writePages 0 c
      (driverStatus r.1, r.2)

end Driver

/-! ## The command word -/

theorem byteAt_toNat (w : BitVec 32) (p : Nat) : (byteAt w p).toNat = w.toNat / 2 ^ (p * 8) % 256 := by
  rw [byteAt, BitVec.toNat_setWidth, BitVec.toNat_ushiftRight, Nat.shiftRight_eq_div_pow]

theorem byteAt_command (opcode : Byte) (addr : Nat) {q : Nat} (h0 : 1 ≤ q) (hq : q < 4) :
    byteAt (command opcode addr) q = byteAt (BitVec.ofNat 32 addr) (3 - q) := by
  rw [← byteAt_swap32 _ hq]
  have hmask : ∀ j : Fin 32, (0xFFFFFF00#32).getLsbD j = decide (8 ≤ j.val) := by decide
  apply BitVec.eq_of_getLsbD_eq
  intro i hi
  have hbit := hmask ⟨q * 8 + i, by omega⟩
  simp only [show 8 ≤ q * 8 + i by omega, decide_true] at hbit
  rw [byteAt, byteAt, BitVec.getLsbD_setWidth, BitVec.getLsbD_setWidth, BitVec.getLsbD_ushiftRight,
    BitVec.getLsbD_ushiftRight, command, BitVec.getLsbD_or, BitVec.getLsbD_and, BitVec.getLsbD_setWidth,
    BitVec.getLsbD_of_ge opcode _ (by omega), hbit, Bool.and_false, Bool.false_or, Bool.and_true]

theorem cmdAddr_command (opcode : Byte) (addr : Nat) : cmdAddr (command opcode addr) = addr % 2 ^ 24 := by
  unfold cmdAddr
  rw [byteAt_command opcode addr (by omega) (by omega), byteAt_command opcode addr (by omega) (by omega),
    byteAt_command opcode addr (by omega) (by omega), byteAt_toNat, byteAt_toNat, byteAt_toNat,
    BitVec.toNat_ofNat]
  omega

/-! ## What the calls send -/

section Sends

variable {io : Io}

theorem drvPageWrite_sends (io : Io) (page : Nat) (buf : List Byte) : Sends io (drvPageWrite io page buf) 4
    fun m => (Op.program (page * 256 % 2 ^ 24) (buf.take 256)).apply m := by
  have hend := (Sends.send io fun m =>
    (Op.program (cmdAddr (command pageProgram (page * 256))) (buf.take 256)).apply m).andThen
      (Sends.send io id)
  have hall := (Sends.send io id).andThen ((Sends.send io id).andThen hend)
  rw [cmdAddr_command] at hall
  unfold drvPageWrite
  rw [cmdAddr_command]
  exact hall

theorem drvErase_sends (io : Io) (sector : Nat) : Sends io (drvErase io sector) 4
    fun m => (Op.erase (sector * 4096 % 2 ^ 24 / 4096 * 4096) 4096).apply m := by
  have hend := (Sends.send io fun m =>
    (Op.erase (cmdAddr (command sectorErase (sector * 4096)) / 4096 * 4096) 4096).apply m).andThen
      (Sends.send io id)
  have hall := (Sends.send io id).andThen ((Sends.send io id).andThen hend)
  rw [cmdAddr_command] at hall
  unfold drvErase
  rw [cmdAddr_command]
  exact hall

theorem run_eq_foldl (m : Nat → Byte) (ops : List Op) : run m ops = ops.foldl (fun m o => o.apply m) m := by
  induction ops generalizing m with
  | nil => rfl
  | cons o ops ih => exact ih _

/-- The pages of a sector programmed one by one, as one list of commands. -/
theorem pages_run (m : Nat → Byte) (a : Nat) (cache : List Byte) (n : Nat) :
    (List.range' 0 n).foldl
        (fun m i => (Op.program (a + i * 256) ((cache.drop (i * 256)).take 256)).apply m) m =
      run m (programPages a 256 cache n) := by
  rw [run_eq_foldl, programPages, List.foldl_map, List.range_eq_range']

/-- The 16 pages of sector `q`. -/
theorem pages_sends (io : Io) (q : Nat) (cache : List Byte) :
    Sends io (Link.loop (fun i => drvPageWrite io ((q * 16 + i) % 2 ^ 32) (cache.drop (i * 256))) 16 0) 64
      fun m => run m (programPages (q * 4096 % 2 ^ 24) 256 cache 16) := by
  have hpages : ∀ j, j < 16 →
      Sends io (drvPageWrite io ((q * 16 + (0 + j)) % 2 ^ 32) (cache.drop ((0 + j) * 256))) 4 fun m =>
        (Op.program (q * 4096 % 2 ^ 24 + (0 + j) * 256) ((cache.drop ((0 + j) * 256)).take 256)).apply m := by
    intro j hj
    have hpage := drvPageWrite_sends io ((q * 16 + (0 + j)) % 2 ^ 32) (cache.drop ((0 + j) * 256))
    have haddr : (q * 16 + (0 + j)) % 2 ^ 32 * 256 % 2 ^ 24 = q * 4096 % 2 ^ 24 + (0 + j) * 256 := by omega
    rwa [haddr] at hpage
  have hloop := Sends.loop (f := fun i => drvPageWrite io ((q * 16 + i) % 2 ^ 32) (cache.drop (i * 256)))
    (g := fun i m => (Op.program (q * 4096 % 2 ^ 24 + i * 256) ((cache.drop (i * 256)).take 256)).apply m)
    16 0 hpages
  simp only [pages_run] at hloop
  exact hloop

/-- `tls_spifls_page_write` of a whole sector of the chip. -/
theorem pageWrite_sector {drv : Drv} {q : Nat} (hq : q < drv.totalSize / 4096) (cache : List Byte) (c : Chip) :
    tlsSpiflsPageWrite io (some (some drv)) (q * 16 % 2 ^ 32) cache 16 c =
      (driverStatus (Link.loop (fun i => drvPageWrite io ((q * 16 + i) % 2 ^ 32) (cache.drop (i * 256))) 16 0 c).1,
        (Link.loop (fun i => drvPageWrite io ((q * 16 + i) % 2 ^ 32) (cache.drop (i * 256))) 16 0 c).2) := by
  have hsize := drv.size_lt
  have hpage : q * 16 % 2 ^ 32 = q * 16 := by omega
  have hfit : ¬ drv.totalSize / 256 < (q * 16 + 16) % 2 ^ 32 := by omega
  unfold tlsSpiflsPageWrite
  simp only []
  rw [hpage, if_neg (by omega), if_neg hfit]

/-- Past the end of the chip `tls_spifls_page_write` refuses. -/
theorem pageWrite_past {drv : Drv} {q : Nat} (hq : drv.totalSize / 4096 ≤ q) (hle : q < 2 ^ 28)
    (cache : List Byte) (c : Chip) :
    tlsSpiflsPageWrite io (some (some drv)) (q * 16 % 2 ^ 32) cache 16 c = (.einval, c) := by
  have hwhole := drv.whole
  have hpage : q * 16 % 2 ^ 32 = q * 16 := by omega
  unfold tlsSpiflsPageWrite
  simp only []
  rw [hpage, if_pos (by omega)]

/-- Erasing a sector and writing its pages succeeds exactly if the sector belongs to the chip and every
message is taken. -/
theorem rewriteSector_iff (drv : Drv) {q : Nat} (hq : q < 2 ^ 28) (cache : List Byte) (c : Chip) :
    ((drvErase io q c).1 = true ∧
        (tlsSpiflsPageWrite io (some (some drv)) (q * 16 % 2 ^ 32) cache 16 (drvErase io q c).2).1 = .ok) ↔
      q < drv.totalSize / 4096 ∧ Clear io c.sent 68 := by
  have herase := drvErase_sends io q
  have hstatus : ∀ b : Bool, driverStatus b = .ok ↔ b = true := by decide
  rw [clear_add io c.sent 4 64]
  by_cases hin : q < drv.totalSize / 4096
  · rw [pageWrite_sector hin, hstatus, herase.ok_iff, (pages_sends io q cache).ok_iff]
    constructor
    · rintro ⟨h4, h64⟩
      rw [herase.done c h4] at h64
      exact ⟨hin, h4, h64⟩
    · rintro ⟨-, h4, h64⟩
      rw [herase.done c h4]
      exact ⟨h4, h64⟩
  · rw [pageWrite_past (by omega) hq]
    simp [hin]

/-- The sector has the new content then. -/
theorem rewriteSector_eq {drv : Drv} {q : Nat} (hq : q < drv.totalSize / 4096) {cache : List Byte}
    (hc : cache.length = 4096) {c : Chip} (h : Clear io c.sent 68) :
    (tlsSpiflsPageWrite io (some (some drv)) (q * 16 % 2 ^ 32) cache 16 (drvErase io q c).2).2 =
      ⟨overlay c.mem (q * 4096 % 2 ^ 24) cache, c.sent + 68⟩ := by
  obtain ⟨h4, h64⟩ := (clear_add io c.sent 4 64).1 h
  have hbase : q * 4096 % 2 ^ 24 / 4096 * 4096 = q * 4096 % 2 ^ 24 := by omega
  have hrun := run_rewrite (m := c.mem) (a := q * 4096 % 2 ^ 24) (p := 256) (k := 16) hc
  rw [rewrite, run_cons, show 16 * 256 = 4096 from rfl] at hrun
  rw [pageWrite_sector hq, (drvErase_sends io q).done c h4, (pages_sends io q cache).done _ h64, hbase, ← hrun]

end Sends

end Spifls
end Air101
