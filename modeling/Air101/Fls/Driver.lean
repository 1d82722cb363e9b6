import Air101.Storage.Nor

/-!
# Fls.Driver

The internal flash driver (`platform/drivers/internalflash/wm_internal_fls.c`): `flashRead`,
`tls_fls_read`, `tls_fls_write`, `tls_fls_write_without_erase` and `tls_fls_erase`.

The device state carries the cells of the chip and a log of the driver calls, each with the erase
and program commands it sent. The cells are always the result of those commands, so the log is
enough to speak about a power cut between two of them.

The sizes are written out: a sector (`INSIDE_FLS_SECTOR_SIZE`) has 4096 bytes in 16 pages
(`INSIDE_FLS_PAGE_SIZE`) of 256, and the chip is mapped at `0x8000000` (`INSIDE_FLS_BASE_ADDR`,
`FLASH_BASE_ADDR`), which is sector `0x8000`.

An address is a 32-bit number. The driver takes its offset below `INSIDE_FLS_BASE_ADDR` and the
controller sends the low 25 bits of it (`addr & 0x1FFFFFF` in `eraseSR`, `programSR` and
`__readByCMD`). Cells past the chip's density are kept in the model as cells of their own, so that
a command sent there stays visible.
-/

namespace Air101
namespace Fls

open Storage

/-- The `TLS_FLS_STATUS_*` codes these functions return. -/
inductive Status where
  | ok
  | einval
  | eperm
  | enomem
  deriving DecidableEq, Repr

def Status.code : Status → Int
  | .ok => 0
  | .einval => 1
  | .eperm => 3
  | .enomem => 6

/-- `addr & 0x1FFFFFF`: the address the controller puts on the bus. -/
def chipAddr (adr : Nat) : Nat := adr % 2 ^ 25

/-- `getFlashDensity`, from the capacity byte of the chip's JEDEC identifier. -/
def getFlashDensity (density : BitVec 8) : Nat :=
  if density ≠ 0#8 ∧ density ≤ 0x21#8 then (1#32 <<< density.toNat).toNat else 0

/-- A driver call and the commands it sent. -/
inductive Ev where
  | write (addr : Nat) (buf : List Byte) (ops : List Op)
  | erase (sector : Nat) (ops : List Op)
  deriving DecidableEq

def Ev.ops : Ev → List Op
  | .write _ _ ops => ops
  | .erase _ ops => ops

/-- `inside_fls` (its density, `none` before `tls_fls_init`), the cells, and the calls so far. -/
structure Dev where
  insideFls : Option Nat
  mem : Nat → Byte
  log : List Ev

/-- A driver call takes effect and is logged. -/
def Dev.issue (d : Dev) (e : Ev) : Dev := { d with mem := run d.mem e.ops, log := d.log ++ [e] }

@[simp] theorem Dev.issue_insideFls (d : Dev) (e : Ev) : (d.issue e).insideFls = d.insideFls := rfl
@[simp] theorem Dev.issue_mem (d : Dev) (e : Ev) : (d.issue e).mem = run d.mem e.ops := rfl
@[simp] theorem Dev.issue_log (d : Dev) (e : Ev) : (d.issue e).log = d.log ++ [e] := rfl

/-! ## Commands -/

/-- `eraseSector`: the chip ignores the address bits inside a sector. -/
def eraseSector (adr : Nat) : Op := .erase (chipAddr adr / 4096 * 4096) 4096

/-- `programPage` through `programSR`, which cuts the size at one page. -/
def programPage (adr sz : Nat) (buf : List Byte) : Op :=
  .program (chipAddr adr) (buf.take (min sz 256))

/-- `__readByCMD`: whole words come from the chip; a last partial word is filled up with zeros. -/
def readByCMD (m : Nat → Byte) (addr sz : Nat) : List Byte :=
  slice m (chipAddr addr) sz ++ List.replicate ((4 - sz % 4) % 4) 0

/-- `n` reads of `step` bytes, one behind the other. -/
def readPages (m : Nat → Byte) (step : Nat) : Nat → Nat → List Byte
  | _, 0 => []
  | addr, n + 1 => readByCMD m addr step ++ readPages m step (addr + step) n

/-- `flashRead`: the bytes it puts into the buffer. `aligned` says whether the buffer is 4-byte
aligned, which with the page offset and the length decides between the two paths. -/
def flashRead (m : Nat → Byte) (aligned : Bool) (addr sz : Nat) : List Byte :=
  let pageOffset := addr % 256
  if pageOffset = 0 ∧ aligned = true ∧ sz % 4 = 0 then
    let maxSize := if 512 ≤ sz then 1024 else 256
    let szPagenum := sz / maxSize
    let szRemain := sz % maxSize
    readPages m maxSize addr szPagenum ++
      (if szRemain = 0 then [] else readByCMD m (addr + szPagenum * maxSize) szRemain)
  else
    let flashAddr := addr - pageOffset
    let cache := readByCMD m flashAddr 256
    if 256 - pageOffset < sz then
      let rest := sz - (256 - pageOffset)
      let szPagenum := rest / 256
      let szRemain := rest % 256
      (cache.drop pageOffset).take (256 - pageOffset) ++
        readPages m 256 (flashAddr + 256) szPagenum ++
        (if szRemain = 0 then []
          else (readByCMD m (flashAddr + 256 + szPagenum * 256)
            (szRemain + (4 - szRemain % 4))).take szRemain)
    else (cache.drop pageOffset).take sz

/-! ## Driver calls -/

/-- The argument test all four entry points share: the driver is installed, the first address lies
below the density, and there is something to do. -/
def rangeCheck (d : Dev) (addr len : Nat) : Status :=
  match d.insideFls with
  | none => .eperm
  | some density => if density ≤ addr % 0x8000000 ∨ len = 0 then .einval else .ok

/-- `tls_fls_read`: the status and, on success, the bytes read. -/
def tlsFlsRead (d : Dev) (aligned : Bool) (addr len : Nat) : Status × List Byte :=
  match rangeCheck d addr len with
  | .ok => (.ok, flashRead d.mem aligned addr len)
  | e => (e, [])

/-- The commands that rewrite the sector `secpos` with the 4 KB in `cache`. -/
def sectorOps (secpos : Nat) (cache : List Byte) : List Op :=
  eraseSector (secpos * 4096) ::
    (List.range (16)).map fun i =>
      programPage (secpos * 4096 + i * 256) 256 (cache.drop (i * 256))

/-- The `while (1)` loop of `tls_fls_write`: read the sector, erase it, merge the data into the
cache (`tls_fls_cache`, word aligned), program it, go on with the next sector. Every pass takes at
least one byte of `buf`, so `buf.length` is enough fuel. -/
def writeSectors : Nat → (Nat → Byte) → Nat → Nat → List Byte → List Op
  | 0, _, _, _, _ => []
  | fuel + 1, m, secpos, secoff, buf =>
    let secremain := min buf.length (4096 - secoff)
    let cache := flashRead m true (secpos * 4096) 4096
    let ops := sectorOps secpos (patch cache secoff (buf.take secremain))
    if buf.length = secremain then ops
    else ops ++ writeSectors fuel (run m ops) (secpos + 1) 0 (buf.drop secremain)

/-- `tls_fls_write`. -/
def tlsFlsWrite (d : Dev) (addr : Nat) (buf : List Byte) : Status × Dev :=
  match rangeCheck d addr buf.length with
  | .ok =>
    let offaddr := addr % 0x8000000
    let secpos := offaddr / 4096
    let secoff := offaddr % 4096
    (.ok, d.issue (.write addr buf (writeSectors buf.length d.mem secpos secoff buf)))
  | e => (e, d.issue (.write addr buf []))

/-- The `while (1)` loop of `tls_fls_write_without_erase`: merge the data into the page `cache`,
program it, go on with the next page. Only the last page is read before it is merged. -/
def writePages : Nat → (Nat → Byte) → Nat → Nat → List Byte → List Byte → List Op
  | 0, _, _, _, _, _ => []
  | fuel + 1, m, pagepos, pageoff, cache, buf =>
    let pageremain := min buf.length (256 - pageoff)
    let cache := patch cache pageoff (buf.take pageremain)
    let op := programPage (pagepos * 256) 256 cache
    if buf.length = pageremain then [op]
    else
      let rest := buf.drop pageremain
      let next :=
        if 256 < rest.length then cache else flashRead (op.apply m) true ((pagepos + 1) * 256) 256
      op :: writePages fuel (op.apply m) (pagepos + 1) 0 next rest

/-- `tls_fls_write_without_erase`; `heap` says whether the page cache can be allocated. -/
def tlsFlsWriteWithoutErase (heap : Bool) (d : Dev) (addr : Nat) (buf : List Byte) : Status × Dev :=
  match rangeCheck d addr buf.length with
  | .ok =>
    if heap then
      let offaddr := addr % 0x8000000
      let pagepos := offaddr / 256
      let pageoff := offaddr % 256
      let cache := flashRead d.mem true (pagepos * 256) 256
      (.ok, d.issue (.write addr buf (writePages buf.length d.mem pagepos pageoff cache buf)))
    else (.enomem, d.issue (.write addr buf []))
  | e => (e, d.issue (.write addr buf []))

/-- `tls_fls_erase`: the sector number may count from offset 0 or from `INSIDE_FLS_BASE_ADDR`. -/
def tlsFlsErase (d : Dev) (sector : Nat) : Status × Dev :=
  match d.insideFls with
  | none => (.eperm, d.issue (.erase sector []))
  | some density =>
    if density / 4096 + 0x8000 ≤ sector then
      (.einval, d.issue (.erase sector []))
    else (.ok, d.issue (.erase sector [eraseSector (sector * 4096)]))

end Fls
end Air101
