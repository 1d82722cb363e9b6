import Air101.Fls.Adapters
import Air101.Storage.Erasable

/-!
# Lfs.Device

The block device of the file system (`app/port/lfs_port.c`) on the driver of the internal flash. Its
blocks are the sectors of a region of the chip.

* `Region`: the region, with what makes its blocks sectors.
* `read_spec`, `prog_spec`, `erase_spec`: the three calls.
* `device_refine`: every run of calls is one of a device with blocks to be erased, and the rest of the
  chip is as it was.
* `lfs_reads_back`: what the file system programs into an erased block is what it reads.
-/

namespace Air101
namespace Lfs

open Storage Fls
open Storage.Erasable (Cell Event Contents)

/-- `block_device_read`; `addr` is `LFS_START_ADDR`. -/
def blockDeviceRead (addr : Nat) (d : Dev) (aligned : Bool) (block off size : Nat) : Int × List Byte :=
  let ret := tlsFlsRead d aligned ((block * 4096 + off + addr) % 2 ^ 32) size
  (if ret.1 ≠ .ok then -1 else 0, ret.2)

/-- `block_device_prog` -/
def blockDeviceProg (addr : Nat) (heap : Bool) (d : Dev) (block off : Nat) (buffer : List Byte) :
    Int × Dev :=
  let ret := tlsFlsWriteWithoutErase heap d ((block * 4096 + off + addr) % 2 ^ 32) buffer
  (if ret.1 ≠ .ok then -1 else 0, ret.2)

/-- `block_device_erase` -/
def blockDeviceErase (addr : Nat) (d : Dev) (block : Nat) : Int × Dev :=
  let ret := tlsFlsErase d ((block * 4096 + addr) % 2 ^ 32 / 4096)
  (if ret.1 ≠ .ok then -1 else 0, ret.2)

/-- `lfs_addr` and `lfs_size_kb`: a region of the chip that starts with a sector. -/
structure Region (c : Chip) where
  addr : Nat
  sizeKb : Nat
  mapped : Mapped c addr
  inside : addr % 0x8000000 + sizeKb * 1024 ≤ c.density
  aligned : addr % 4096 = 0

namespace Region

variable {c : Chip} (r : Region c)

/-- `lfs_cfg.block_count` -/
def blockCount : Nat := r.sizeKb * 1024 / 4096

/-- The first cell of the region. -/
def base : Nat := r.addr % 0x8000000

/-- The cells of the region. -/
def Covers (x : Nat) : Prop := r.base ≤ x ∧ x < r.base + r.sizeKb * 1024

variable {r} {block off : Nat}

theorem place (hb : block < r.blockCount) (ho : off < 4096) :
    (block * 4096 + off + r.addr) % 2 ^ 32 = block * 4096 + off + r.addr ∧
      (block * 4096 + off + r.addr) % 0x8000000 = r.base + block * 4096 + off ∧
      r.base + block * 4096 + 4096 ≤ r.base + r.sizeKb * 1024 ∧
      Mapped c (block * 4096 + off + r.addr) := by
  have hle := c.density_le
  have hin := r.inside
  have hmap := r.mapped
  unfold Mapped at hmap ⊢
  unfold blockCount at hb
  unfold base
  have hblock : block * 4096 + 4096 ≤ r.sizeKb * 1024 := by omega
  refine ⟨by omega, by omega, by omega, by omega⟩

end Region

theorem region40K_mapped : Mapped chip2M 0xF0000 := by unfold Mapped; decide

/-- A region of 40 KB on a chip of 2 MB. -/
def region40K : Region chip2M where
  addr := 0xF0000
  sizeKb := 40
  mapped := region40K_mapped
  inside := by decide
  aligned := by decide

def blank2M : Dev := ⟨some 0x200000, fun _ => 0xFF#8, []⟩

section Calls

variable {c : Chip} {r : Region c} {d : Dev} {block off : Nat}

theorem read_spec (hd : d.insideFls = some c.density) (hb : block < r.blockCount) {size : Nat}
    (hpos : 0 < size) (hoff : off + size ≤ 4096) (aligned : Bool) :
    blockDeviceRead r.addr d aligned block off size =
      (0, slice d.mem (r.base + block * 4096 + off) size) := by
  have hin := r.inside
  obtain ⟨hwrap, hplace, hend, -⟩ := Region.place hb (show off < 4096 by omega)
  have hlast : (block * 4096 + off + r.addr) % 0x8000000 + size ≤ c.density := by
    unfold Region.base at *
    omega
  rw [blockDeviceRead, hwrap, tlsFlsRead_at c hd aligned hpos hlast, hplace]
  rfl

/-- Without memory for its page nothing is written. -/
theorem prog_spec (hd : d.insideFls = some c.density) (hb : block < r.blockCount) {data : List Byte}
    (hpos : 0 < data.length) (hoff : off + data.length ≤ 4096) (heap : Bool) :
    (blockDeviceProg r.addr heap d block off data).1 = (if heap then 0 else -1) ∧
      (blockDeviceProg r.addr heap d block off data).2.insideFls = some c.density ∧
      (blockDeviceProg r.addr heap d block off data).2.mem =
        if heap then (Op.program (r.base + block * 4096 + off) data).apply d.mem else d.mem := by
  have hin := r.inside
  have hle := c.density_le
  obtain ⟨hwrap, hplace, hend, -⟩ := Region.place hb (show off < 4096 by omega)
  have hfirst : (block * 4096 + off + r.addr) % 0x8000000 < c.density := by
    unfold Region.base at *
    omega
  have hlast : (block * 4096 + off + r.addr) % 0x8000000 + data.length ≤ 2 ^ 25 := by
    unfold Region.base at *
    omega
  rw [blockDeviceProg, hwrap]
  refine ⟨?_, by simp [hd], ?_⟩
  · cases heap with
    | true => simp [(tlsFlsWriteWithoutErase_ok hd hfirst (List.length_pos_iff.mp hpos) hlast).1]
    | false => simp [tlsFlsWriteWithoutErase, rangeCheck_ok hd hfirst hpos]
  · cases heap with
    | true =>
      rw [if_pos rfl, ← hplace]
      exact (tlsFlsWriteWithoutErase_ok hd hfirst (List.length_pos_iff.mp hpos) hlast).2
    | false =>
      simp [tlsFlsWriteWithoutErase, rangeCheck_ok hd hfirst hpos, Ev.ops]

theorem erase_spec (hd : d.insideFls = some c.density) (hb : block < r.blockCount) :
    (blockDeviceErase r.addr d block).1 = 0 ∧
      (blockDeviceErase r.addr d block).2.insideFls = some c.density ∧
      (blockDeviceErase r.addr d block).2.mem = (Op.erase (r.base + block * 4096) 4096).apply d.mem := by
  have hin := r.inside
  obtain ⟨hwrap, hplace, hend, hmap⟩ := @Region.place c r block 0 hb (by decide)
  simp only [Nat.add_zero] at hwrap hplace hmap
  have hfirst : (block * 4096 + r.addr) % 0x8000000 < c.density := by
    unfold Region.base at *
    omega
  have hsector : sectorOf (r.base + block * 4096) = r.base + block * 4096 := by
    have hal := r.aligned
    unfold sectorOf Region.base
    omega
  rw [blockDeviceErase, hwrap, tlsFlsErase_at c hd hmap hfirst, hplace, hsector]
  exact ⟨rfl, hd, rfl⟩

end Calls

/-! ## The calls of the file system -/

inductive Call where
  | read (block off size : Nat) (aligned : Bool)
  | prog (block off : Nat) (data : List Byte) (heap : Bool)
  | erase (block : Nat)

/-- A call, which stays inside a block, with what the file system sees of it. -/
def step {c : Chip} (r : Region c) (d : Dev) : Call → Option (Event Byte × Dev)
  | .read block off size aligned =>
    if block < r.blockCount ∧ 0 < size ∧ off + size ≤ 4096 then
      let ret := blockDeviceRead r.addr d aligned block off size
      some (if ret.1 = 0 then .read block off ret.2 else .failed, d)
    else none
  | .prog block off data heap =>
    if block < r.blockCount ∧ 0 < data.length ∧ off + data.length ≤ 4096 then
      let ret := blockDeviceProg r.addr heap d block off data
      some (if ret.1 = 0 then .prog block off data else if heap then .failed else .refused, ret.2)
    else none
  | .erase block =>
    if block < r.blockCount then
      let ret := blockDeviceErase r.addr d block
      some (if ret.1 = 0 then .erase block else .failed, ret.2)
    else none

section Steps

variable {c : Chip} {r : Region c} {d : Dev} {block off : Nat}

theorem step_read (hd : d.insideFls = some c.density) {size : Nat} {aligned : Bool}
    (hin : block < r.blockCount ∧ 0 < size ∧ off + size ≤ 4096) :
    step r d (.read block off size aligned) =
      some (.read block off (slice d.mem (r.base + block * 4096 + off) size), d) := by
  rw [step, if_pos hin]
  simp only [read_spec hd hin.1 hin.2.1 hin.2.2 aligned, if_true]

theorem step_prog (hd : d.insideFls = some c.density) {data : List Byte} {heap : Bool}
    (hin : block < r.blockCount ∧ 0 < data.length ∧ off + data.length ≤ 4096) :
    step r d (.prog block off data heap) =
      some (if heap then .prog block off data else .refused,
        (blockDeviceProg r.addr heap d block off data).2) := by
  have hret := (prog_spec hd hin.1 hin.2.1 hin.2.2 heap).1
  rw [step, if_pos hin]
  simp only [hret]
  cases heap with
  | true => rfl
  | false => rfl

theorem step_erase (hd : d.insideFls = some c.density) (hb : block < r.blockCount) :
    step r d (.erase block) = some (.erase block, (blockDeviceErase r.addr d block).2) := by
  rw [step, if_pos hb]
  simp only [(erase_spec hd hb).1, if_true]

end Steps

/-! ## The device -/

/-- The value is as it is known. -/
def Agrees (v : Byte) : Cell Byte → Prop
  | .unknown => True
  | .erased => v = 0xFF#8
  | .holds w => v = w

theorem agrees_program {v : Byte} {k : Cell Byte} (h : Agrees v k) (w : Byte) :
    Agrees (v &&& w) (k.program w) := by
  cases k with
  | erased =>
    have hv : v = 0xFF#8 := h
    rw [hv]
    exact BitVec.allOnes_and
  | unknown => exact trivial
  | holds => exact trivial

/-- The cells of the region are as they are known. -/
structure Shows {c : Chip} (r : Region c) (d : Dev) (s : Contents Byte) : Prop where
  installed : d.insideFls = some c.density
  cells : ∀ b o, b < r.blockCount → o < 4096 → Agrees (d.mem (r.base + b * 4096 + o)) (s b o)

section Device

variable {c : Chip} {r : Region c} {d d' : Dev} {s : Contents Byte} {block off : Nat}

theorem prog_agrees (h : Shows r d s) {data : List Byte} (hoff : off + data.length ≤ 4096) {b o : Nat}
    (hb : b < r.blockCount) (ho : o < 4096) :
    Agrees ((Op.program (r.base + block * 4096 + off) data).apply d.mem (r.base + b * 4096 + o))
      (Erasable.prog s block off data b o) := by
  have hcell := h.cells b o hb ho
  rw [Erasable.prog]
  split
  case isTrue hin =>
    obtain ⟨rfl, hle⟩ := hin
    have hplace : r.base + b * 4096 + o - (r.base + b * 4096 + off) = o - off := by omega
    rw [Op.apply, if_pos (by omega), hplace]
    cases data[o - off]? with
    | none =>
      rw [Option.getD_none, Option.map_none, Option.getD_none, show 0xFF#8 = BitVec.allOnes 8 from rfl,
        BitVec.and_allOnes]
      exact hcell
    | some v => exact agrees_program hcell v
  case isFalse hout =>
    rw [Op.apply_frame]
    · exact hcell
    · rintro ⟨hle, hlt⟩
      exact hout ⟨by omega, by omega⟩

theorem erase_agrees (h : Shows r d s) (block : Nat) {b o : Nat} (hb : b < r.blockCount)
    (ho : o < 4096) :
    Agrees ((Op.erase (r.base + block * 4096) 4096).apply d.mem (r.base + b * 4096 + o))
      (Erasable.erase s block b o) := by
  rw [Erasable.erase, Op.apply]
  by_cases hblock : b = block
  · rw [if_pos (by omega), if_pos hblock]
    rfl
  · rw [if_neg (by omega), if_neg hblock]
    exact h.cells b o hb ho

/-- A call is one of the device, and changes nothing outside the region. -/
theorem step_device (h : Shows r d s) {call : Call} {e : Event Byte} (hs : step r d call = some (e, d')) :
    ∃ s', Erasable.Step s e s' ∧ Shows r d' s' ∧ ∀ x, ¬ r.Covers x → d'.mem x = d.mem x := by
  have hd := h.installed
  cases call with
  | read block off size aligned =>
    by_cases hin : block < r.blockCount ∧ 0 < size ∧ off + size ≤ 4096
    · rw [step_read hd hin] at hs
      cases hs
      refine ⟨s, .read fun i v w hv hw => ?_, h, fun _ _ => rfl⟩
      rw [slice_getElem?] at hv
      split at hv
      case isTrue hi =>
        cases hv
        have hcell := h.cells block (off + i) hin.1 (by omega)
        rw [hw, ← Nat.add_assoc] at hcell
        exact hcell
      case isFalse => cases hv
    · rw [step, if_neg hin] at hs
      cases hs
  | prog block off data heap =>
    by_cases hin : block < r.blockCount ∧ 0 < data.length ∧ off + data.length ≤ 4096
    · obtain ⟨-, hinst, hmem⟩ := prog_spec hd hin.1 hin.2.1 hin.2.2 heap
      rw [step_prog hd hin] at hs
      cases hs
      cases heap with
      | true =>
        refine ⟨_, .prog s block off data, ⟨hinst, fun b o hb ho => ?_⟩, fun x hx => ?_⟩
        · rw [hmem, if_pos rfl]
          exact prog_agrees h hin.2.2 hb ho
        · rw [hmem, if_pos rfl]
          refine Op.apply_frame fun htouch => hx ?_
          obtain ⟨-, -, hend, -⟩ := @Region.place c r block 0 hin.1 (by decide)
          obtain ⟨hle, hlt⟩ := htouch
          exact ⟨by omega, by omega⟩
      | false =>
        refine ⟨s, .refused s, ⟨hinst, fun b o hb ho => ?_⟩, fun x hx => ?_⟩
        · rw [hmem]
          exact h.cells b o hb ho
        · rw [hmem]
          rfl
    · rw [step, if_neg hin] at hs
      cases hs
  | erase block =>
    by_cases hin : block < r.blockCount
    · obtain ⟨-, hinst, hmem⟩ := erase_spec hd hin
      rw [step_erase hd hin] at hs
      cases hs
      refine ⟨_, .erase s block, ⟨hinst, fun b o hb ho => ?_⟩, fun x hx => ?_⟩
      · rw [hmem]
        exact erase_agrees h block hb ho
      · rw [hmem]
        refine Op.apply_frame fun htouch => hx ?_
        obtain ⟨-, -, hend, -⟩ := @Region.place c r block 0 hin (by decide)
        obtain ⟨hle, hlt⟩ := htouch
        exact ⟨by omega, by omega⟩
    · rw [step, if_neg hin] at hs
      cases hs

/-- The calls of the file system, with what it sees. -/
def Run (r : Region c) (d : Dev) (es : List (Event Byte)) (d' : Dev) : Prop :=
  Path (fun d e d' => ∃ call, step r d call = some (e, d')) d es d'

theorem run_device {es : List (Event Byte)} (h : Run r d es d') (hd : d.insideFls = some c.density) :
    ∃ s, Path Erasable.Step (fun _ _ => .unknown) es s ∧ Shows r d' s ∧
      ∀ x, ¬ r.Covers x → d'.mem x = d.mem x := by
  refine h.simulates (fun e s => Shows r e s ∧ ∀ x, ¬ r.Covers x → e.mem x = d.mem x) ?_
    ⟨⟨hd, fun _ _ _ _ => trivial⟩, fun _ _ => rfl⟩
  rintro _ _ _ _ ⟨call, hs⟩ ⟨hshows, hframe⟩
  obtain ⟨s', hstep, hshows', hsame⟩ := step_device hshows hs
  exact ⟨s', hstep, hshows', fun x hx => (hsame x hx).trans (hframe x hx)⟩

/-- Whatever the chip holds at first, the calls do what the file system relies on, and none fails for
another reason than a lack of memory. They change nothing outside the region. -/
theorem device_refine {es : List (Event Byte)} (h : Run r d es d') (hd : d.insideFls = some c.density) :
    (∃ s, Path Erasable.Step (fun _ _ => .unknown) es s ∧ Shows r d' s) ∧
      ∀ x, ¬ r.Covers x → d'.mem x = d.mem x := by
  obtain ⟨s, hpath, hshows, hframe⟩ := run_device h hd
  exact ⟨⟨s, hpath, hshows⟩, hframe⟩

theorem device_refine_one : ∃ (d : Dev) (s : Contents Byte),
    Path Erasable.Step (fun _ _ => .unknown) [.erase 0, .prog 0 0 [0xA5#8]] s ∧ Shows region40K d s := by
  have hblock : 0 < region40K.blockCount := by decide
  have hstart : blank2M.insideFls = some chip2M.density := rfl
  have hinst := (erase_spec (r := region40K) hstart hblock).2.1
  have hprog := @step_prog chip2M region40K _ 0 0 hinst [0xA5#8] true ⟨hblock, by decide, by decide⟩
  have hrun : Run region40K blank2M [.erase 0, .prog 0 0 [0xA5#8]] _ :=
    .cons ⟨.erase 0, step_erase hstart hblock⟩ (.cons ⟨_, hprog⟩ (.nil _))
  obtain ⟨⟨s, hpath, hshows⟩, -⟩ := device_refine hrun hstart
  exact ⟨_, s, hpath, hshows⟩

/-- What the file system programs into a block behind its erase is what it reads, if it does not program
those bytes or erase the block in between. -/
theorem lfs_reads_back {as bs cs ds : List (Event Byte)} {b : Nat} {data got : List Byte}
    (h : Run r d (as ++ .erase b :: (bs ++ .prog b off data :: (cs ++ .read b off got :: ds))) d')
    (hd : d.insideFls = some c.density) (hbs : ∀ e ∈ bs, ∀ i < data.length, ¬ e.Touches b (off + i))
    (hcs : ∀ e ∈ cs, ∀ i < data.length, ¬ e.Touches b (off + i)) (hlen : got.length = data.length) :
    got = data := by
  obtain ⟨s, hpath, -⟩ := run_device h hd
  exact Erasable.reads_back hpath hbs hcs hlen

theorem lfs_reads_back_one : ∃ d : Dev, slice d.mem 0xF0000 1 = [0xA5#8] := by
  have hblock : 0 < region40K.blockCount := by decide
  have hstart : blank2M.insideFls = some chip2M.density := rfl
  have hinst := (erase_spec (r := region40K) hstart hblock).2.1
  have hin : 0 < region40K.blockCount ∧ 0 < [0xA5#8].length ∧ 0 + [0xA5#8].length ≤ 4096 :=
    ⟨hblock, by decide, by decide⟩
  have hprog := @step_prog chip2M region40K _ 0 0 hinst [0xA5#8] true hin
  have hinst' := (prog_spec hinst hblock hin.2.1 hin.2.2 true).2.1
  have hread := @step_read chip2M region40K _ 0 0 hinst' 1 true hin
  have hrun : Run region40K blank2M ([] ++ .erase 0 :: ([] ++ .prog 0 0 [0xA5#8] ::
      ([] ++ .read 0 0 (slice _ 0xF0000 1) :: []))) _ :=
    .cons ⟨.erase 0, step_erase hstart hblock⟩ (.cons ⟨_, hprog⟩ (.cons ⟨_, hread⟩ (.nil _)))
  exact ⟨_, lfs_reads_back hrun hstart (by simp) (by simp) (slice_length _ _ _)⟩

end Device

end Lfs
end Air101
