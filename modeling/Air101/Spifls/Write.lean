import Air101.Spifls.Driver

/-!
# Spifls.Write

`tls_spifls_write` (`platform/drivers/flash/wm_fls.c`): sector by sector it reads, merges, erases and
programs, under the lock `fls_lock`.

Its sizes are 32-bit numbers, so `addr + len` can wrap. Every error exit of the loop releases the lock,
and the exit behind the loop releases it once more.

* `pass_good`, `pass_bad`: one pass of the loop.
* `loop_run`: a loop all of whose messages are taken lays the data over the chip.
* `loop_ok`, `loop_fails`: what else a loop says about its messages, the chip's end, and the lock.
* `good_sum`, `good_reach`: what a call needs that is good whatever the chip holds.
* `spifls_write_iff`: the lock is released once and the data are written, whatever the chip held,
  exactly if nothing wraps and no message of the call fails.
-/

namespace Air101
namespace Spifls

open Storage

/-- `spi_fls` with the chip, and how often `fls_lock` was acquired and released. -/
structure State where
  spiFls : SpiFls
  chip : Chip
  acquired : Nat
  released : Nat

/-- `tls_os_sem_acquire(spi_fls->fls_lock, 0)`. -/
def State.acquire (s : State) : State := { s with acquired := s.acquired + 1 }

/-- `tls_os_sem_release(spi_fls->fls_lock)`. -/
def State.release (s : State) : State := { s with released := s.released + 1 }

/-- The state with another chip content. -/
def State.holding (s : State) (m : Nat → Byte) : State := { s with chip := { s.chip with mem := m } }

/-- A difference of two `u32`. -/
def sub32 (a b : Nat) : Nat := (a + 2 ^ 32 - b) % 2 ^ 32

/-- How much of `buf` pass `i` copies. -/
def copySize (sectorNum off writeBytes i : Nat) : Nat :=
  if sectorNum = 1 then writeBytes -- flash write only in one sector
  else if i = 0 then 4096 - off
  else if i = sectorNum - 1 then writeBytes
  else 4096

/-- Where pass `i` puts it in the cache. -/
def copyOff (off i : Nat) : Nat := if i = 0 then off else 0

section Write

variable (io : Io)

/-- The loop of `tls_spifls_write`, with `n` passes to go. The result is `none` when `MEMCPY` runs over
the end of the cache. -/
def writeLoop (sectorAddr sectorNum off : Nat) : Nat → Nat → List Byte → Nat → State → Option (Status × State)
  | 0, _, _, _, s => some (.ok, s)
  | n + 1, i, buf, writeBytes, s =>
    let r := drvRead io ((sectorAddr + i) * 4096) 4096 s.chip
    let s := { s with chip := r.1.2 }
    if r.1.1 = false then some (.eio, s.release)
    else
      let size := copySize sectorNum off writeBytes i
      if 4096 < copyOff off i + size then none
      else
        let cache := patch r.2 (copyOff off i) (buf.take size)
        let e := drvErase io (sectorAddr + i) s.chip
        let s := { s with chip := e.2 }
        if e.1 = false then some (.eio, s.release)
        else
          let w := tlsSpiflsPageWrite io s.spiFls ((sectorAddr + i) * 16 % 2 ^ 32) cache 16 s.chip
          let s := { s with chip := w.2 }
          if w.1 ≠ .ok then some (w.1, s.release)
          else writeLoop sectorAddr sectorNum off n (i + 1) (buf.drop size) (sub32 writeBytes size) s

/-- `write_bytes`: `len`, cut at the end of the chip. -/
def writeBytes (totalSize addr len : Nat) : Nat :=
  if totalSize < (addr + len) % 2 ^ 32 then totalSize - addr else len

/-- `sector_num`. -/
def sectorNum (addr writeBytes : Nat) : Nat :=
  (sub32 (sub32 (addr + writeBytes) 1 / 4096) (addr / 4096) + 1) % 2 ^ 32

/-- `tls_spifls_write`; `heap` says whether the sector cache can be allocated. -/
def tlsSpiflsWrite (heap : Bool) (addr : Nat) (buf : Option (List Byte)) (s : State) :
    Option (Status × State) :=
  match s.spiFls with
  | none => some (.eperm, s)
  | some none => some (.enodrv, s)
  | some (some drv) =>
    match buf with
    | none => some (.einval, s)
    | some buf =>
      if drv.totalSize ≤ addr ∨ buf.length = 0 then some (.einval, s)
      else
        let s := s.acquire
        let bytes := writeBytes drv.totalSize addr buf.length
        let sectors := sectorNum addr bytes
        if heap = false then some (.enomem, s.release)
        else (writeLoop io (addr / 4096) sectors (addr % 4096) sectors 0 buf bytes s).map fun r =>
          (r.1, r.2.release)

end Write

/-! ## One pass -/

section Loop

variable {io : Io} {drv : Drv} {sectorAddr N off : Nat}

/-- The state after a pass that put `bs` at `a`. -/
def State.passed (s : State) (a : Nat) (bs : List Byte) : State :=
  { s with chip := ⟨overlay s.chip.mem a bs, s.chip.sent + 69⟩ }

@[simp] theorem passed_mem (s : State) (a : Nat) (bs : List Byte) :
    (s.passed a bs).chip.mem = overlay s.chip.mem a bs := rfl

theorem drvRead_sends (io : Io) (addr len : Nat) : Sends io (fun c => (drvRead io addr len c).1) 1 id :=
  Sends.send io id

/-- A pass over a sector of the chip, all of whose messages are taken. -/
theorem pass_good {n i bytes : Nat} {buf : List Byte} {s : State} (hs : s.spiFls = some (some drv))
    (hq : sectorAddr + i < drv.totalSize / 4096)
    (hfit : copyOff off i + copySize N off bytes i ≤ 4096) (hclear : Clear io s.chip.sent 69) :
    writeLoop io sectorAddr N off (n + 1) i buf bytes s =
      writeLoop io sectorAddr N off n (i + 1) (buf.drop (copySize N off bytes i))
        (sub32 bytes (copySize N off bytes i))
        (s.passed ((sectorAddr + i) * 4096 % 2 ^ 24 + copyOff off i) (buf.take (copySize N off bytes i))) := by
  have hsize := drv.size_lt
  obtain ⟨h1, h68⟩ := (clear_add io s.chip.sent 1 68).1 hclear
  have hread := (drvRead_sends io ((sectorAddr + i) * 4096) 4096).done s.chip h1
  have hcontent : (drvRead io ((sectorAddr + i) * 4096) 4096 s.chip).2 =
      slice s.chip.mem ((sectorAddr + i) * 4096 % 2 ^ 24) 4096 := by
    rw [drvRead, cmdAddr_command]
  have htake : (buf.take (copySize N off bytes i)).length ≤ copySize N off bytes i := List.length_take_le _ _
  have hcache : (patch (slice s.chip.mem ((sectorAddr + i) * 4096 % 2 ^ 24) 4096) (copyOff off i)
      (buf.take (copySize N off bytes i))).length = 4096 := by
    rw [patch_length (by rw [slice_length]; omega), slice_length]
  have hpatch := overlay_patch s.chip.mem ((sectorAddr + i) * 4096 % 2 ^ 24) 4096 (copyOff off i)
    (buf.take (copySize N off bytes i)) (by omega)
  obtain ⟨herase, hwrite⟩ := (rewriteSector_iff drv (show sectorAddr + i < 2 ^ 28 by omega)
    (patch (slice s.chip.mem ((sectorAddr + i) * 4096 % 2 ^ 24) 4096) (copyOff off i)
      (buf.take (copySize N off bytes i))) ⟨s.chip.mem, s.chip.sent + 1⟩).2 ⟨hq, h68⟩
  have hend := rewriteSector_eq hq hcache (c := ⟨s.chip.mem, s.chip.sent + 1⟩) h68
  rw [hpatch] at hend
  rw [writeLoop]
  simp only [hread, hcontent, hs, id]
  rw [if_neg (by simp), if_neg (by omega), if_neg (by simp [herase]), if_neg (not_not.mpr hwrite), hend,
    State.passed, hs]

/-- Any other pass ends the loop with an error and releases the lock, or runs over the cache. -/
theorem pass_bad {n i bytes : Nat} {buf : List Byte} {s s' : State} {err : Status}
    (hs : s.spiFls = some (some drv)) (hq : sectorAddr + i < 2 ^ 28)
    (hbad : ¬ (sectorAddr + i < drv.totalSize / 4096 ∧
      copyOff off i + copySize N off bytes i ≤ 4096 ∧ Clear io s.chip.sent 69))
    (h : writeLoop io sectorAddr N off (n + 1) i buf bytes s = some (err, s')) :
    err ≠ .ok ∧ s'.released = s.released + 1 := by
  rw [writeLoop] at h
  simp only [hs] at h
  split at h
  · -- the read failed
    rw [Option.some.injEq, Prod.mk.injEq] at h
    obtain ⟨rfl, rfl⟩ := h
    exact ⟨by decide, rfl⟩
  · rename_i hread
    rw [Bool.not_eq_false] at hread
    obtain ⟨h1, heq⟩ := (drvRead_sends io ((sectorAddr + i) * 4096) 4096).of_ok hread
    rw [heq] at h
    split at h
    · exact absurd h (by simp)
    · rename_i hfit
      split at h
      · rw [Option.some.injEq, Prod.mk.injEq] at h
        obtain ⟨rfl, rfl⟩ := h
        exact ⟨by decide, rfl⟩
      · rename_i herase
        rw [Bool.not_eq_false] at herase
        split at h
        · rename_i hwrite
          rw [Option.some.injEq, Prod.mk.injEq] at h
          obtain ⟨rfl, rfl⟩ := h
          exact ⟨hwrite, rfl⟩
        · -- nothing failed, so the pass was a good one
          rename_i hwrite
          rw [not_not] at hwrite
          obtain ⟨hin, h68⟩ := (rewriteSector_iff drv hq _ _).1 ⟨herase, hwrite⟩
          exact absurd ⟨hin, by omega, (clear_add io s.chip.sent 1 68).2 ⟨h1, h68⟩⟩ hbad

/-! ## The loop -/

/-- A loop that ends well had all its messages taken and stayed on the chip. It has not touched the
lock, nor any cell that 24 address bits do not reach. -/
theorem loop_ok {n i bytes : Nat} {buf : List Byte} {s s' : State} (hs : s.spiFls = some (some drv))
    (hq : sectorAddr + i ≤ drv.totalSize / 4096)
    (h : writeLoop io sectorAddr N off n i buf bytes s = some (.ok, s')) :
    Clear io s.chip.sent (69 * n) ∧ sectorAddr + i + n ≤ drv.totalSize / 4096 ∧
      s'.released = s.released ∧ ∀ x, 2 ^ 24 ≤ x → s'.chip.mem x = s.chip.mem x := by
  have hsize := drv.size_lt
  induction n generalizing i bytes buf s with
  | zero =>
    rw [writeLoop, Option.some.injEq, Prod.mk.injEq] at h
    obtain ⟨-, rfl⟩ := h
    exact ⟨fun k hk => absurd hk (by omega), hq, rfl, fun _ _ => rfl⟩
  | succ n ih =>
    by_cases hgood : sectorAddr + i < drv.totalSize / 4096 ∧
        copyOff off i + copySize N off bytes i ≤ 4096 ∧ Clear io s.chip.sent 69
    · obtain ⟨hin, hfit, hclear⟩ := hgood
      rw [pass_good hs hin hfit hclear] at h
      obtain ⟨hrest, hend, hrel, hhigh⟩ := ih (s := s.passed _ _) hs (by omega) h
      refine ⟨?_, by omega, hrel, fun x hx => ?_⟩
      · rw [show 69 * (n + 1) = 69 + 69 * n by omega]
        exact (clear_add io s.chip.sent 69 _).2 ⟨hclear, hrest⟩
      · rw [hhigh x hx, passed_mem]
        have htake : (buf.take (copySize N off bytes i)).length ≤ copySize N off bytes i :=
          List.length_take_le _ _
        exact overlay_out (by omega)
    · exact absurd rfl (pass_bad hs (by omega) hgood h).1

/-- A loop that ends with an error has released the lock. -/
theorem loop_fails {n i bytes : Nat} {buf : List Byte} {s s' : State} {err : Status}
    (hs : s.spiFls = some (some drv)) (hq : sectorAddr + i ≤ drv.totalSize / 4096)
    (h : writeLoop io sectorAddr N off n i buf bytes s = some (err, s')) (herr : err ≠ .ok) :
    s'.released = s.released + 1 := by
  have hsize := drv.size_lt
  induction n generalizing i bytes buf s with
  | zero =>
    rw [writeLoop, Option.some.injEq, Prod.mk.injEq] at h
    exact absurd h.1.symm herr
  | succ n ih =>
    by_cases hgood : sectorAddr + i < drv.totalSize / 4096 ∧
        copyOff off i + copySize N off bytes i ≤ 4096 ∧ Clear io s.chip.sent 69
    · obtain ⟨hin, hfit, hclear⟩ := hgood
      rw [pass_good hs hin hfit hclear] at h
      exact ih (s := s.passed _ _) hs (by omega) h
    · exact (pass_bad hs (by omega) hgood h).2

/-- With `n` passes to go, `bytes` bytes from the start of pass `i` on end in the last of the sectors. -/
structure Remaining (N off n i bytes : Nat) : Prop where
  count : i + n = N
  some : 1 ≤ N
  off_lt : off < 4096
  enough : copyOff off i + bytes ≤ 4096 * n
  tight : 4096 * n < copyOff off i + bytes + 4096

/-- A pass takes no more than there is, fits the cache, and leaves the rest for the later ones. -/
theorem Remaining.pass {n i bytes : Nat} (h : Remaining N off (n + 1) i bytes) :
    copySize N off bytes i ≤ bytes ∧ copyOff off i + copySize N off bytes i ≤ 4096 ∧
      Remaining N off n (i + 1) (bytes - copySize N off bytes i) ∧
      (copySize N off bytes i < bytes → copyOff off i + copySize N off bytes i = 4096) := by
  obtain ⟨hcount, hsome, hoff, henough, htight⟩ := h
  have hnext : copyOff off (i + 1) = 0 := if_neg (by omega)
  have hbound : copyOff off i ≤ off := by
    unfold copyOff
    split <;> omega
  by_cases hlast : n = 0
  · -- the last sector takes all that is left
    have hall : copySize N off bytes i = bytes := by
      unfold copySize
      by_cases hone : N = 1
      · rw [if_pos hone]
      · rw [if_neg hone, if_neg (by omega), if_pos (by omega)]
    rw [hall]
    refine ⟨Nat.le_refl _, by omega, ⟨by omega, hsome, hoff, by omega, by omega⟩, by omega⟩
  · -- an earlier one is filled up
    have hfull : copyOff off i + copySize N off bytes i = 4096 := by
      have hN : N ≠ 1 := by omega
      by_cases hi : i = 0
      · simp only [copySize, copyOff, hN, hi, if_true, if_false]
        omega
      · have hmiddle : i ≠ N - 1 := by omega
        simp only [copySize, copyOff, hN, hi, hmiddle, if_false]
    exact ⟨by omega, by omega, ⟨by omega, hsome, hoff, by omega, by omega⟩, fun _ => hfull⟩

/-- A loop all of whose messages are taken lays the data over the chip. -/
theorem loop_run {n i bytes : Nat} {buf : List Byte} {s : State} (hs : s.spiFls = some (some drv))
    (hrem : Remaining N off n i bytes) (hin : sectorAddr + N ≤ drv.totalSize / 4096)
    (hlow : (sectorAddr + N) * 4096 ≤ 2 ^ 24) (hbytes : bytes ≤ buf.length) (hlt : bytes < 2 ^ 32)
    (hclear : Clear io s.chip.sent (69 * n)) :
    ∃ sent, writeLoop io sectorAddr N off n i buf bytes s = some (.ok, { s with
      chip := ⟨overlay s.chip.mem ((sectorAddr + i) * 4096 + copyOff off i) (buf.take bytes), sent⟩ }) := by
  induction n generalizing i bytes buf s with
  | zero =>
    have henough := hrem.enough
    have hzero : bytes = 0 := by omega
    subst hzero
    refine ⟨s.chip.sent, ?_⟩
    rw [List.take_zero, overlay_nil]
    rfl
  | succ n ih =>
    obtain ⟨hle, hfit, hnext, hfull⟩ := hrem.pass
    have hcount := hrem.count
    have hnextOff : copyOff off (i + 1) = 0 := if_neg (by omega)
    rw [show 69 * (n + 1) = 69 + 69 * n by omega] at hclear
    obtain ⟨hfirst, hrest⟩ := (clear_add io s.chip.sent 69 _).1 hclear
    rw [pass_good hs (by omega) hfit hfirst]
    generalize copySize N off bytes i = size at *
    have hsub : sub32 bytes size = bytes - size := by
      unfold sub32
      omega
    have hbase : (sectorAddr + i) * 4096 % 2 ^ 24 = (sectorAddr + i) * 4096 := by omega
    rw [hsub, hbase]
    obtain ⟨sent, hloop⟩ := @ih (i + 1) (bytes - size) (buf.drop size)
      (s.passed ((sectorAddr + i) * 4096 + copyOff off i) (buf.take size)) hs hnext
      (by rw [List.length_drop]; omega) (by omega) hrest
    refine ⟨sent, hloop.trans ?_⟩
    -- the rest begins where this pass has ended
    have hover : overlay (overlay s.chip.mem ((sectorAddr + i) * 4096 + copyOff off i) (buf.take size))
        ((sectorAddr + (i + 1)) * 4096 + copyOff off (i + 1)) ((buf.drop size).take (bytes - size)) =
        overlay s.chip.mem ((sectorAddr + i) * 4096 + copyOff off i) (buf.take bytes) := by
      have hlen : (buf.take size).length = size := by
        rw [List.length_take]
        omega
      have hsplit : buf.take bytes = buf.take size ++ (buf.drop size).take (bytes - size) := by
        rw [← List.take_add, Nat.add_sub_cancel' hle]
      rw [hsplit, overlay_append, hlen]
      by_cases hmore : size < bytes
      · have hedge := hfull hmore
        rw [hnextOff, show (sectorAddr + (i + 1)) * 4096 + 0 =
          (sectorAddr + i) * 4096 + copyOff off i + size by omega]
      · rw [show bytes - size = 0 by omega, List.take_zero, overlay_nil, overlay_nil]
    rw [passed_mem, hover]
    rfl

end Loop

/-! ## The call -/

/-- `min(addr + len, chip size)`, without wrap-around. -/
def Drv.endOf (drv : Drv) (addr len : Nat) : Nat := min (addr + len) drv.totalSize

/-- The number of sectors that the cells from `addr` up to `last`, which is not among them, lie in. -/
def sectorsOf (addr last : Nat) : Nat := (last - 1) / 4096 - addr / 4096 + 1

/-- The data are in the chip, and every other cell is as it was. -/
structure Written (drv : Drv) (addr : Nat) (buf : List Byte) (s s' : State) : Prop where
  data : ∀ i, addr + i < drv.endOf addr buf.length → buf[i]? = some (s'.chip.mem (addr + i))
  rest : ∀ x, x < drv.totalSize → ¬ (addr ≤ x ∧ x < drv.endOf addr buf.length) →
    s'.chip.mem x = s.chip.mem x

/-- The call returns and has released the lock once, and if it reports success the data are written. -/
def Good (io : Io) (heap : Bool) (drv : Drv) (addr : Nat) (buf : List Byte) (s : State) : Prop :=
  ∃ err s', tlsSpiflsWrite io heap addr (some buf) s = some (err, s') ∧
    s'.released = s.released + 1 ∧ (err = .ok → Written drv addr buf s s')

/-- Nothing comes in the way: there is no memory for the cache, so that nothing is sent, or the sum
`addr + len` does not wrap, the data end within 24 address bits, and all messages of the call are
taken. -/
def Undisturbed (io : Io) (heap : Bool) (drv : Drv) (addr len : Nat) (s : State) : Prop :=
  heap = false ∨ addr + len < 2 ^ 32 ∧ drv.endOf addr len ≤ 2 ^ 24 ∧
    Clear io s.chip.sent (69 * sectorsOf addr (drv.endOf addr len))

section Call

variable {io : Io} {drv : Drv} {addr len : Nat}

theorem writeBytes_eq (ha : addr < drv.totalSize) (hsum : addr + len < 2 ^ 32) :
    writeBytes drv.totalSize addr len = drv.endOf addr len - addr := by
  unfold writeBytes Drv.endOf
  rw [Nat.mod_eq_of_lt hsum]
  split <;> omega

theorem sectorNum_eq (ha : addr < drv.totalSize) (hlen : 0 < len) :
    sectorNum addr (drv.endOf addr len - addr) = sectorsOf addr (drv.endOf addr len) := by
  have hsize := drv.size_lt
  have hlast : addr < drv.endOf addr len ∧ drv.endOf addr len < 2 ^ 32 := by
    unfold Drv.endOf
    omega
  unfold sectorNum sectorsOf sub32
  generalize drv.endOf addr len = last at hlast ⊢
  omega

/-- When `addr + len` wraps, the number of sectors is none, one, or more than the chip has. -/
theorem sectorNum_wrapped (ha : addr < drv.totalSize) (hlen : len < 2 ^ 32) (hsum : 2 ^ 32 ≤ addr + len) :
    writeBytes drv.totalSize addr len = len ∧
      (sectorNum addr len = 0 ∨ sectorNum addr len = 1 ∨
        drv.totalSize / 4096 < addr / 4096 + sectorNum addr len) := by
  have hsize := drv.size_lt
  have hwhole := drv.whole
  refine ⟨if_neg (by omega), ?_⟩
  unfold sectorNum sub32
  omega

theorem write_eq (io : Io) {buf : List Byte} {s : State} (hs : s.spiFls = some (some drv))
    (ha : addr < drv.totalSize) (hb : buf ≠ []) :
    tlsSpiflsWrite io true addr (some buf) s =
      (writeLoop io (addr / 4096) (sectorNum addr (writeBytes drv.totalSize addr buf.length)) (addr % 4096)
        (sectorNum addr (writeBytes drv.totalSize addr buf.length)) 0 buf
        (writeBytes drv.totalSize addr buf.length) s.acquire).map fun r => (r.1, r.2.release) := by
  have hlen := List.length_pos_iff.mpr hb
  unfold tlsSpiflsWrite
  simp only [hs]
  rw [if_neg (by omega), if_neg (by simp)]

theorem write_no_memory (io : Io) {buf : List Byte} {s : State} (hs : s.spiFls = some (some drv))
    (ha : addr < drv.totalSize) (hb : buf ≠ []) :
    tlsSpiflsWrite io false addr (some buf) s = some (.enomem, s.acquire.release) := by
  have hlen := List.length_pos_iff.mpr hb
  unfold tlsSpiflsWrite
  simp only [hs]
  rw [if_neg (by omega), if_true]

/-- A call that comes back with the lock released once has gone through its loop without an error. -/
theorem good_loop {buf : List Byte} {s : State} (hs : s.spiFls = some (some drv))
    (ha : addr < drv.totalSize) (hb : buf ≠ []) (h : Good io true drv addr buf s) :
    ∃ s', writeLoop io (addr / 4096) (sectorNum addr (writeBytes drv.totalSize addr buf.length))
        (addr % 4096) (sectorNum addr (writeBytes drv.totalSize addr buf.length)) 0 buf
        (writeBytes drv.totalSize addr buf.length) s.acquire = some (.ok, s') ∧
      Written drv addr buf s s' := by
  obtain ⟨err, s', hcall, hrel, hdata⟩ := h
  have hwhole := drv.whole
  rw [write_eq io hs ha hb, Option.map_eq_some_iff] at hcall
  obtain ⟨⟨err', s1⟩, hloop, hres⟩ := hcall
  rw [Prod.mk.injEq] at hres
  obtain ⟨rfl, rfl⟩ := hres
  by_cases herr : err' = .ok
  · subst herr
    exact ⟨s1, hloop, ⟨(hdata rfl).data, (hdata rfl).rest⟩⟩
  · -- the error exit and the common exit have both released
    have htwice := loop_fails (s := s.acquire) hs (by omega) hloop herr
    simp only [State.release, State.acquire] at hrel htwice
    omega

theorem other_byte (o : Option Byte) : ∃ b, o ≠ some b := by
  by_cases h : o = some 0#8
  · exact ⟨1#8, by rw [h]; decide⟩
  · exact ⟨0#8, h⟩

/-- The data written without a disturbance. -/
theorem undisturbed_good {buf : List Byte} {s : State} (hs : s.spiFls = some (some drv))
    (ha : addr < drv.totalSize) (hb : buf ≠ []) (hsum : addr + buf.length < 2 ^ 32)
    (hlow : drv.endOf addr buf.length ≤ 2 ^ 24)
    (hclear : Clear io s.chip.sent (69 * sectorsOf addr (drv.endOf addr buf.length))) :
    Good io true drv addr buf s := by
  have hlen := List.length_pos_iff.mpr hb
  have hwhole := drv.whole
  have hlast : addr < drv.endOf addr buf.length ∧ drv.endOf addr buf.length ≤ drv.totalSize ∧
      drv.endOf addr buf.length ≤ addr + buf.length := by
    unfold Drv.endOf
    omega
  have hcall := write_eq io hs ha hb
  rw [writeBytes_eq ha hsum, sectorNum_eq ha hlen] at hcall
  have hrem : Remaining (sectorsOf addr (drv.endOf addr buf.length)) (addr % 4096)
      (sectorsOf addr (drv.endOf addr buf.length)) 0 (drv.endOf addr buf.length - addr) := by
    have hoff : copyOff (addr % 4096) 0 = addr % 4096 := if_pos rfl
    refine ⟨Nat.zero_add _, Nat.le_add_left 1 _, Nat.mod_lt _ (by omega), ?_, ?_⟩
    · rw [hoff, sectorsOf]
      omega
    · rw [hoff, sectorsOf]
      omega
  have hin : addr / 4096 + sectorsOf addr (drv.endOf addr buf.length) ≤ drv.totalSize / 4096 := by
    unfold sectorsOf
    omega
  have hreach : (addr / 4096 + sectorsOf addr (drv.endOf addr buf.length)) * 4096 ≤ 2 ^ 24 := by
    unfold sectorsOf
    omega
  have hbuf : drv.endOf addr buf.length - addr ≤ buf.length := by omega
  obtain ⟨sent, hloop⟩ := loop_run (s := s.acquire) hs hrem hin hreach hbuf (by omega) hclear
  have hstart : (addr / 4096 + 0) * 4096 + copyOff (addr % 4096) 0 = addr := by
    have hoff : copyOff (addr % 4096) 0 = addr % 4096 := if_pos rfl
    omega
  have htake : (buf.take (drv.endOf addr buf.length - addr)).length = drv.endOf addr buf.length - addr := by
    rw [List.length_take]
    omega
  rw [hloop, hstart] at hcall
  refine ⟨.ok, _, hcall, rfl, fun _ => ⟨fun i hi => ?_, fun x _ hx => ?_⟩⟩
  · have hplace : i < (buf.take (drv.endOf addr buf.length - addr)).length := by omega
    have hcell := overlay_at (m := s.chip.mem) (a := addr) hplace
    simp only [State.release, State.acquire, hcell, List.getElem_take]
    exact List.getElem?_eq_getElem (by omega)
  · exact overlay_out (by omega)

/-- A call that is good whatever the chip holds has not let `addr + len` wrap. -/
theorem good_sum {buf : List Byte} {s : State} (hs : s.spiFls = some (some drv))
    (ha : addr < drv.totalSize) (hb : buf ≠ []) (hl : buf.length < 2 ^ 32)
    (hgood : ∀ m, Good io true drv addr buf (s.holding m)) : addr + buf.length < 2 ^ 32 := by
  have hlen := List.length_pos_iff.mpr hb
  have hwhole := drv.whole
  have hsize := drv.size_lt
  have hall := fun m => good_loop (s := s.holding m) hs ha hb (hgood m)
  by_contra hwrap
  obtain ⟨hbytes, hnum⟩ := sectorNum_wrapped ha hl (Nat.le_of_not_lt hwrap)
  rw [hbytes] at hall
  rcases hnum with hnone | hone | hmany
  · -- nothing is written, and the chip may hold something else
    obtain ⟨b, hne⟩ := other_byte buf[0]?
    obtain ⟨s', hloop, hdata⟩ := hall fun _ => b
    rw [hnone, writeLoop, Option.some.injEq, Prod.mk.injEq] at hloop
    obtain ⟨-, rfl⟩ := hloop
    refine hne (hdata.data 0 ?_)
    unfold Drv.endOf
    omega
  · -- all of `buf` would go into the one cache
    obtain ⟨s', hloop, -⟩ := hall s.chip.mem
    rw [hone] at hloop
    refine (pass_bad (s := (s.holding s.chip.mem).acquire) hs (by omega) ?_ hloop).1 rfl
    rintro ⟨-, hfit, -⟩
    rw [copySize, if_pos rfl] at hfit
    omega
  · obtain ⟨s', hloop, -⟩ := hall s.chip.mem
    have hend := (loop_ok (s := (s.holding s.chip.mem).acquire) hs (by omega) hloop).2.1
    omega

/-- Nor has it written behind the 24 address bits, or lost a message. -/
theorem good_reach {buf : List Byte} {s : State} (hs : s.spiFls = some (some drv))
    (ha : addr < drv.totalSize) (hb : buf ≠ []) (hsum : addr + buf.length < 2 ^ 32)
    (hgood : ∀ m, Good io true drv addr buf (s.holding m)) :
    drv.endOf addr buf.length ≤ 2 ^ 24 ∧
      Clear io s.chip.sent (69 * sectorsOf addr (drv.endOf addr buf.length)) := by
  have hlen := List.length_pos_iff.mpr hb
  have hwhole := drv.whole
  have hsector : addr / 4096 + 0 ≤ drv.totalSize / 4096 := by omega
  have hall := fun m => good_loop (s := s.holding m) hs ha hb (hgood m)
  rw [writeBytes_eq ha hsum, sectorNum_eq ha hlen] at hall
  constructor
  · by_contra hhigh
    -- the last byte lies where the command word does not reach
    have hlast : addr < drv.endOf addr buf.length := by
      unfold Drv.endOf
      omega
    obtain ⟨b, hne⟩ := other_byte buf[drv.endOf addr buf.length - 1 - addr]?
    obtain ⟨s', hloop, hdata⟩ := hall fun _ => b
    have hsame := (loop_ok (s := (s.holding fun _ => b).acquire) hs hsector hloop).2.2.2
      (drv.endOf addr buf.length - 1) (by omega)
    have hcell := hdata.data (drv.endOf addr buf.length - 1 - addr) (by omega)
    rw [show addr + (drv.endOf addr buf.length - 1 - addr) = drv.endOf addr buf.length - 1 by omega,
      hsame] at hcell
    exact hne hcell
  · obtain ⟨s', hloop, -⟩ := hall s.chip.mem
    exact (loop_ok (s := (s.holding s.chip.mem).acquire) hs hsector hloop).1

/-- A call on an accepted range releases the lock exactly once and writes the data whatever the chip
held, exactly if nothing comes in the way. -/
theorem spifls_write_iff (io : Io) (heap : Bool) (drv : Drv) (s : State)
    (hs : s.spiFls = some (some drv)) (addr : Nat) (ha : addr < drv.totalSize) (buf : List Byte)
    (hb : buf ≠ []) (hl : buf.length < 2 ^ 32) :
    (∀ m, Good io heap drv addr buf (s.holding m)) ↔ Undisturbed io heap drv addr buf.length s := by
  cases heap with
  | false =>
    refine ⟨fun _ => .inl rfl, fun _ m => ?_⟩
    exact ⟨.enomem, _, write_no_memory io (s := s.holding m) hs ha hb, rfl, fun h => Status.noConfusion h⟩
  | true =>
    constructor
    · intro hgood
      have hsum := good_sum hs ha hb hl hgood
      exact .inr ⟨hsum, good_reach hs ha hb hsum hgood⟩
    · rintro (hheap | ⟨hsum, hlow, hclear⟩) m
      · exact Bool.noConfusion hheap
      · exact undisturbed_good (s := s.holding m) hs ha hb hsum hlow hclear

end Call

theorem size1M_lt : 0x100000 < 2 ^ 32 := by decide

/-- A chip of 1 MB. -/
def drv1M : Drv := { totalSize := 0x100000, whole := rfl, size_lt := size1M_lt }

/-- The driver with an erased chip of 1 MB, before the first message. -/
def fresh : State :=
  { spiFls := some (some drv1M), chip := ⟨fun _ => 0xFF#8, 0⟩, acquired := 0, released := 0 }

/-- Two bytes at the end of a sector and the start of the next, with a link that works. -/
theorem spifls_write_iff_edge :
    Good (fun _ => .ok) true drv1M 4095 [0xA5#8, 0x5A#8] (fresh.holding fresh.chip.mem) :=
  (spifls_write_iff (fun _ => .ok) true drv1M fresh rfl 4095 (by decide) [0xA5#8, 0x5A#8] (by decide)
    (by decide)).2 (.inr ⟨by decide, by decide, fun _ _ => rfl⟩) fresh.chip.mem

/-- The first message fails. -/
def readFails : Io := fun k => if k = 0 then .failed id else .ok

/-- When the first read fails, the lock is released twice. -/
theorem spifls_write_read_fails :
    ¬ (∀ (io : Io) (heap : Bool) (drv : Drv) (s : State), s.spiFls = some (some drv) → ∀ addr,
        addr < drv.totalSize → ∀ buf : List Byte, buf ≠ [] → buf.length < 2 ^ 32 →
          Good io heap drv addr buf s) ∧
      tlsSpiflsWrite readFails true 0 (some [0xA5#8]) fresh =
        some (.eio, { fresh with chip := ⟨fresh.chip.mem, 1⟩, acquired := 1, released := 2 }) := by
  have hcall : tlsSpiflsWrite readFails true 0 (some [0xA5#8]) fresh =
      some (.eio, { fresh with chip := ⟨fresh.chip.mem, 1⟩, acquired := 1, released := 2 }) := by
    have hnum : sectorNum 0 (writeBytes drv1M.totalSize 0 [0xA5#8].length) = 1 := rfl
    rw [write_eq _ (show fresh.spiFls = some (some drv1M) from rfl) (by decide) (by decide), hnum, writeLoop]
    simp [drvRead, Link.send, readFails, fresh, State.acquire, State.release]
  refine ⟨fun h => ?_, hcall⟩
  obtain ⟨err, s', hres, hrel, -⟩ := h readFails true drv1M fresh rfl 0 (by decide) [0xA5#8] (by decide)
    (by decide)
  rw [hcall, Option.some.injEq, Prod.mk.injEq] at hres
  rw [← hres.2] at hrel
  exact absurd hrel (by decide)

end Spifls
end Air101
