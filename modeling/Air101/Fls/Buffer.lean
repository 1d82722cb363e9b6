import Air101.Fls.Contract

/-!
# Fls.Buffer

`flashRead` down to the memory it writes. The controller transfers a command's bytes into its data
buffer at `RSA_BASE_ADDRESS`, of at most 1024 bytes; `__readByCMD` moves them on word by word, into the
caller's buffer or into the driver's page cache.

* `readByCMDTo_eq`: the word loop and the zeroing of the tail put down what `readByCMD` lists.
* `flashReadTo_eq`: both paths of `flashRead` put down what the list-level `flashRead` returns, and
  write nothing else of the caller's memory.
* `flash_read_fills_buffer`: for a range inside the chip that is the range, for every alignment of the
  buffer and whatever the two buffers in between held before.
-/

namespace Air101
namespace Fls

open Storage

/-! ## The controller's data buffer -/

/-- `((sz - 1) & 0x3FF)` counts the bytes of a command from 0; `sz - 1` is a 32-bit subtraction. -/
def transferSize (sz : Nat) : Nat := (sz + (2 ^ 32 - 1)) % 1024 + 1

/-- A read command: its bytes come to the start of the data buffer, the rest of which stays. -/
def transfer (flash rsa : Nat → Byte) (addr sz : Nat) : Nat → Byte :=
  overlay rsa 0 (slice flash (chipAddr addr) (transferSize sz))

/-- `n` times `M32(buf) = M32(addr_read)`. -/
def copyWords (rsa : Nat → Byte) : Nat → (Nat → Byte) → Nat → Nat → Nat → Byte
  | 0, m, _, _ => m
  | n + 1, m, buf, addrRead =>
    copyWords rsa n (overlay m buf (slice rsa addrRead 4)) (buf + 4) (addrRead + 4)

/-- `k` times `*buf = 0; buf--`. -/
def zeroBack : Nat → (Nat → Byte) → Nat → Nat → Byte
  | 0, m, _ => m
  | k + 1, m, buf => zeroBack k (overlay m buf [0]) (buf - 1)

/-- `__readByCMD` with the memory it writes to: the data buffer and that memory after it. All read
commands transfer alike, so which of them is sent does not matter. -/
def readByCMDTo (flash rsa : Nat → Byte) (addr : Nat) (m : Nat → Byte) (buf sz : Nat) :
    (Nat → Byte) × (Nat → Byte) :=
  let rsa := transfer flash rsa addr sz
  let word := sz / 4
  let byte := sz % 4
  let m := copyWords rsa word m buf 0
  if byte = 0 then (rsa, m)
  else
    let m := overlay m (buf + 4 * word) (slice rsa (4 * word) 4)
    (rsa, zeroBack (4 - byte) m (buf + 4 * word + 3))

theorem transferSize_of_le {sz : Nat} (hpos : 1 ≤ sz) (hle : sz ≤ 1024) : transferSize sz = sz := by
  unfold transferSize
  omega

theorem copyWords_eq (rsa : Nat → Byte) (n : Nat) (m : Nat → Byte) (buf addrRead : Nat) :
    copyWords rsa n m buf addrRead = overlay m buf (slice rsa addrRead (4 * n)) := by
  induction n generalizing m buf addrRead with
  | zero => simp [copyWords]
  | succ n ih =>
    rw [copyWords, ih, show 4 * (n + 1) = 4 + 4 * n by omega, slice_append, overlay_append, slice_length]

theorem zeroBack_apply (k : Nat) (m : Nat → Byte) (buf : Nat) (h : k ≤ buf + 1) (x : Nat) :
    zeroBack k m buf x = if buf + 1 ≤ x + k ∧ x ≤ buf then 0 else m x := by
  induction k generalizing m buf with
  | zero => rw [zeroBack, if_neg (by omega)]
  | succ k ih =>
    rw [zeroBack, ih _ _ (by omega)]
    by_cases hx : x = buf
    · subst hx
      have hin : x + 1 ≤ x + (k + 1) ∧ x ≤ x := by omega
      rw [if_pos hin]
      split
      · rfl
      · rw [overlay_in (Nat.le_refl _) (by simp)]
        simp
    · rw [overlay_out (by rw [List.length_singleton]; omega)]
      by_cases hin : buf + 1 ≤ x + (k + 1) ∧ x ≤ buf
      · rw [if_pos hin, if_pos (by omega)]
      · rw [if_neg hin, if_neg (by omega)]

/-- Zeros over the last `k` cells of a list just put down. -/
theorem zeroBack_overlay (m : Nat → Byte) (a k : Nat) {bs : List Byte} (hne : bs ≠ []) (h : k ≤ bs.length) :
    zeroBack k (overlay m a bs) (a + bs.length - 1) =
      overlay m a (bs.take (bs.length - k) ++ List.replicate k 0) := by
  have hpos := List.length_pos_iff.mpr hne
  have hlen : (bs.take (bs.length - k)).length = bs.length - k := by
    rw [List.length_take]
    omega
  funext x
  rw [zeroBack_apply _ _ _ (by omega), overlay_append, hlen]
  by_cases hzero : a + (bs.length - k) ≤ x ∧ x < a + bs.length
  · rw [if_pos (by omega), overlay_in hzero.1 (by simp; omega), List.getElem_replicate]
  · rw [if_neg (by omega), overlay_out (a := a + (bs.length - k)) (by simp; omega)]
    by_cases hin : a ≤ x ∧ x < a + bs.length
    · rw [overlay_in hin.1 (by omega), overlay_in hin.1 (by omega), List.getElem_take]
    · rw [overlay_out (by omega), overlay_out (by omega)]

/-- What a read command puts down is what it lists: whole words, and a last word with zeros in the
bytes that were not asked for. -/
theorem readByCMDTo_eq (flash rsa : Nat → Byte) (addr : Nat) (m : Nat → Byte) (buf : Nat) {sz : Nat}
    (hpos : 1 ≤ sz) (hle : sz ≤ 1024) :
    (readByCMDTo flash rsa addr m buf sz).2 = overlay m buf (readByCMD flash addr sz) := by
  have htransfer : ∀ a n, a + n ≤ sz →
      slice (transfer flash rsa addr sz) a n = slice flash (chipAddr addr + a) n := by
    intro a n han
    have hlen : a + n ≤ (slice flash (chipAddr addr) sz).length := by rw [slice_length]; exact han
    have hin := slice_overlay_in (m := rsa) (a := 0) hlen
    rw [Nat.zero_add, slice_slice _ _ _ _ _ han] at hin
    rw [transfer, transferSize_of_le hpos hle, hin]
  simp only [readByCMDTo, readByCMD]
  rw [copyWords_eq, htransfer 0 _ (by omega), Nat.add_zero]
  by_cases hbyte : sz % 4 = 0
  · rw [if_pos hbyte, hbyte]
    simp only [Nat.sub_zero, Nat.mod_self, List.replicate_zero, List.append_nil]
    rw [show 4 * (sz / 4) = sz by omega]
  · rw [if_neg hbyte]
    simp only []
    generalize hw : slice (transfer flash rsa addr sz) (4 * (sz / 4)) 4 = last
    have hlast : last.length = 4 := by rw [← hw, slice_length]
    have hsome : last ≠ [] := by intro h; simp [h] at hlast
    have hzero := zeroBack_overlay (overlay m buf (slice flash (chipAddr addr) (4 * (sz / 4))))
      (buf + 4 * (sz / 4)) (4 - sz % 4) hsome (by omega)
    have htake : last.take (4 - (4 - sz % 4)) = slice flash (chipAddr addr + 4 * (sz / 4)) (sz % 4) := by
      rw [← hw, slice_take _ _ _ _ (by omega), show 4 - (4 - sz % 4) = sz % 4 by omega,
        htransfer _ _ (by omega)]
    rw [hlast, htake, show buf + 4 * (sz / 4) + 4 - 1 = buf + 4 * (sz / 4) + 3 by omega] at hzero
    rw [hzero, Nat.mod_eq_of_lt (show 4 - sz % 4 < 4 by omega)]
    have hjoin : slice flash (chipAddr addr) sz = slice flash (chipAddr addr) (4 * (sz / 4)) ++
        slice flash (chipAddr addr + 4 * (sz / 4)) (sz % 4) := by
      rw [← slice_append, Nat.div_add_mod]
    rw [hjoin, List.append_assoc, overlay_append m buf, slice_length]

/-! ## `flashRead` -/

/-- The caller's memory, the driver's page cache `tls_fls_cache`, and the data buffer. The cache is
static in the driver, so a caller's buffer is never part of it. -/
structure Bufs where
  ram : Nat → Byte
  cache : Nat → Byte
  rsa : Nat → Byte

/-- A read command straight to the caller. -/
def Bufs.readToRam (flash : Nat → Byte) (s : Bufs) (addr buf sz : Nat) : Bufs :=
  let (rsa, ram) := readByCMDTo flash s.rsa addr s.ram buf sz
  { s with ram := ram, rsa := rsa }

/-- A read command to the cache. -/
def Bufs.readToCache (flash : Nat → Byte) (s : Bufs) (addr sz : Nat) : Bufs :=
  let (rsa, cache) := readByCMDTo flash s.rsa addr s.cache 0 sz
  { s with cache := cache, rsa := rsa }

/-- `MEMCPY(buf, cache + off, n)`. -/
def Bufs.memcpy (s : Bufs) (buf off n : Nat) : Bufs :=
  { s with ram := overlay s.ram buf (slice s.cache off n) }

/-- The loop of the aligned path. -/
def pagesToRam (flash : Nat → Byte) (maxSize : Nat) : Nat → Bufs → Nat → Nat → Bufs
  | 0, s, _, _ => s
  | n + 1, s, flashAddr, buf =>
    pagesToRam flash maxSize n (s.readToRam flash flashAddr buf maxSize) (flashAddr + maxSize) (buf + maxSize)

/-- The loop of the other path. -/
def pagesThroughCache (flash : Nat → Byte) : Nat → Bufs → Nat → Nat → Bufs
  | 0, s, _, _ => s
  | n + 1, s, flashAddr, buf =>
    pagesThroughCache flash n ((s.readToCache flash flashAddr 256).memcpy buf 0 256) (flashAddr + 256) (buf + 256)

/-- `flashRead` with the memory it works on. -/
def flashReadTo (flash : Nat → Byte) (s : Bufs) (addr buf sz : Nat) : Bufs :=
  let pageOffset := addr % 256
  if pageOffset = 0 ∧ buf % 4 = 0 ∧ sz % 4 = 0 then
    let maxSize := if 512 ≤ sz then 1024 else 256
    let szPagenum := sz / maxSize
    let szRemain := sz % maxSize
    let s := pagesToRam flash maxSize szPagenum s addr buf
    if szRemain = 0 then s
    else s.readToRam flash (addr + szPagenum * maxSize) (buf + szPagenum * maxSize) szRemain
  else
    let flashAddr := addr - pageOffset
    let s := s.readToCache flash flashAddr 256
    if 256 - pageOffset < sz then
      let s := s.memcpy buf pageOffset (256 - pageOffset)
      let buf := buf + (256 - pageOffset)
      let rest := sz - (256 - pageOffset)
      let szPagenum := rest / 256
      let szRemain := rest % 256
      let s := pagesThroughCache flash szPagenum s (flashAddr + 256) buf
      if szRemain = 0 then s
      else
        (s.readToCache flash (flashAddr + 256 + szPagenum * 256) (szRemain + (4 - szRemain % 4))).memcpy
          (buf + szPagenum * 256) 0 szRemain
    else s.memcpy buf pageOffset sz

theorem readToRam_ram (flash : Nat → Byte) (s : Bufs) (addr buf : Nat) {sz : Nat} (hpos : 1 ≤ sz)
    (hle : sz ≤ 1024) : (s.readToRam flash addr buf sz).ram = overlay s.ram buf (readByCMD flash addr sz) :=
  readByCMDTo_eq flash s.rsa addr s.ram buf hpos hle

theorem readByCMD_length (m : Nat → Byte) (addr : Nat) {sz : Nat} (h : sz % 4 = 0) :
    (readByCMD m addr sz).length = sz := by
  rw [readByCMD_word m addr sz h, slice_length]

/-- Reading whole words to the cache and copying `n` of the bytes on. -/
theorem throughCache_ram (flash : Nat → Byte) (s : Bufs) (addr buf off n : Nat) {sz : Nat} (hpos : 1 ≤ sz)
    (hle : sz ≤ 1024) (hword : sz % 4 = 0) (hn : off + n ≤ sz) :
    ((s.readToCache flash addr sz).memcpy buf off n).ram =
      overlay s.ram buf (((readByCMD flash addr sz).drop off).take n) := by
  have hcache : (s.readToCache flash addr sz).cache = overlay s.cache 0 (readByCMD flash addr sz) :=
    readByCMDTo_eq flash s.rsa addr s.cache 0 hpos hle
  have hlen : off + n ≤ (readByCMD flash addr sz).length := by
    rw [readByCMD_length flash addr hword]
    exact hn
  have hslice := slice_overlay_in (m := s.cache) (a := 0) hlen
  rw [Nat.zero_add] at hslice
  rw [Bufs.memcpy, hcache, hslice]
  rfl

theorem readPages_length (m : Nat → Byte) (step : Nat) (h : step % 4 = 0) (n addr : Nat) :
    (readPages m step addr n).length = n * step := by
  induction n generalizing addr with
  | zero => simp [readPages]
  | succ n ih =>
    rw [readPages, List.length_append, ih, readByCMD_length m addr h, Nat.add_mul, Nat.one_mul, Nat.add_comm]

theorem pagesToRam_ram (flash : Nat → Byte) {step : Nat} (hpos : 1 ≤ step) (hle : step ≤ 1024)
    (hword : step % 4 = 0) (n : Nat) (s : Bufs) (addr buf : Nat) :
    (pagesToRam flash step n s addr buf).ram = overlay s.ram buf (readPages flash step addr n) := by
  induction n generalizing s addr buf with
  | zero => simp [pagesToRam, readPages]
  | succ n ih =>
    rw [pagesToRam, ih, readToRam_ram flash s addr buf hpos hle, readPages, overlay_append,
      readByCMD_length flash addr hword]

theorem pagesThroughCache_ram (flash : Nat → Byte) (n : Nat) (s : Bufs) (addr buf : Nat) :
    (pagesThroughCache flash n s addr buf).ram = overlay s.ram buf (readPages flash 256 addr n) := by
  induction n generalizing s addr buf with
  | zero => simp [pagesThroughCache, readPages]
  | succ n ih =>
    have hlen := readByCMD_length flash addr (show 256 % 4 = 0 from rfl)
    have hpage := throughCache_ram flash s addr buf 0 256 (show 1 ≤ 256 by omega) (by omega) rfl (by omega)
    rw [List.drop_zero, List.take_of_length_le (by omega)] at hpage
    rw [pagesThroughCache, ih, hpage, readPages, overlay_append, hlen]

/-- Both paths put the bytes of `flashRead` into the buffer and write nothing else of the caller's
memory, whatever the cache and the data buffer held. -/
theorem flashReadTo_eq (flash : Nat → Byte) (s : Bufs) (addr buf sz : Nat) :
    (flashReadTo flash s addr buf sz).ram =
      overlay s.ram buf (flashRead flash (decide (buf % 4 = 0)) addr sz) := by
  unfold flashReadTo flashRead
  simp only [decide_eq_true_eq]
  by_cases hfast : addr % 256 = 0 ∧ buf % 4 = 0 ∧ sz % 4 = 0
  · rw [if_pos hfast, if_pos hfast]
    have fast : ∀ k, 1 ≤ k → k ≤ 1024 → k % 4 = 0 →
        (if sz % k = 0 then pagesToRam flash k (sz / k) s addr buf
          else (pagesToRam flash k (sz / k) s addr buf).readToRam flash (addr + sz / k * k)
            (buf + sz / k * k) (sz % k)).ram =
        overlay s.ram buf (readPages flash k addr (sz / k) ++
          (if sz % k = 0 then [] else readByCMD flash (addr + sz / k * k) (sz % k))) := by
      intro k hpos hle hword
      have hpages := pagesToRam_ram flash hpos hle hword (sz / k) s addr buf
      split
      · rw [hpages, List.append_nil]
      · have hlt : sz % k < k := Nat.mod_lt _ hpos
        rw [readToRam_ram flash _ _ _ (by omega) (by omega), hpages, overlay_append,
          readPages_length flash k hword]
    split
    · exact fast 1024 (by omega) (by omega) rfl
    · exact fast 256 (by omega) (by omega) rfl
  · rw [if_neg hfast, if_neg hfast]
    have hoff : addr % 256 < 256 := Nat.mod_lt _ (by omega)
    by_cases hlong : 256 - addr % 256 < sz
    · rw [if_pos hlong, if_pos hlong]
      have hhead := throughCache_ram flash s (addr - addr % 256) buf (addr % 256) (256 - addr % 256)
        (show 1 ≤ 256 by omega) (by omega) rfl (by omega)
      have hlen : (((readByCMD flash (addr - addr % 256) 256).drop (addr % 256)).take
          (256 - addr % 256)).length = 256 - addr % 256 := by
        rw [List.length_take, List.length_drop, readByCMD_length flash _ rfl]
        omega
      generalize hrest : sz - (256 - addr % 256) = rest
      have hpages := pagesThroughCache_ram flash (rest / 256)
        ((s.readToCache flash (addr - addr % 256) 256).memcpy buf (addr % 256) (256 - addr % 256))
        (addr - addr % 256 + 256) (buf + (256 - addr % 256))
      rw [hhead] at hpages
      split
      · rw [hpages, List.append_nil, overlay_append, hlen]
      · have hlt : rest % 256 < 256 := Nat.mod_lt _ (by omega)
        rw [throughCache_ram flash _ _ _ 0 _ (by omega) (by omega) (by omega) (by omega), hpages,
          List.drop_zero, overlay_append, overlay_append, hlen, List.length_append, hlen,
          readPages_length flash 256 rfl, Nat.add_assoc]
    · rw [if_neg hlong, if_neg hlong]
      exact throughCache_ram flash s _ buf _ sz (by omega) (by omega) rfl (by omega)

/-- A read inside the chip fills the buffer with the range and writes nothing outside it, on both paths
and for every alignment of the buffer. -/
theorem flash_read_fills_buffer (c : Chip) (flash : Nat → Byte) (s : Bufs) (addr buf sz : Nat)
    (hsz : 1 ≤ sz) (hin : addr % 0x8000000 + sz ≤ c.density) :
    slice (flashReadTo flash s addr buf sz).ram buf sz = slice flash (addr % 0x8000000) sz ∧
      ∀ x, x < buf ∨ buf + sz ≤ x → (flashReadTo flash s addr buf sz).ram x = s.ram x := by
  have hle := c.density_le
  have hchip : chipAddr addr = addr % 0x8000000 := by
    unfold chipAddr
    omega
  rw [flashReadTo_eq, flashRead_eq flash _ addr sz (by omega), hchip]
  refine ⟨?_, fun x hx => overlay_out (by rw [slice_length]; exact hx)⟩
  have hslice := slice_overlay s.ram buf (slice flash (addr % 0x8000000) sz)
  rwa [slice_length] at hslice

/-- Cells that hold their own address, and buffers that hold other bytes. -/
def numbered (i : Nat) : Byte := BitVec.ofNat 8 i

def stale : Bufs := { ram := fun _ => 0xAA#8, cache := fun _ => 0xBB#8, rsa := fun _ => 0xCC#8 }

/-- Five bytes across a page boundary to an odd address. -/
theorem flash_read_fills_buffer_odd :
    slice (flashReadTo numbered stale 0x80000FE 0x20000001 5).ram 0x20000001 5 =
      [0xFE#8, 0xFF#8, 0x00#8, 0x01#8, 0x02#8] :=
  (flash_read_fills_buffer chip2M numbered stale 0x80000FE 0x20000001 5 (by decide) (by decide)).1

end Fls
end Air101
