import Air101.Fls.Buffer

/-!
# Fls.Otp

The security registers (OTP) of the internal flash: `tls_fls_otp_read` and `tls_fls_otp_write`
(`platform/drivers/internalflash/wm_internal_fls.c`).

* `otpBytes_eq`: head, words and tail of the read are one piece of the data buffer.
* `otpRead_exact_iff`: the read returns the registers whatever the data buffer held before exactly if
  the range, counted from the 16 bytes it starts in, ends before 1024. From there on the transfer size
  is cut to 10 bits, and at least the last byte comes from an earlier transfer.
* `otpWrite_ok`: an accepted write is an overlay; its reads, of a page each, are short enough.
* `luatOtpRead_zone`, `luatOtpWrite_zone`: what the port makes of them.
-/

namespace Air101
namespace Fls

open Storage

/-- The flash makers `tls_fls_init` knows (`SPIFLASH_MID_*`). -/
inductive Mid where
  | gd
  | esmt
  | puya
  | winbond
  | fudanmicro
  | boya
  | xmc
  | xtx
  | tsingteng
  | tsingteng1Mb4Mb
  deriving DecidableEq

/-- `OTPWRParam` as `tls_fls_init` sets it. -/
structure OtpWrParam where
  eraseSize : Nat
  pageSize : Nat

def otpWrParam (flashid : Mid) (density : Nat) : OtpWrParam :=
  { pageSize := 256
    eraseSize :=
      match flashid with
      | .tsingteng1Mb4Mb => if density = 0x100000 then 1024 else if density = 0x400000 then 2048 else 256
      | .gd => 1024
      | .fudanmicro => if density ≤ 2 ^ 20 then 256 else 1024
      | .tsingteng | .boya | .xmc | .winbond => 256
      | .puya => 512
      | .xtx | .esmt => 0 }

inductive OtpStatus where
  | ok
  | einval
  | eperm
  | enomem
  | enosupport
  deriving DecidableEq

/-- The parameters (`none` before `tls_fls_init`), the registers by bus address, and the data buffer. -/
structure Otp where
  insideFls : Option OtpWrParam
  cells : Nat → Byte
  rsa : Nat → Byte

/-- `n` words from `addrRead` on. -/
def otpWords (rsa : Nat → Byte) (addrRead n : Nat) : List Byte :=
  (List.range n).flatMap fun k => slice rsa (addrRead + 4 * k) 4

/-- The bytes `tls_fls_otp_read` takes out of the data buffer: the rest of a first word, words, the start
of a last word. -/
def otpBytes (rsa : Nat → Byte) (addrOffset len : Nat) : List Byte :=
  let addrRead := addrOffset / 4 * 4
  let i := (4 - addrOffset % 4) % 4
  let byte := if len < i then len else i
  let head := if byte = 0 then [] else ((slice rsa addrRead 4).drop (4 - i)).take byte
  let addrRead := if byte = 0 then addrRead else addrRead + 4
  let word := (len - byte) / 4
  head ++ otpWords rsa addrRead word ++ (slice rsa (addrRead + 4 * word) 4).take ((len - byte) % 4)

/-- `sz_need`, a 32-bit sum. -/
def szNeed (addr len : Nat) : Nat := (addr % 16 + len + 16) % 2 ^ 32 / 16 * 16

/-- `tls_fls_otp_read`; `buf` says whether there is a buffer. -/
def tlsFlsOtpRead (s : Otp) (addr : Nat) (buf : Bool) (len : Nat) : OtpStatus × List Byte × Otp :=
  match s.insideFls with
  | none => (.eperm, [], s)
  | some _ =>
    if buf then
      let rsa := transfer s.cells s.rsa (addr / 16 * 16) (szNeed addr len)
      (.ok, otpBytes rsa (addr % 16) len, { s with rsa := rsa })
    else (.ok, [], { s with rsa := transfer s.cells s.rsa addr len })

/-- The first loop of `tls_fls_otp_write`: back the block up page by page. -/
def backup (pageSize : Nat) : Nat → Otp → Nat → Nat → Option (List Byte × Otp)
  | 0, s, _, _ => some ([], s)
  | fuel + 1, s, p, size =>
    if size = 0 then some ([], s)
    else
      let l := if pageSize < size then pageSize else size
      match tlsFlsOtpRead s p true l with
      | (.ok, bs, s') => (backup pageSize fuel s' (p + l) (size - l)).map fun r => (bs ++ r.1, r.2)
      | _ => none

/-- `programSR`: the data goes through the data buffer, at most a page of it. -/
def Otp.programSR (s : Otp) (addr : Nat) (buf : List Byte) : Otp :=
  let buf := buf.take 256
  { s with
    cells := (Op.program (chipAddr addr) buf).apply s.cells
    rsa := overlay s.rsa 0 buf }

/-- The second loop: program the block page by page. -/
def restore (pageSize : Nat) : Nat → Otp → Nat → List Byte → Nat → Otp
  | 0, s, _, _, _ => s
  | fuel + 1, s, p, q, size =>
    if size = 0 then s
    else
      let l := if pageSize < size then pageSize else size
      restore pageSize fuel (s.programSR p (q.take l)) (p + l) (q.drop l) (size - l)

/-- `tls_fls_otp_write`. The erase sizes are powers of two, so masking the address is rounding it down;
the chip erases one block of that size. -/
def tlsFlsOtpWrite (s : Otp) (heap : Bool) (addr : Nat) (buf : Option (List Byte)) : OtpStatus × Otp :=
  match buf with
  | none => (.einval, s)
  | some buf =>
    match s.insideFls with
    | none => (.eperm, s)
    | some par =>
      if par.eraseSize = 0 ∨ par.pageSize = 0 then (.enosupport, s)
      else
        let eraseAddr := addr / par.eraseSize * par.eraseSize
        if addr < eraseAddr ∨ par.eraseSize - (addr - eraseAddr) < buf.length then (.einval, s)
        else if heap = false then (.enomem, s)
        else
          match backup par.pageSize par.eraseSize s eraseAddr par.eraseSize with
          | none => (.eperm, s)
          | some (backbuf, s) =>
            let s := { s with cells := (Op.erase (chipAddr eraseAddr) par.eraseSize).apply s.cells }
            let backbuf := patch backbuf (addr - eraseAddr) buf
            (.ok, restore par.pageSize par.eraseSize s eraseAddr backbuf par.eraseSize)

/-- `luat_otp_read` (`app/port/luat_otp_air101.c`): what it returns, and what is behind `buff` then. -/
def luatOtpRead (s : Otp) (zone : Int) (offset len : Nat) : Int × List Byte × Otp :=
  if zone < 0 ∨ 2 < zone then (-1, [], s)
  else
    match tlsFlsOtpRead s (((zone.toNat + 1) * 0x1000 + offset) % 2 ^ 32) true len with
    | (.ok, bs, s) => ((BitVec.ofNat 32 len).toInt, bs, s)
    | (_, bs, s) => (-1, bs, s)

/-- `luat_otp_write`. -/
def luatOtpWrite (s : Otp) (heap : Bool) (zone : Int) (buff : Option (List Byte)) (offset : Nat) : Int × Otp :=
  if zone < 0 ∨ 2 < zone then (-1, s)
  else
    match tlsFlsOtpWrite s heap (((zone.toNat + 1) * 0x1000 + offset) % 2 ^ 32) buff with
    | (.ok, s) => (0, s)
    | (_, s) => (-1, s)

/-! ## Reads -/

theorem otpWords_eq (rsa : Nat → Byte) (addrRead n : Nat) :
    otpWords rsa addrRead n = slice rsa addrRead (4 * n) := by
  induction n with
  | zero => rfl
  | succ n ih =>
    rw [otpWords, List.range_succ, List.flatMap_append, ← otpWords, ih, List.flatMap_singleton,
      show 4 * (n + 1) = 4 * n + 4 by omega, slice_append]

theorem words_tail (rsa : Nat → Byte) (a n : Nat) :
    otpWords rsa a (n / 4) ++ (slice rsa (a + 4 * (n / 4)) 4).take (n % 4) = slice rsa a n := by
  rw [otpWords_eq, slice_take _ _ _ _ (by omega), ← slice_append, Nat.div_add_mod]

/-- Head, words and tail are one piece of the data buffer. -/
theorem otpBytes_eq (rsa : Nat → Byte) (addrOffset len : Nat) :
    otpBytes rsa addrOffset len = slice rsa addrOffset len := by
  simp only [otpBytes]
  by_cases halign : addrOffset % 4 = 0
  · have hi : (4 - addrOffset % 4) % 4 = 0 := by omega
    have hstart : addrOffset / 4 * 4 = addrOffset := by omega
    rw [hi, if_neg (Nat.not_lt_zero len), if_pos rfl, if_pos rfl, Nat.sub_zero, List.nil_append, hstart, words_tail]
  · have hi : (4 - addrOffset % 4) % 4 = 4 - addrOffset % 4 := by omega
    have hstart : addrOffset / 4 * 4 + addrOffset % 4 = addrOffset := by omega
    have hhead : ∀ n, n ≤ 4 - addrOffset % 4 →
        ((slice rsa (addrOffset / 4 * 4) 4).drop (4 - (4 - addrOffset % 4))).take n = slice rsa addrOffset n := by
      intro n hn
      rw [slice_slice _ _ _ _ _ (by omega), show 4 - (4 - addrOffset % 4) = addrOffset % 4 by omega, hstart]
    rw [hi]
    by_cases hshort : len < 4 - addrOffset % 4
    · rw [if_pos hshort, Nat.sub_self]
      by_cases hzero : len = 0
      · subst hzero
        rfl
      · rw [if_neg hzero, hhead len (by omega)]
        simp [otpWords]
    · rw [if_neg hshort, if_neg (by omega), if_neg (by omega), hhead _ (Nat.le_refl _),
        show addrOffset / 4 * 4 + 4 = addrOffset + (4 - addrOffset % 4) by omega, List.append_assoc, words_tail,
        ← slice_append]
      congr 1
      omega

theorem otpRead_bytes {s : Otp} {par : OtpWrParam} (hs : s.insideFls = some par) (addr len : Nat) :
    tlsFlsOtpRead s addr true len =
      (.ok, slice (transfer s.cells s.rsa (addr / 16 * 16) (szNeed addr len)) (addr % 16) len,
        { s with rsa := transfer s.cells s.rsa (addr / 16 * 16) (szNeed addr len) }) := by
  unfold tlsFlsOtpRead
  rw [hs]
  simp only [if_true, otpBytes_eq]

/-- A range that ends before byte 1024 of the transfer is transferred whole. -/
theorem transfer_otp (cells rsa : Nat → Byte) {addr len : Nat} (h : addr % 16 + len < 1024) :
    slice (transfer cells rsa (addr / 16 * 16) (szNeed addr len)) (addr % 16) len =
      slice cells (chipAddr addr) len := by
  have hsize : addr % 16 + len ≤ transferSize (szNeed addr len) := by
    unfold szNeed transferSize
    omega
  have hlen : addr % 16 + len ≤
      (slice cells (chipAddr (addr / 16 * 16)) (transferSize (szNeed addr len))).length := by
    rw [slice_length]
    exact hsize
  have hin := slice_overlay_in (m := rsa) (a := 0) hlen
  rw [Nat.zero_add, slice_slice _ _ _ _ _ hsize] at hin
  rw [transfer, hin]
  congr 1
  unfold chipAddr
  omega

/-- Behind byte 1024 of the transfer the data buffer keeps what it had. -/
theorem transfer_stale (cells rsa : Nat → Byte) {addr len : Nat} (h : 1024 ≤ addr % 16 + len) :
    transfer cells rsa (addr / 16 * 16) (szNeed addr len) (addr % 16 + (len - 1)) =
      rsa (addr % 16 + (len - 1)) := by
  apply overlay_out
  right
  rw [slice_length]
  by_cases heq : addr % 16 + len = 1024
  · -- 1040 bytes are needed, and 16 are transferred
    have hneed : szNeed addr len = 1040 := by
      unfold szNeed
      omega
    rw [hneed, transferSize]
    omega
  · have hmax : transferSize (szNeed addr len) ≤ 1024 := by
      unfold transferSize
      omega
    omega

theorem otpRead_exact_iff {s : Otp} {par : OtpWrParam} (hs : s.insideFls = some par) (addr len : Nat) :
    (∀ rsa, (tlsFlsOtpRead { s with rsa := rsa } addr true len).2.1 = slice s.cells (chipAddr addr) len) ↔
      addr % 16 + len < 1024 := by
  constructor
  · intro h
    by_contra hlong
    generalize hrsa : (fun _ : Nat => ~~~ s.cells (chipAddr addr + (len - 1))) = rsa
    have hstale := h rsa
    rw [otpRead_bytes (s := { s with rsa := rsa }) hs] at hstale
    have hlast := congrArg (fun bs => bs[len - 1]?) hstale
    simp only [slice_getElem?] at hlast
    rw [if_pos (by omega), if_pos (by omega), transfer_stale _ _ (by omega), ← hrsa] at hlast
    exact absurd (Option.some.inj hlast) (by simp)
  · intro h rsa
    rw [otpRead_bytes (s := { s with rsa := rsa }) hs]
    exact transfer_otp s.cells rsa h

/-! ## Writes -/

/-- The bus does not wrap inside a block. -/
structure Block (base size : Nat) : Prop where
  pages : base % 256 = 0
  onBus : chipAddr base + size ≤ 2 ^ 25

theorem backup_eq (fuel : Nat) (s : Otp) {par : OtpWrParam} (hs : s.insideFls = some par) (p size : Nat)
    (hb : Block p size) (hsize : size % 256 = 0) (hf : size ≤ fuel) :
    ∃ rsa, backup 256 fuel s p size = some (slice s.cells (chipAddr p) size, { s with rsa := rsa }) := by
  induction fuel generalizing s p size with
  | zero =>
    obtain rfl : size = 0 := by omega
    exact ⟨s.rsa, rfl⟩
  | succ fuel ih =>
    rw [backup]
    by_cases hzero : size = 0
    · subst hzero
      exact ⟨s.rsa, rfl⟩
    · have hl : (if 256 < size then 256 else size) = 256 := by
        split <;> omega
      have hpage := hb.pages
      have hbus := hb.onBus
      rw [if_neg hzero, hl]
      simp only []
      rw [otpRead_bytes hs, transfer_otp _ _ (by omega)]
      simp only []
      generalize transfer s.cells s.rsa (p / 16 * 16) (szNeed p 256) = rsa
      by_cases hlast : size = 256
      · subst hlast
        refine ⟨rsa, ?_⟩
        cases fuel with
        | zero => omega
        | succ fuel => simp [backup]
      · have hnext : chipAddr (p + 256) = chipAddr p + 256 := by
          unfold chipAddr at hbus ⊢
          omega
        obtain ⟨rsa', hrest⟩ := ih { s with rsa := rsa } hs (p + 256) (size - 256)
          ⟨by omega, by rw [hnext]; omega⟩ (by omega) (by omega)
        refine ⟨rsa', ?_⟩
        rw [hrest, hnext]
        simp only [Option.map_some, Option.some.injEq, Prod.mk.injEq, and_true]
        rw [← slice_append, Nat.add_sub_cancel' (by omega : 256 ≤ size)]

theorem restore_cells (fuel : Nat) (s : Otp) (p : Nat) (q : List Byte) (hb : Block p q.length)
    (hsize : q.length % 256 = 0) (hf : q.length ≤ fuel)
    (herased : ∀ i, i < q.length → s.cells (chipAddr p + i) = 0xFF#8) :
    (restore 256 fuel s p q q.length).cells = overlay s.cells (chipAddr p) q := by
  induction fuel generalizing s p q with
  | zero =>
    obtain rfl := List.length_eq_zero_iff.mp (Nat.le_zero.mp hf)
    simp [restore]
  | succ fuel ih =>
    rw [restore]
    by_cases hzero : q.length = 0
    · obtain rfl := List.length_eq_zero_iff.mp hzero
      simp
    · have hl : (if 256 < q.length then 256 else q.length) = 256 := by
        split <;> omega
      have hpage := hb.pages
      have hbus := hb.onBus
      have htake : (q.take 256).length = 256 := by
        rw [List.length_take]
        omega
      have hdrop : (q.drop 256).length = q.length - 256 := List.length_drop
      have hprog : (s.programSR p (q.take 256)).cells = overlay s.cells (chipAddr p) (q.take 256) := by
        rw [Otp.programSR, List.take_take, Nat.min_self]
        exact program_erased fun i hi => herased i (by omega)
      rw [if_neg hzero, hl]
      simp only []
      rw [← hdrop]
      by_cases hlast : q.length = 256
      · have hnil : q.drop 256 = [] := List.drop_of_length_le (by omega)
        have hdone : ∀ fuel (s : Otp) p, restore 256 fuel s p [] 0 = s := by
          intro fuel s p
          cases fuel <;> simp [restore]
        rw [hnil, List.length_nil, hdone, hprog, List.take_of_length_le (by omega)]
      · have hnext : chipAddr (p + 256) = chipAddr p + 256 := by
          unfold chipAddr at hbus ⊢
          omega
        have hjoin := overlay_append s.cells (chipAddr p) (q.take 256) (q.drop 256)
        rw [List.take_append_drop, htake] at hjoin
        rw [ih _ _ _ ⟨by omega, by rw [hnext]; omega⟩ (by omega) (by omega) ?_, hprog, hnext, hjoin]
        intro i hi
        rw [hprog, hnext, overlay_out (by omega), Nat.add_assoc]
        exact herased _ (by omega)

/-- The sizes of a chip whose registers can be written. -/
structure OtpWrParam.Supported (par : OtpWrParam) : Prop where
  page : par.pageSize = 256
  erase : par.eraseSize = 256 ∨ par.eraseSize = 512 ∨ par.eraseSize = 1024 ∨ par.eraseSize = 2048

theorem otpWrParam_supported (flashid : Mid) (density : Nat) (h : (otpWrParam flashid density).eraseSize ≠ 0) :
    (otpWrParam flashid density).Supported := by
  refine ⟨rfl, ?_⟩
  revert h
  cases flashid <;> simp only [otpWrParam, ne_eq, not_true_eq_false, false_implies] <;> intro _
  case tsingteng1Mb4Mb => split <;> [simp; (split <;> simp)]
  case fudanmicro => split <;> simp
  all_goals simp

/-- A block starts at a multiple of its size, so the bus does not wrap inside it. -/
theorem block_of_supported {par : OtpWrParam} (hpar : par.Supported) (addr : Nat) :
    Block (addr / par.eraseSize * par.eraseSize) par.eraseSize ∧
      addr / par.eraseSize * par.eraseSize + addr % par.eraseSize = addr ∧ addr % par.eraseSize < par.eraseSize ∧
      chipAddr (addr / par.eraseSize * par.eraseSize) + addr % par.eraseSize = chipAddr addr ∧
      par.eraseSize % 256 = 0 := by
  have hbus : ∀ n, (n = 256 ∨ n = 512 ∨ n = 1024 ∨ n = 2048) → (addr / n * n) % 256 = 0 ∧
      chipAddr (addr / n * n) + n ≤ 2 ^ 25 ∧ addr / n * n + addr % n = addr ∧ addr % n < n ∧
      chipAddr (addr / n * n) + addr % n = chipAddr addr ∧ n % 256 = 0 := by
    intro n hn
    unfold chipAddr
    rcases hn with rfl | rfl | rfl | rfl <;> omega
  obtain ⟨hpage, hend, hsplit, hlt, hchip, hsize⟩ := hbus _ hpar.erase
  exact ⟨⟨hpage, hend⟩, hsplit, hlt, hchip, hsize⟩

/-- A write that fits its block puts the buffer into the registers and keeps all the rest. -/
theorem otpWrite_ok {s : Otp} {par : OtpWrParam} (hs : s.insideFls = some par) (hpar : par.Supported)
    {addr : Nat} {buf : List Byte} (hfit : addr % par.eraseSize + buf.length ≤ par.eraseSize) :
    (tlsFlsOtpWrite s true addr (some buf)).1 = .ok ∧
      (tlsFlsOtpWrite s true addr (some buf)).2.cells = overlay s.cells (chipAddr addr) buf := by
  obtain ⟨hblock, hsplit, hlt, hchip, hsize⟩ := block_of_supported hpar addr
  have hpage := hpar.page
  have hne : ¬ (par.eraseSize = 0 ∨ par.pageSize = 0) := by omega
  unfold tlsFlsOtpWrite
  simp only [hs]
  generalize hbase : addr / par.eraseSize * par.eraseSize = base at hblock hsplit hchip ⊢
  have hoff : addr - base = addr % par.eraseSize := by omega
  obtain ⟨rsa, hback⟩ := backup_eq par.eraseSize s hs base par.eraseSize hblock hsize (Nat.le_refl _)
  rw [if_neg hne, if_neg (by omega), if_neg (by simp), hpage, hback, hoff]
  refine ⟨rfl, ?_⟩
  simp only []
  have hlen : (patch (slice s.cells (chipAddr base) par.eraseSize) (addr % par.eraseSize) buf).length =
      par.eraseSize := by
    rw [patch_length (by rw [slice_length]; exact hfit), slice_length]
  have hrestore := restore_cells par.eraseSize
    { s with
      cells := (Op.erase (chipAddr base) par.eraseSize).apply s.cells
      rsa := rsa } base
    (patch (slice s.cells (chipAddr base) par.eraseSize) (addr % par.eraseSize) buf)
    (by rw [hlen]; exact hblock) (by rw [hlen]; exact hsize) (by rw [hlen]) ?_
  · rw [hlen] at hrestore
    rw [hrestore, overlay_erase hlen, overlay_patch _ _ _ _ _ hfit, hchip]
  · intro i hi
    rw [hlen] at hi
    simp only [Op.apply]
    rw [if_pos (by omega)]

theorem otpWrite_accepted {s : Otp} {heap : Bool} {addr : Nat} {buf : List Byte}
    (h : (tlsFlsOtpWrite s heap addr (some buf)).1 = .ok) :
    ∃ par, s.insideFls = some par ∧ par.eraseSize ≠ 0 ∧ heap = true ∧
      addr % par.eraseSize + buf.length ≤ par.eraseSize := by
  unfold tlsFlsOtpWrite at h
  cases hs : s.insideFls with
  | none => simp [hs] at h
  | some par =>
    simp only [hs] at h
    split at h
    · simp at h
    · rename_i hne
      split at h
      · simp at h
      · rename_i hfit
        split at h
        · simp at h
        · rename_i hheap
          have hsplit := Nat.div_add_mod' addr par.eraseSize
          have hlt : addr % par.eraseSize < par.eraseSize := Nat.mod_lt _ (by omega)
          exact ⟨par, rfl, by omega, by simpa using hheap, by omega⟩

/-- A zone is a register of its own: short ranges of it can be read. -/
theorem luatOtpRead_zone {s : Otp} {par : OtpWrParam} (hs : s.insideFls = some par) {zone : Int}
    (hlo : 0 ≤ zone) (hhi : zone ≤ 2) {offset len : Nat} (hend : offset + len ≤ 0x1000)
    (hshort : offset % 16 + len < 1024) :
    (luatOtpRead s zone offset len).1 = len ∧
      (luatOtpRead s zone offset len).2.1 = slice s.cells ((zone.toNat + 1) * 0x1000 + offset) len := by
  have haddr : ((zone.toNat + 1) * 0x1000 + offset) % 2 ^ 32 = (zone.toNat + 1) * 0x1000 + offset := by
    omega
  have hchip : chipAddr ((zone.toNat + 1) * 0x1000 + offset) = (zone.toNat + 1) * 0x1000 + offset := by
    unfold chipAddr
    omega
  have hlen : (BitVec.ofNat 32 len).toInt = len := by
    rw [BitVec.toInt_ofNat', Int.bmod_eq_of_le (by omega) (by omega)]
  unfold luatOtpRead
  rw [if_neg (by omega), haddr, otpRead_bytes hs]
  refine ⟨hlen, ?_⟩
  simp only []
  rw [transfer_otp _ _ (by omega), hchip]

/-- A write to a zone that reports success has put the buffer there. -/
theorem luatOtpWrite_zone {s s' : Otp} {flashid : Mid} {density : Nat}
    (hs : s.insideFls = some (otpWrParam flashid density)) {heap : Bool} {zone : Int} {buff : List Byte}
    {offset : Nat} (h : luatOtpWrite s heap zone (some buff) offset = (0, s')) :
    s'.cells = overlay s.cells (chipAddr (((zone.toNat + 1) * 0x1000 + offset) % 2 ^ 32)) buff := by
  unfold luatOtpWrite at h
  split at h
  · simp at h
  · split at h
    · rename_i s1 hwrite
      rw [Prod.mk.injEq] at h
      obtain ⟨-, rfl⟩ := h
      have hok := congrArg Prod.fst hwrite
      obtain ⟨par, hpar, hne, rfl, hfit⟩ := otpWrite_accepted hok
      obtain rfl : otpWrParam flashid density = par := Option.some.inj (hs.symm.trans hpar)
      rw [← (otpWrite_ok hs (otpWrParam_supported flashid density hne) hfit).2, hwrite]
    · simp at h

/-- On every chip, an accepted write leaves the buffer in its range and every other register as it was. A
read returns its range, whatever the data buffer held before, exactly if the range ends less than 1024
bytes behind the multiple of 16 it starts in. -/
theorem otp_access (flashid : Mid) (density : Nat) {s : Otp} (hs : s.insideFls = some (otpWrParam flashid density)) :
    (∀ (heap : Bool) (addr : Nat) (buf : List Byte), (tlsFlsOtpWrite s heap addr (some buf)).1 = .ok →
      slice (tlsFlsOtpWrite s heap addr (some buf)).2.cells (chipAddr addr) buf.length = buf ∧
      ∀ x, x < chipAddr addr ∨ chipAddr addr + buf.length ≤ x →
        (tlsFlsOtpWrite s heap addr (some buf)).2.cells x = s.cells x) ∧
    ∀ addr len, (∀ rsa,
        (tlsFlsOtpRead { s with rsa := rsa } addr true len).2.1 = slice s.cells (chipAddr addr) len) ↔
      addr % 16 + len < 1024 := by
  refine ⟨?_, otpRead_exact_iff hs⟩
  intro heap addr buf hok
  obtain ⟨par, hpar, hne, rfl, hfit⟩ := otpWrite_accepted hok
  obtain rfl : otpWrParam flashid density = par := Option.some.inj (hs.symm.trans hpar)
  rw [(otpWrite_ok hs (otpWrParam_supported flashid density hne) hfit).2]
  refine ⟨slice_overlay _ _ _, fun x hx => overlay_out hx⟩

/-- A GigaDevice chip of 2 MB with erased registers. -/
def otpGd : Otp := { insideFls := some (otpWrParam .gd 0x200000), cells := fun _ => 0xFF#8, rsa := fun _ => 0#8 }

/-- A byte into the first register, and a read of its last 15 bytes. -/
theorem otp_access_gd :
    slice (tlsFlsOtpWrite otpGd true 0x1003 (some [0x5A#8])).2.cells 0x1003 1 = [0x5A#8] ∧
      (tlsFlsOtpRead otpGd 0x13F1 true 15).2.1 = slice otpGd.cells 0x13F1 15 := by
  obtain ⟨hwrite, hread⟩ := otp_access .gd 0x200000 (s := otpGd) rfl
  have hok : (tlsFlsOtpWrite otpGd true 0x1003 (some [0x5A#8])).1 = .ok :=
    (otpWrite_ok rfl (otpWrParam_supported .gd 0x200000 (by decide)) (by decide)).1
  exact ⟨(hwrite true 0x1003 [0x5A#8] hok).1, (hread 0x13F1 15).mpr (by decide) fun _ => 0#8⟩

/-- A whole register of 1024 bytes cannot be read. -/
theorem otp_access_whole_register : ¬ ∀ (s : Otp), s.insideFls = some (otpWrParam .gd 0x200000) →
    ∀ addr len, (tlsFlsOtpRead s addr true len).2.1 = slice s.cells (chipAddr addr) len := by
  intro h
  have hexact := (otpRead_exact_iff (s := otpGd) rfl 0x1000 1024).mp fun rsa =>
    h { otpGd with rsa := rsa } rfl 0x1000 1024
  exact absurd hexact (by decide)

end Fls
end Air101
