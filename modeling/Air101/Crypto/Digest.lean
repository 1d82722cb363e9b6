import Air101.Storage.Blocks

/-!
# Crypto.Digest

SHA-1 and MD5 over a stream (`platform/common/crypto/wm_crypto_hard.c`): `tls_crypto_sha1_init`,
`tls_crypto_sha1_update`, `tls_crypto_sha1_final` and their MD5 counterparts. The two differ in the
initial state, in the byte order and in one test.

The compression of a block is done by the engine, a parameter `hw` from the state and a block to the
new state. `Md.blocks` keeps the blocks that it was started on.

* `update_absorbed`: after any updates the engine has seen the whole blocks of the message, and the
  rest is in the buffer.
* `final_padded`: with the final call it has seen the blocks of the padded message.
* `digest_blocks`: both algorithms, over any chunks.
-/

namespace Air101
namespace Crypto

open Storage

/-- `psSha1_t` and `psMd5_t`, with the blocks that the engine was started on. -/
structure Md where
  state : List (BitVec 32)
  lengthHi : BitVec 32
  lengthLo : BitVec 32
  curlen : Nat
  buf : Nat → Byte
  blocks : List (List Byte)

/-- What tells the two algorithms apart. -/
structure Alg where
  /-- The state that `init` sets. -/
  start : List (BitVec 32)
  /-- `final` tests `curlen` against the size of the buffer. -/
  tests : Bool
  /-- The length at offset 56 of the last block, from `lengthHi` and `lengthLo`. -/
  length : BitVec 32 → BitVec 32 → List Byte
  /-- A word of the digest. -/
  store : BitVec 32 → List Byte
  /-- The value `final` returns. -/
  size : Int

/-- The macro `STORE32H`. -/
def store32H (x : BitVec 32) : List Byte :=
  [(x >>> 24).setWidth 8, (x >>> 16).setWidth 8, (x >>> 8).setWidth 8, x.setWidth 8]

/-- The macro `STORE32L`. -/
def store32L (x : BitVec 32) : List Byte := leBytes 4 x.toNat

def sha1 : Alg :=
  { start := [0x67452301#32, 0xefcdab89#32, 0x98badcfe#32, 0x10325476#32, 0xc3d2e1f0#32]
    tests := true
    length := fun hi lo => store32H hi ++ store32H lo
    store := store32H
    size := 20 }

def md5 : Alg :=
  { start := [0x67452301#32, 0xefcdab89#32, 0x98badcfe#32, 0x10325476#32]
    tests := false
    length := fun hi lo => store32L lo ++ store32L hi
    store := store32L
    size := 16 }

/-! ## The functions -/

section Functions

variable (hw : List (BitVec 32) → List Byte → List (BitVec 32))

/-- `hd_sha1_compress`, `hd_md5_compress`. -/
def Md.compress (md : Md) : Md :=
  { md with
    state := hw md.state (slice md.buf 0 64)
    blocks := md.blocks ++ [slice md.buf 0 64] }

/-- `memcpy` to the end of the buffered bytes. -/
def Md.put (md : Md) (bs : List Byte) : Md :=
  { md with buf := overlay md.buf md.curlen bs, curlen := md.curlen + bs.length }

/-- The counter of bits in two words. -/
def Md.addLength (md : Md) (bits : BitVec 32) : Md :=
  let n := md.lengthLo + bits
  { md with
    lengthHi := if n < md.lengthLo then md.lengthHi + 1#32 else md.lengthHi
    lengthLo := n }

/-- The end of a pass of the update loop: a full buffer goes to the engine. -/
def Md.flush (md : Md) : Md :=
  if md.curlen = 64 then { (md.compress hw).addLength 512#32 with curlen := 0 } else md

/-- The loop of the updates; a pass takes what there is room for. -/
def updateLoop : Nat → List Byte → Md → Md
  | 0, _, md => md
  | fuel + 1, buf, md =>
    if buf = [] then md
    else
      let n := min buf.length (64 - md.curlen)
      updateLoop fuel (buf.drop n) ((md.put (buf.take n)).flush hw)

/-- The `init` of an algorithm: the buffer keeps what it holds. -/
def digestInit (a : Alg) (md : Md) : Md :=
  { md with state := a.start, curlen := 0, lengthHi := 0#32, lengthLo := 0#32 }

/-- The `update` of either algorithm. -/
def digestUpdate (md : Md) (buf : List Byte) : Md := updateLoop hw buf.length buf md

/-- The bit one and, if there is no room for the length behind it, zeros up to the block's end. -/
def Md.closeMessage (md : Md) : Md :=
  let md := md.put [0x80#8]
  if 56 < md.curlen then
    { (md.put (List.replicate (64 - md.curlen) 0#8)).compress hw with curlen := 0 }
  else md

/-- The `final` of an algorithm: its return value, what it puts behind `hash` (`false` for a null
pointer) and the context. -/
def digestFinal (a : Alg) (hash : Bool) (md : Md) : Int × Option (List Byte) × Md :=
  if (a.tests = true ∧ 64 ≤ md.curlen) ∨ hash = false then (-6, none, md)
  else
    let curlen := BitVec.ofNat 32 md.curlen
    let md := md.addLength (curlen <<< 3)
    let md := { md with lengthHi := md.lengthHi + (curlen >>> 29) }
    let md := md.closeMessage hw
    let md := md.put (List.replicate (56 - md.curlen) 0#8)
    let md := { md with buf := overlay md.buf 56 (a.length md.lengthHi md.lengthLo) }
    let md := md.compress hw
    (a.size, some (md.state.flatMap a.store),
      { md with
        state := a.start.map fun _ => 0#32
        lengthHi := 0#32, lengthLo := 0#32, curlen := 0
        buf := overlay md.buf 0 (List.replicate 64 0#8) })

/-- `tls_crypto_sha1_init`. -/
def tlsCryptoSha1Init : Md → Md := digestInit sha1

/-- `tls_crypto_sha1_update`. -/
def tlsCryptoSha1Update : Md → List Byte → Md := digestUpdate hw

/-- `tls_crypto_sha1_final`. -/
def tlsCryptoSha1Final : Bool → Md → Int × Option (List Byte) × Md := digestFinal hw sha1

/-- `tls_crypto_md5_init`. -/
def tlsCryptoMd5Init : Md → Md := digestInit md5

/-- `tls_crypto_md5_update`. -/
def tlsCryptoMd5Update : Md → List Byte → Md := digestUpdate hw

/-- `tls_crypto_md5_final`. -/
def tlsCryptoMd5Final : Bool → Md → Int × Option (List Byte) × Md := digestFinal hw md5

end Functions

/-! ## The counter -/

/-- The number of bits in the two words. -/
def Md.bits (md : Md) : Nat := md.lengthHi.toNat * 2 ^ 32 + md.lengthLo.toNat

theorem addLength_bits (md : Md) (bits : BitVec 32) :
    (md.addLength bits).bits = (md.bits + bits.toNat) % 2 ^ 64 := by
  have hhi := md.lengthHi.isLt
  have hlo := md.lengthLo.isLt
  have hbits := bits.isLt
  unfold Md.addLength Md.bits
  simp only [BitVec.lt_def, BitVec.toNat_add]
  split
  · rename_i hwrap
    rw [BitVec.toNat_add]
    simp only [BitVec.toNat_ofNat]
    omega
  · rename_i hwrap
    omega

/-! ## Updates -/

section Stream

variable {hw : List (BitVec 32) → List Byte → List (BitVec 32)} {a : Alg} {bs0 : List (List Byte)}

/-- The context after the message `m`: the engine has seen its whole blocks, and the rest is in the
buffer. -/
structure Absorbed (hw : List (BitVec 32) → List Byte → List (BitVec 32)) (a : Alg)
    (bs0 : List (List Byte)) (m : List Byte) (md : Md) : Prop where
  curlen : md.curlen = m.length % 64
  buffered : slice md.buf 0 md.curlen = rest 64 m
  blocks : md.blocks = bs0 ++ Storage.blocks 64 m
  state : md.state = (Storage.blocks 64 m).foldl hw a.start
  bits : md.bits = 512 * (m.length / 64) % 2 ^ 64

theorem put_curlen (md : Md) (bs : List Byte) : (md.put bs).curlen = md.curlen + bs.length := rfl

theorem put_slice (md : Md) (bs : List Byte) :
    slice (md.put bs).buf 0 (md.put bs).curlen = slice md.buf 0 md.curlen ++ bs := by
  have h := slice_overlay_behind md.buf 0 md.curlen bs
  rw [Nat.zero_add] at h
  exact h

theorem init_absorbed (a : Alg) (md : Md) : Absorbed hw a md.blocks [] (digestInit a md) := by
  have hnone : Storage.blocks 64 ([] : List Byte) = [] := blocks_short (by simp)
  refine ⟨rfl, rfl, ?_, ?_, ?_⟩
  · rw [hnone, List.append_nil]
    rfl
  · rw [hnone]
    rfl
  · simp [digestInit, Md.bits]

/-- Bytes that fill the buffer are with it one block. -/
theorem pass_full {m bs : List Byte} {md : Md} (h : Absorbed hw a bs0 m md)
    (hfull : md.curlen + bs.length = 64) :
    Absorbed hw a bs0 (m ++ bs) { ((md.put bs).compress hw).addLength 512#32 with curlen := 0 } := by
  have hput := put_slice md bs
  rw [h.buffered, put_curlen, hfull] at hput
  have hcur := h.curlen
  have hparts : (rest 64 m ++ bs).length = 64 := by
    rw [List.length_append, rest_length, ← hcur, hfull]
  have hblocks := blocks_append (k := 64) (by omega) m bs
  have hrest := rest_append (k := 64) (by omega) m bs
  rw [blocks_full (by omega) hparts] at hblocks
  rw [rest_full (by omega) hparts] at hrest
  refine ⟨?_, ?_, ?_, ?_, ?_⟩
  · rw [List.length_append]
    simp only []
    omega
  · rw [hrest]
    rfl
  · rw [hblocks, ← List.append_assoc, ← h.blocks]
    simp only [Md.addLength, Md.compress, hput]
    rfl
  · rw [hblocks, List.foldl_append, ← h.state]
    simp only [Md.addLength, Md.compress, hput]
    rfl
  · have hbits := addLength_bits ((md.put bs).compress hw) 512#32
    have hsame : ((md.put bs).compress hw).bits = md.bits := rfl
    rw [hsame, h.bits] at hbits
    rw [List.length_append]
    refine hbits.trans ?_
    simp only [BitVec.toNat_ofNat]
    omega

/-- Bytes that leave room in the buffer stay there. -/
theorem pass_room {m bs : List Byte} {md : Md} (h : Absorbed hw a bs0 m md)
    (hroom : md.curlen + bs.length < 64) : Absorbed hw a bs0 (m ++ bs) (md.put bs) := by
  have hput := put_slice md bs
  rw [h.buffered] at hput
  have hlen := put_curlen md bs
  have hcur := h.curlen
  have hparts : (rest 64 m ++ bs).length < 64 := by
    rw [List.length_append, rest_length, ← hcur]
    exact hroom
  have hblocks := blocks_append (k := 64) (by omega) m bs
  have hrest := rest_append (k := 64) (by omega) m bs
  rw [blocks_short hparts, List.append_nil] at hblocks
  rw [rest_short hparts] at hrest
  refine ⟨?_, ?_, ?_, ?_, ?_⟩
  · rw [List.length_append]
    omega
  · rw [hput, hrest]
  · rw [hblocks]
    exact h.blocks
  · rw [hblocks]
    exact h.state
  · have hsame : (md.put bs).bits = md.bits := rfl
    rw [hsame, h.bits, List.length_append]
    omega

/-- One pass of the loop. -/
theorem pass_absorbed {m bs : List Byte} {md : Md} (h : Absorbed hw a bs0 m md)
    (hroom : md.curlen + bs.length ≤ 64) : Absorbed hw a bs0 (m ++ bs) ((md.put bs).flush hw) := by
  have hlen := put_curlen md bs
  unfold Md.flush
  split
  · rename_i hfull
    exact pass_full h (by omega)
  · rename_i hmore
    exact pass_room h (by omega)

/-- The loop takes all the bytes: a pass leaves the buffer with room, so the next one advances. -/
theorem updateLoop_absorbed : ∀ (fuel : Nat) (bs m : List Byte) (md : Md), bs.length ≤ fuel →
    Absorbed hw a bs0 m md → Absorbed hw a bs0 (m ++ bs) (updateLoop hw fuel bs md) := by
  intro fuel
  induction fuel with
  | zero =>
    intro bs m md hf h
    rw [List.eq_nil_of_length_eq_zero (Nat.le_zero.mp hf), List.append_nil]
    exact h
  | succ fuel ih =>
    intro bs m md hf h
    rw [updateLoop]
    split
    · rename_i hnil
      rw [hnil, List.append_nil]
      exact h
    · rename_i hne
      have hpos := List.length_pos_of_ne_nil hne
      have hcur := h.curlen
      simp only []
      generalize hn : min bs.length (64 - md.curlen) = n
      have hpass : Absorbed hw a bs0 (m ++ bs.take n) ((md.put (bs.take n)).flush hw) :=
        pass_absorbed h (by rw [List.length_take]; omega)
      have hall := ih (bs.drop n) _ _ (by rw [List.length_drop]; omega) hpass
      rwa [List.append_assoc, List.take_append_drop] at hall

theorem update_absorbed {m : List Byte} {md : Md} (h : Absorbed hw a bs0 m md) (bs : List Byte) :
    Absorbed hw a bs0 (m ++ bs) (digestUpdate hw md bs) :=
  updateLoop_absorbed bs.length bs m md (Nat.le_refl _) h

theorem updates_absorbed (cs : List (List Byte)) {m : List Byte} {md : Md}
    (h : Absorbed hw a bs0 m md) :
    Absorbed hw a bs0 (m ++ cs.flatten) (cs.foldl (digestUpdate hw) md) := by
  induction cs generalizing m md with
  | nil => rwa [List.flatten_nil, List.append_nil]
  | cons c cs ih =>
    rw [List.flatten_cons, ← List.append_assoc]
    exact ih (update_absorbed h c)

/-! ## The final call -/

/-- The message's end in the buffer `r`, up to the length. -/
def closing (r : List Byte) : List Byte :=
  r ++ 0x80#8 :: List.replicate (paddingZeros r.length) 0#8

theorem closing_near {r : List Byte} (h : r.length + 1 ≤ 56) :
    closing r = r ++ [0x80#8] ++ List.replicate (56 - (r.length + 1)) 0#8 := by
  have hz : paddingZeros r.length = 56 - (r.length + 1) := by
    unfold paddingZeros
    omega
  rw [closing, hz, List.append_assoc]
  rfl

theorem closing_far {r : List Byte} (h : 56 < r.length + 1) (hlt : r.length < 64) :
    closing r = r ++ [0x80#8] ++ List.replicate (64 - (r.length + 1)) 0#8 ++
      List.replicate 56 0#8 := by
  have hz : paddingZeros r.length = 64 - (r.length + 1) + 56 := by
    unfold paddingZeros
    omega
  rw [closing, hz, ← List.replicate_append_replicate, List.append_assoc, List.append_assoc]
  rfl

/-- The context `md'` with room for the length only, from `md` with the bytes `r` in its buffer. -/
structure Closed (hw : List (BitVec 32) → List Byte → List (BitVec 32)) (md : Md) (r : List Byte) (md' : Md) :
    Prop where
  buffered : slice md'.buf 0 56 = rest 64 (closing r)
  blocks : md'.blocks = md.blocks ++ Storage.blocks 64 (closing r)
  state : md'.state = (Storage.blocks 64 (closing r)).foldl hw md.state
  lengthHi : md'.lengthHi = md.lengthHi
  lengthLo : md'.lengthLo = md.lengthLo

/-- No room: this block is filled up and compressed, and the length goes into the next one. -/
theorem closed_far {md full : Md} {r : List Byte} (hr : slice md.buf 0 md.curlen = r) (hcur : md.curlen < 64)
    (hfar : 56 < md.curlen + 1)
    (hfull : (md.put [0x80#8]).put (List.replicate (64 - (md.curlen + 1)) 0#8) = full) :
    Closed hw md r (Md.put { full.compress hw with curlen := 0 } (List.replicate 56 0#8)) := by
  have hlen : r.length = md.curlen := by rw [← hr, slice_length]
  have hbit := put_slice md [0x80#8]
  have hcur1 : (md.put [0x80#8]).curlen = md.curlen + 1 := rfl
  rw [hr] at hbit
  have hblock := put_slice (md.put [0x80#8]) (List.replicate (64 - (md.curlen + 1)) 0#8)
  have hcurf : full.curlen = 64 := by
    rw [← hfull, put_curlen, List.length_replicate, hcur1]
    omega
  rw [hfull, hcurf, hbit] at hblock
  have hclose := closing_far (r := r) (by omega) (by omega)
  rw [hlen, ← hblock] at hclose
  have hblocks : Storage.blocks 64 (closing r) = [slice full.buf 0 64] := by
    rw [hclose]
    exact blocks_one (by omega) (slice_length _ _ _) (by simp)
  have hrest : rest 64 (closing r) = List.replicate 56 0#8 := by
    rw [hclose]
    exact rest_one (by omega) (slice_length _ _ _) (by simp)
  have hzeros := put_slice { full.compress hw with curlen := 0 } (List.replicate 56 0#8)
  rw [put_curlen, List.length_replicate, Nat.zero_add] at hzeros
  refine ⟨?_, ?_, ?_, ?_, ?_⟩
  · rw [hrest]
    exact hzeros
  · rw [hblocks, ← hfull]
    rfl
  · rw [hblocks, ← hfull]
    rfl
  · rw [← hfull]
    rfl
  · rw [← hfull]
    rfl

theorem closed_near {md : Md} {r : List Byte} (hr : slice md.buf 0 md.curlen = r) (hnear : md.curlen + 1 ≤ 56) :
    Closed hw md r ((md.put [0x80#8]).put (List.replicate (56 - (md.curlen + 1)) 0#8)) := by
  have hlen : r.length = md.curlen := by rw [← hr, slice_length]
  have hbit := put_slice md [0x80#8]
  have hcur1 : (md.put [0x80#8]).curlen = md.curlen + 1 := rfl
  rw [hr] at hbit
  have hclose := closing_near (r := r) (by omega)
  have hshort : (closing r).length < 64 := by
    rw [hclose]
    simp
    omega
  have hzeros := put_slice (md.put [0x80#8]) (List.replicate (56 - (md.curlen + 1)) 0#8)
  rw [put_curlen, List.length_replicate, hbit, hcur1, show md.curlen + 1 + (56 - (md.curlen + 1)) = 56 by omega,
    ← hlen, ← hclose, hlen] at hzeros
  refine ⟨?_, ?_, ?_, rfl, rfl⟩
  · rw [rest_short hshort]
    exact hzeros
  · rw [blocks_short hshort, List.append_nil]
    rfl
  · rw [blocks_short hshort]
    rfl

/-- The bit one and the zeros, with one block in between if the length has no room any more. -/
theorem closeMessage_closed {md : Md} {r : List Byte} (hr : slice md.buf 0 md.curlen = r) (hcur : md.curlen < 64) :
    Closed hw md r ((md.closeMessage hw).put (List.replicate (56 - (md.closeMessage hw).curlen) 0#8)) := by
  have hcur1 : (md.put [0x80#8]).curlen = md.curlen + 1 := rfl
  unfold Md.closeMessage
  simp only [hcur1]
  split
  · rename_i hfar
    exact closed_far hr hcur hfar rfl
  · rename_i hnear
    exact closed_near hr (Nat.not_lt.mp hnear)

/-- The counter of `final`: the bits of the whole blocks and those in the buffer. -/
theorem final_bits {m : List Byte} {md : Md} (h : Absorbed hw a bs0 m md) :
    ((md.addLength (BitVec.ofNat 32 md.curlen <<< 3)).lengthHi + (BitVec.ofNat 32 md.curlen >>> 29)).toNat *
        2 ^ 32 + (md.addLength (BitVec.ofNat 32 md.curlen <<< 3)).lengthLo.toNat =
      8 * m.length % 2 ^ 64 := by
  have hcur := h.curlen
  have hlow : (BitVec.ofNat 32 md.curlen <<< 3).toNat = 8 * md.curlen := by
    rw [BitVec.toNat_shiftLeft, BitVec.toNat_ofNat, Nat.shiftLeft_eq]
    omega
  have hhigh : BitVec.ofNat 32 md.curlen >>> 29 = 0#32 := by
    apply BitVec.eq_of_toNat_eq
    rw [BitVec.toNat_ushiftRight, BitVec.toNat_ofNat, Nat.shiftRight_eq_div_pow]
    simp only [BitVec.toNat_ofNat]
    omega
  have hbits := addLength_bits md (BitVec.ofNat 32 md.curlen <<< 3)
  rw [hlow, h.bits, Md.bits] at hbits
  rw [hhigh, BitVec.add_zero, hbits]
  omega

/-- The blocks of a padded message: those of the message, those of its closing, and the one with the
length. -/
theorem pad_blocks {order : Nat → List Byte} (h8 : ∀ v, (order v).length = 8) (m : List Byte) :
    Storage.blocks 64 (pad order m) = Storage.blocks 64 m ++ Storage.blocks 64 (closing (rest 64 m)) ++
      [rest 64 (closing (rest 64 m)) ++ order (8 * m.length)] := by
  have hzeros : paddingZeros (rest 64 m).length = paddingZeros m.length := by
    rw [rest_length]
    unfold paddingZeros
    omega
  have hpad : pad order m = m ++ (0x80#8 :: List.replicate (paddingZeros m.length) 0#8 ++
      order (8 * m.length)) := by
    rw [pad, List.append_assoc]
  have hclosing : rest 64 m ++ (0x80#8 :: List.replicate (paddingZeros m.length) 0#8 ++
      order (8 * m.length)) = closing (rest 64 m) ++ order (8 * m.length) := by
    rw [closing, hzeros, List.append_assoc]
  have hlast : (rest 64 (closing (rest 64 m)) ++ order (8 * m.length)).length = 64 := by
    have hwhole := paddingZeros_whole (rest 64 m).length
    rw [List.length_append, rest_length, h8, closing]
    simp only [List.length_append, List.length_cons, List.length_replicate]
    omega
  rw [hpad, blocks_append (by omega), hclosing, blocks_append (by omega) (closing _),
    blocks_full (by omega) hlast, List.append_assoc]

/-- The final call hands over the rest of the padded message, and the digest is the state behind all
of it. -/
theorem final_padded {order : Nat → List Byte} (h8 : ∀ v, (order v).length = 8)
    (hmod : ∀ v, order (v % 2 ^ 64) = order v)
    (horder : ∀ hi lo, a.length hi lo = order (hi.toNat * 2 ^ 32 + lo.toNat))
    {m : List Byte} {md : Md} (h : Absorbed hw a bs0 m md) :
    (digestFinal hw a true md).2.2.blocks = bs0 ++ Storage.blocks 64 (pad order m) ∧
      (digestFinal hw a true md).1 = a.size ∧
      (digestFinal hw a true md).2.1 =
        some (((Storage.blocks 64 (pad order m)).foldl hw a.start).flatMap a.store) := by
  have hcur := h.curlen
  have hbits := final_bits h
  have hrun : ¬ ((a.tests = true ∧ 64 ≤ md.curlen) ∨ true = false) := by
    rintro (⟨_, hge⟩ | hnull)
    · omega
    · exact Bool.noConfusion hnull
  unfold digestFinal
  rw [if_neg hrun]
  simp only []
  generalize hmd1 : ({ md.addLength (BitVec.ofNat 32 md.curlen <<< 3) with
    lengthHi := (md.addLength (BitVec.ofNat 32 md.curlen <<< 3)).lengthHi +
      (BitVec.ofNat 32 md.curlen >>> 29) } : Md) = md1
  generalize hmd2 : md1.closeMessage hw = md2
  generalize hmd3 : md2.put (List.replicate (56 - md2.curlen) 0#8) = md3
  have hr : slice md1.buf 0 md1.curlen = rest 64 m := by
    rw [← hmd1]
    exact h.buffered
  have hlt : md1.curlen < 64 := by
    rw [← hmd1]
    simp only [Md.addLength]
    omega
  have hclosed : Closed hw md1 (rest 64 m) _ := closeMessage_closed hr hlt
  rw [hmd2, hmd3] at hclosed
  obtain ⟨hslice, hblocks, hstate, hhi, hlo⟩ := hclosed
  have hlength : a.length md3.lengthHi md3.lengthLo = order (8 * m.length) := by
    rw [horder, hhi, hlo, ← hmod (8 * m.length), ← hbits, ← hmd1]
  have hlast : slice (overlay md3.buf 56 (a.length md3.lengthHi md3.lengthLo)) 0 64 =
      rest 64 (closing (rest 64 m)) ++ order (8 * m.length) := by
    have hbehind := slice_overlay_behind md3.buf 0 56 (order (8 * m.length))
    rw [h8, Nat.zero_add, hslice] at hbehind
    rw [hlength]
    exact hbehind
  have hb1 : md1.blocks = md.blocks := by
    rw [← hmd1]
    rfl
  have hs1 : md1.state = md.state := by
    rw [← hmd1]
    rfl
  rw [hb1, h.blocks] at hblocks
  rw [hs1, h.state] at hstate
  rw [pad_blocks h8]
  simp only [Md.compress, hlast, hblocks, hstate, List.foldl_append, List.foldl_cons, List.foldl_nil,
    List.append_assoc, and_self]

end Stream

/-! ## The length field -/

theorem store32H_eq (x : BitVec 32) : store32H x = (leBytes 4 x.toNat).reverse := by
  have hbyte : ∀ k, (x >>> k).setWidth 8 = BitVec.ofNat 8 (x.toNat / 2 ^ k) := by
    intro k
    apply BitVec.eq_of_toNat_eq
    rw [BitVec.toNat_setWidth, BitVec.toNat_ushiftRight, Nat.shiftRight_eq_div_pow, BitVec.toNat_ofNat]
  have hlow : x.setWidth 8 = BitVec.ofNat 8 x.toNat := by
    apply BitVec.eq_of_toNat_eq
    rw [BitVec.toNat_setWidth, BitVec.toNat_ofNat]
  simp only [store32H, hbyte, hlow, leBytes, Nat.div_div_eq_div_mul]
  rfl

/-- The low word first. -/
theorem words_leBytes (hi lo : BitVec 32) :
    leBytes 8 (hi.toNat * 2 ^ 32 + lo.toNat) = leBytes 4 lo.toNat ++ leBytes 4 hi.toNat := by
  have hlo := lo.isLt
  have hmod : (hi.toNat * 2 ^ 32 + lo.toNat) % 256 ^ 4 = lo.toNat := by omega
  have hdiv : (hi.toNat * 2 ^ 32 + lo.toNat) / 256 ^ 4 = hi.toNat := by omega
  rw [leBytes_add 4 4, hdiv, ← leBytes_mod 4 (hi.toNat * 2 ^ 32 + lo.toNat), hmod]

theorem sha1_length (hi lo : BitVec 32) :
    sha1.length hi lo = beBytes 8 (hi.toNat * 2 ^ 32 + lo.toNat) := by
  rw [beBytes, words_leBytes, List.reverse_append, ← store32H_eq, ← store32H_eq]
  rfl

theorem md5_length (hi lo : BitVec 32) :
    md5.length hi lo = leBytes 8 (hi.toNat * 2 ^ 32 + lo.toNat) := by
  rw [words_leBytes]
  rfl

/-! ## Whole computations -/

/-- The blocks that `init`, the updates with the chunks `cs` and `final` hand to the engine are those
of the padded message, and the digest is what the engine makes of them. -/
theorem stream_padded {hw : List (BitVec 32) → List Byte → List (BitVec 32)} {a : Alg}
    (order : Nat → List Byte) (h8 : ∀ v, (order v).length = 8)
    (hmod : ∀ v, order (v % 2 ^ 64) = order v)
    (horder : ∀ hi lo, a.length hi lo = order (hi.toNat * 2 ^ 32 + lo.toNat)) (md : Md)
    (cs : List (List Byte)) :
    ∃ bs, (digestFinal hw a true (cs.foldl (digestUpdate hw) (digestInit a md))).2.2.blocks =
        md.blocks ++ bs ∧
      (∀ b ∈ bs, b.length = 64) ∧ bs.flatten = pad order cs.flatten ∧
      (digestFinal hw a true (cs.foldl (digestUpdate hw) (digestInit a md))).2.1 =
        some ((bs.foldl hw a.start).flatMap a.store) := by
  have habs : Absorbed hw a md.blocks ([] ++ cs.flatten) _ := updates_absorbed cs (init_absorbed a md)
  rw [List.nil_append] at habs
  obtain ⟨hblocks, _, hdigest⟩ := final_padded h8 hmod horder habs
  exact ⟨_, hblocks, block_length (by omega) _, pad_flatten h8 _, hdigest⟩

/-- SHA-1 and MD5 over any chunks: the engine gets the message with the padding of FIPS 180, the
length most significant byte first, and of RFC 1321, least significant byte first. -/
theorem digest_blocks (hw : List (BitVec 32) → List Byte → List (BitVec 32)) (md : Md)
    (cs : List (List Byte)) :
    (∃ bs, (tlsCryptoSha1Final hw true
          (cs.foldl (tlsCryptoSha1Update hw) (tlsCryptoSha1Init md))).2.2.blocks = md.blocks ++ bs ∧
        (∀ b ∈ bs, b.length = 64) ∧ bs.flatten = pad (beBytes 8) cs.flatten ∧
        (tlsCryptoSha1Final hw true
          (cs.foldl (tlsCryptoSha1Update hw) (tlsCryptoSha1Init md))).2.1 =
          some ((bs.foldl hw sha1.start).flatMap store32H)) ∧
      ∃ bs, (tlsCryptoMd5Final hw true
          (cs.foldl (tlsCryptoMd5Update hw) (tlsCryptoMd5Init md))).2.2.blocks = md.blocks ++ bs ∧
        (∀ b ∈ bs, b.length = 64) ∧ bs.flatten = pad (leBytes 8) cs.flatten ∧
        (tlsCryptoMd5Final hw true
          (cs.foldl (tlsCryptoMd5Update hw) (tlsCryptoMd5Init md))).2.1 =
          some ((bs.foldl hw md5.start).flatMap store32L) := by
  constructor
  · exact stream_padded (beBytes 8) (fun v => by rw [beBytes, List.length_reverse, leBytes_length])
      (fun v => congrArg List.reverse (leBytes_mod 8 v)) sha1_length md cs
  · exact stream_padded (leBytes 8) (leBytes_length 8) (leBytes_mod 8) md5_length md cs

end Crypto
end Air101
