import Air101.BleWifi.Response
import Mathlib.Data.Set.Finite.List

/-!
# BleWifi.Cipher

The encryption of commands and responses (`bt_aes_encrypt` and `bt_aes_decrypt` of
`src/app/bleapp/wm_ble_server_wifi_app.c`), with the bytes that are written. The padding is made in a work buffer of
`length + 16` bytes and ends with a NUL behind it, which has no room there after a padding of a whole block. What is
taken off after decryption is the number in the last byte, whatever the bytes before it are.

* `storeAll_pkcs7Stores`: the stores of `PKCS7Padding` leave the padding in the buffer.
* `btAesDecrypt_btAesEncrypt`: the round trip.
* `btAesDecrypt_sound_iff`: the texts from which `bt_aes_decrypt` takes off a padding, or fails.
-/

namespace Air101
namespace BleWifi
namespace Cipher

open Storage

/-- The stores of `PKCS7Padding`, at their indices in `str`. -/
def pkcs7Stores (len : Nat) : List (Nat × Byte) :=
  let remain := 16 - len % 16
  (List.range remain).map (fun i => (len + i, BitVec.ofNat 8 remain)) ++ [(len + remain, 0)]

/-- A buffer after stores, of which those behind its end are lost. -/
def storeAll (str : List Byte) (stores : List (Nat × Byte)) : List Byte := stores.foldl (fun s w => s.set w.1 w.2) str

/-- What `bt_aes_encrypt` does: its result, the indices of `aes_encode_temp` and of `dest_ptr` that are written, and the
bytes in `dest_ptr`. -/
structure Encrypted where
  ret : Int
  tempWrites : List Nat
  destWrites : List Nat
  dest : List Byte

/-- `bt_aes_encrypt`; `heap` says whether the work buffer is there. `tls_crypto_aes_init` succeeds for a key of 16 bytes,
`tls_crypto_aes_encrypt_decrypt` always. -/
def btAesEncrypt (aes : Aes) (key src : List Byte) (heap : Bool) : Encrypted :=
  if heap then
    let temp := storeAll (src ++ List.replicate 16 0) (pkcs7Stores src.length)
    let len := src.length + (16 - src.length % 16)
    { ret := len
      tempWrites := List.range (src.length + 16) ++ List.range src.length ++ (pkcs7Stores src.length).map Prod.fst
      destWrites := List.range len, dest := aes.encrypt key (temp.take len) }
  else { ret := -1, tempWrites := [], destWrites := [], dest := [] }

/-- `bt_aes_decrypt`: its result and what it wrote to `dest_ptr`. -/
structure Decrypted where
  ret : Int
  dest : List Byte

/-- `str[len - 1]` in `DePKCS7Padding` after `src` was decrypted to `str`; `before` is the byte before it. -/
def lastByte (aes : Aes) (key : List Byte) (before : Byte) (src : List Byte) : Byte :=
  if src.length = 0 then before else (aes.decrypt key src).getD (src.length - 1) 0

/-- `bt_aes_decrypt` of all of `src`. -/
def btAesDecrypt (aes : Aes) (key : List Byte) (before : Byte) (src : List Byte) (heap : Bool) : Decrypted :=
  if src.length % 16 ≠ 0 then { ret := -1, dest := [] }
  else if heap then
    { ret := dePKCS7Padding (lastByte aes key before src) src.length, dest := aes.decrypt key src }
  else { ret := -1, dest := [] }

/-- The bytes of a padding: as many as each of them says, up to a block. -/
structure WellFormed (removed : List Byte) : Prop where
  pos : 1 ≤ removed.length
  le : removed.length ≤ 16
  all : ∀ b ∈ removed, b.toNat = removed.length

/-- The text is not taken for a longer or shorter one than was padded: the result is -1, or what is behind it is a
padding. -/
def Sound (r : Decrypted) (len : Nat) : Prop :=
  r.ret = -1 ∨ ∃ n : Nat, r.ret = n ∧ n < len ∧ WellFormed (r.dest.drop n)

/-! ## The padding -/

theorem storeAll_append (str : List Byte) (ws ws' : List (Nat × Byte)) :
    storeAll str (ws ++ ws') = storeAll (storeAll str ws) ws' := List.foldl_append

/-- Equal bytes stored one after the other behind a prefix. -/
theorem storeAll_run (pre zs : List Byte) (v : Byte) {n : Nat} (hn : n ≤ zs.length) :
    storeAll (pre ++ zs) ((List.range n).map fun i => (pre.length + i, v)) = pre ++ List.replicate n v ++ zs.drop n := by
  induction n with
  | zero => simp [storeAll]
  | succ n ih =>
    have hset : (pre ++ List.replicate n v ++ zs.drop n).set (pre.length + n) v
        = pre ++ List.replicate n v ++ (zs.drop n).set 0 v := by
      rw [List.set_append_right _ _ (by simp)]
      simp
    have hdrop : zs.drop n = zs[n] :: zs.drop (n + 1) := List.drop_eq_getElem_cons (by omega)
    rw [List.range_succ, List.map_append, storeAll_append, ih (by omega)]
    show (pre ++ List.replicate n v ++ zs.drop n).set (pre.length + n) v = _
    rw [hset, hdrop, List.set_cons_zero, List.replicate_succ']
    simp

/-- The stores leave the padding in the buffer, and the NUL behind it. -/
theorem storeAll_pkcs7Stores (src : List Byte) :
    (storeAll (src ++ List.replicate 16 0) (pkcs7Stores src.length)).take (src.length + (16 - src.length % 16))
      = pkcs7Padding src := by
  rw [pkcs7Stores, storeAll_append, storeAll_run _ _ _ (by simp)]
  show List.take _ (List.set _ _ _) = _
  rw [List.take_set_of_le (Nat.le_refl _)]
  exact List.take_left' (by simp)

theorem wellFormed_replicate {n : Nat} (hpos : 1 ≤ n) (hle : n ≤ 16) : WellFormed (List.replicate n (BitVec.ofNat 8 n)) := by
  refine ⟨by simpa using hpos, by simpa using hle, fun b hb => ?_⟩
  rw [List.eq_of_mem_replicate hb, List.length_replicate, BitVec.toNat_ofNat]
  exact Nat.mod_eq_of_lt (by omega)

theorem WellFormed.eq_replicate {removed : List Byte} (h : WellFormed removed) :
    removed = List.replicate removed.length (BitVec.ofNat 8 removed.length) := by
  refine List.eq_replicate_iff.mpr ⟨rfl, fun b hb => BitVec.eq_of_toNat_eq ?_⟩
  have hle := h.le
  rw [h.all b hb, BitVec.toNat_ofNat]
  exact (Nat.mod_eq_of_lt (by omega)).symm

/-- A text of whole blocks with a padding at its end is the padding of what is before it. -/
theorem eq_pkcs7Padding {str : List Byte} {n : Nat} (hlen : str.length % 16 = 0) (hn : n ≤ str.length)
    (h : WellFormed (str.drop n)) : str = pkcs7Padding (str.take n) := by
  have hdrop : (str.drop n).length = str.length - n := List.length_drop
  have htake : (str.take n).length = n := List.length_take_of_le hn
  have hpos := h.pos
  have hle := h.le
  have hremain : 16 - n % 16 = (str.drop n).length := by omega
  rw [pkcs7Padding, htake, hremain, ← h.eq_replicate, List.take_append_drop]

/-! ## The calls -/

section Calls

variable {aes : Aes} {key src : List Byte} {before : Byte}

theorem btAesEncrypt_dest : (btAesEncrypt aes key src true).dest = aes.encrypt key (pkcs7Padding src) := by
  simp only [btAesEncrypt, if_true, storeAll_pkcs7Stores]

theorem destWrites_lt (heap : Bool) : ∀ i ∈ (btAesEncrypt aes key src heap).destWrites, i < src.length + 16 := by
  intro i hi
  cases heap with
  | false => cases hi
  | true =>
    have := List.mem_range.mp hi
    omega

/-- The NUL is in the work buffer unless the padding is a whole block. -/
theorem tempWrites_lt_iff (heap : Bool) : (∀ i ∈ (btAesEncrypt aes key src heap).tempWrites, i < src.length + 16) ↔
    (heap = true → src.length % 16 ≠ 0) := by
  cases heap with
  | false => exact iff_of_true (fun i hi => by cases hi) (fun h => by cases h)
  | true =>
    have hindex : ∀ i, i ∈ (pkcs7Stores src.length).map Prod.fst ↔
        src.length ≤ i ∧ i ≤ src.length + (16 - src.length % 16) := by
      intro i
      simp only [pkcs7Stores, List.map_append, List.map_map, List.mem_append, List.mem_map, List.mem_range,
        Function.comp_apply, List.map_cons, List.map_nil, List.mem_singleton]
      constructor
      · rintro (⟨k, hk, rfl⟩ | rfl) <;> omega
      · rintro ⟨hle, hi⟩
        by_cases hlast : i = src.length + (16 - src.length % 16)
        · exact .inr hlast
        · exact .inl ⟨i - src.length, by omega, by omega⟩
    constructor
    · intro h _ hmod
      have := h (src.length + 16) (List.mem_append_right _ ((hindex _).mpr (by omega)))
      omega
    · intro hmod i hi
      have hmod := hmod rfl
      rcases List.mem_append.mp hi with hi | hi
      · rcases List.mem_append.mp hi with hi | hi
        · exact List.mem_range.mp hi
        · have := List.mem_range.mp hi
          omega
      · have := (hindex i).mp hi
        omega

theorem btAesDecrypt_btAesEncrypt :
    btAesDecrypt aes key before (btAesEncrypt aes key src true).dest true = ⟨src.length, pkcs7Padding src⟩ := by
  have hmod := length_pkcs7Padding_mod src
  have hpos : (pkcs7Padding src).length ≠ 0 := by rw [length_pkcs7Padding]; omega
  rw [btAesEncrypt_dest, btAesDecrypt, lastByte, aes.length_encrypt, if_neg (by rw [hmod]; decide), if_pos rfl, if_neg hpos,
    aes.decrypt_encrypt key _ hmod, dePKCS7Padding_pkcs7Padding]

theorem sound_padding {text : List Byte} (hdec : aes.decrypt key src = pkcs7Padding text) :
    Sound ⟨dePKCS7Padding (lastByte aes key before src) src.length, aes.decrypt key src⟩ src.length := by
  have hsrc : src.length = (pkcs7Padding text).length := by rw [← hdec, aes.length_decrypt]
  have hlen := length_pkcs7Padding text
  refine .inr ⟨text.length, ?_, by omega, ?_⟩
  · rw [lastByte, if_neg (by omega), hdec, hsrc]
    exact dePKCS7Padding_pkcs7Padding text
  · rw [hdec, pkcs7Padding, List.drop_left]
    exact wellFormed_replicate (by omega) (by omega)

/-- A padding is taken off, or the result is -1, just for the padding of some text, and where the last byte is one more
than the length. -/
theorem btAesDecrypt_sound_iff (heap : Bool) : Sound (btAesDecrypt aes key before src heap) src.length ↔
    (heap = true → src.length % 16 = 0 →
      (∃ text, aes.decrypt key src = pkcs7Padding text) ∨ (lastByte aes key before src).toNat = src.length + 1) := by
  by_cases hmod : src.length % 16 = 0
  · cases heap with
    | false =>
      refine iff_of_true (.inl ?_) (fun h => by cases h)
      simp [btAesDecrypt]
    | true =>
      rw [btAesDecrypt, if_neg (not_not.mpr hmod), if_pos rfl]
      constructor
      · rintro (hret | ⟨n, hret, hn, hwf⟩) - -
        · simp only [dePKCS7Padding] at hret
          exact .inr (by omega)
        · have hlen := aes.length_decrypt key src
          exact .inl ⟨_, eq_pkcs7Padding (by rw [hlen, hmod]) (by omega) hwf⟩
      · intro h
        rcases h rfl hmod with ⟨text, htext⟩ | hlast
        · exact sound_padding htext
        · refine .inl ?_
          show dePKCS7Padding (lastByte aes key before src) src.length = -1
          rw [dePKCS7Padding]
          omega
  · refine iff_of_true (.inl ?_) (fun _ h => absurd h hmod)
    rw [btAesDecrypt, if_pos hmod]

end Calls

/-- Every text of whole blocks is the encryption of one: encryption keeps the length, and there are finitely many texts of a
length. -/
theorem encrypt_decrypt (aes : Aes) (key : List Byte) {src : List Byte} (h : src.length % 16 = 0) :
    aes.encrypt key (aes.decrypt key src) = src := by
  have hbyte : Finite Byte := Finite.of_injective BitVec.toFin fun _ _ => BitVec.eq_of_toFin_eq
  have hfin : Finite {s : List Byte // s.length = src.length} := (List.finite_length_eq Byte src.length).to_subtype
  have hsurj : Function.Surjective fun s : {s : List Byte // s.length = src.length} =>
      (⟨aes.encrypt key s.1, (aes.length_encrypt key s.1).trans s.2⟩ : {s : List Byte // s.length = src.length}) := by
    refine Finite.surjective_of_injective fun s t hst => Subtype.ext ?_
    have henc : aes.encrypt key s.1 = aes.encrypt key t.1 := congrArg Subtype.val hst
    rw [← aes.decrypt_encrypt key s.1 (by rw [s.2, h]), henc, aes.decrypt_encrypt key t.1 (by rw [t.2, h])]
  obtain ⟨s, hs⟩ := hsurj ⟨src, rfl⟩
  have henc : aes.encrypt key s.1 = src := congrArg Subtype.val hs
  rw [← henc, aes.decrypt_encrypt key s.1 (by rw [s.2, h])]

/-- The encryption of a padding, or of a text whose last byte is one more than its length. -/
def Sealed (aes : Aes) (key : List Byte) (before : Byte) (src : List Byte) : Prop :=
  (∃ text, src = aes.encrypt key (pkcs7Padding text)) ∨
    ∃ str, src = aes.encrypt key str ∧ (str.getLast?.getD before).toNat = str.length + 1

theorem lastByte_eq (aes : Aes) (key : List Byte) (before : Byte) (src : List Byte) :
    lastByte aes key before src = (aes.decrypt key src).getLast?.getD before := by
  have hlen := aes.length_decrypt key src
  rw [lastByte, List.getLast?_eq_getElem?, hlen]
  split
  · rename_i h0
    rw [List.getElem?_eq_none (by omega), Option.getD_none]
  · rw [List.getD_eq_getElem?_getD, List.getElem?_eq_getElem (by omega), Option.getD_some, Option.getD_some]

theorem sealed_iff {aes : Aes} {key src : List Byte} {before : Byte} (h : src.length % 16 = 0) :
    Sealed aes key before src ↔
      (∃ text, aes.decrypt key src = pkcs7Padding text) ∨ (lastByte aes key before src).toNat = src.length + 1 := by
  have hlen := aes.length_decrypt key src
  rw [lastByte_eq]
  constructor
  · rintro (⟨text, rfl⟩ | ⟨str, rfl, hlast⟩)
    · exact .inl ⟨text, aes.decrypt_encrypt key _ (length_pkcs7Padding_mod text)⟩
    · rw [aes.length_encrypt] at h ⊢
      exact .inr (by rw [aes.decrypt_encrypt key str h, hlast])
  · rintro (⟨text, htext⟩ | hlast)
    · exact .inl ⟨text, by rw [← htext, encrypt_decrypt aes key h]⟩
    · exact .inr ⟨aes.decrypt key src, (encrypt_decrypt aes key h).symm, by rw [hlast, hlen]⟩

/-- Encryption writes inside its buffers of `length + 16` bytes, decryption of its result gives the text back, and of any
text takes off nothing but a padding. -/
structure Meets (aes : Aes) (key : List Byte) (before : Byte) (heap : Bool) (m src : List Byte) : Prop where
  temp : ∀ i ∈ (btAesEncrypt aes key m heap).tempWrites, i < m.length + 16
  dest : ∀ i ∈ (btAesEncrypt aes key m heap).destWrites, i < m.length + 16
  roundTrip : heap = true →
    (btAesDecrypt aes key before (btAesEncrypt aes key m heap).dest heap).ret = m.length ∧
    (btAesDecrypt aes key before (btAesEncrypt aes key m heap).dest heap).dest.take m.length = m
  sound : Sound (btAesDecrypt aes key before src heap) src.length

/-- The calls meet this, where memory can be had, just for a message that is not of whole blocks and for a text that is not
of whole blocks either or is `Sealed`. -/
theorem aes_meets_iff (aes : Aes) (key : List Byte) (before : Byte) (heap : Bool) (m src : List Byte) :
    Meets aes key before heap m src ↔
      heap = true → m.length % 16 ≠ 0 ∧ (src.length % 16 = 0 → Sealed aes key before src) := by
  constructor
  · rintro ⟨htemp, -, -, hsound⟩ hheap
    exact ⟨(tempWrites_lt_iff heap).mp htemp hheap,
      fun hmod => (sealed_iff hmod).mpr ((btAesDecrypt_sound_iff heap).mp hsound hheap hmod)⟩
  · intro h
    refine ⟨(tempWrites_lt_iff heap).mpr fun hheap => (h hheap).1, destWrites_lt heap, ?_,
      (btAesDecrypt_sound_iff heap).mpr fun hheap hmod => (sealed_iff hmod).mp ((h hheap).2 hmod)⟩
    rintro rfl
    rw [btAesDecrypt_btAesEncrypt]
    exact ⟨rfl, take_pkcs7Padding m⟩

/-- A message of one block, whose NUL is the byte 32 of 32, and a text of one block that ends with a zero. -/
theorem aes_misses : ¬ Meets plainAes (List.replicate 16 0x55) 0 true (List.replicate 16 0x41) [] ∧
    ¬ Meets plainAes (List.replicate 16 0x55) 0 true [0x41] (List.replicate 16 0) := by
  constructor
  · intro h
    exact absurd (h.temp 32 (by decide)) (by decide)
  · intro h
    rcases h.sound with hret | ⟨n, hret, hn, -⟩
    · exact absurd hret (by decide)
    · have h16 : (16 : Int) = n := hret
      rw [List.length_replicate] at hn
      omega

end Cipher
end BleWifi
end Air101
