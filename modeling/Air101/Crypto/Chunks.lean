import Air101.Crypto.Crc

/-!
# Crypto.Chunks

A message that goes through `tls_crypto_crc_update` in several calls. Between two calls the register
is the result of the first one, reflected if the mode says so, and the driver reflects it once more
for the key register.

`Continues hw` says of the engine that it takes the bytes one after the other, starting with the
key register, and that its result has the width of the CRC type.

* `updates_continue`: any calls with non-empty chunks are one pass over their bytes.
* `crcOf_eq`: the result of a whole computation.
* `updates_reflected`: the same on the reflected engine, with `Crc32.update`.
-/

namespace Air101
namespace Crypto

open Storage

/-- What the mode does to the engine's result. -/
def outReflect (type : CrcType) (mode : Nat) (r : BitVec 32) : BitVec 32 :=
  if mode % 2 = 1 then reflect r (chCrc type) else r

/-- The engine continues the CRC from its key register, byte by byte. -/
def Continues (hw : Engine) : Prop :=
  ∀ type mode, ∃ step : BitVec 32 → Byte → BitVec 32,
    (∀ r b, (step r b).toNat < 2 ^ chCrc type) ∧
      ∀ key bs, hw type mode key bs = outReflect type mode (bs.foldl step key)

/-- The chunks that the length field of the engine can count. -/
def Chunks (cs : List (List Byte)) : Prop := ∀ c ∈ cs, c ≠ [] ∧ c.length ≤ 65535

/-- The calls of `tls_crypto_crc_update` with the chunks `cs`. -/
def updates (hw : Engine) (ctx : PsCrcContext) (cs : List (List Byte)) : PsCrcContext :=
  cs.foldl (tlsCryptoCrcUpdate hw) ctx

/-- `tls_crypto_crc_init`, the updates and `tls_crypto_crc_final`. -/
def crcOf (hw : Engine) (key : BitVec 32) (type : CrcType) (mode : Nat) (cs : List (List Byte)) :
    BitVec 32 :=
  tlsCryptoCrcFinal (updates hw (tlsCryptoCrcInit key type mode) cs)

theorem Chunks.tail {c : List Byte} {cs : List (List Byte)} (h : Chunks (c :: cs)) : Chunks cs :=
  fun d hd => h d (List.mem_cons_of_mem c hd)

theorem chunks_nil : Chunks [] := fun _ h => absurd h List.not_mem_nil

theorem chunks_cons {c : List Byte} {cs : List (List Byte)} (hne : c ≠ []) (hlen : c.length ≤ 65535)
    (h : Chunks cs) : Chunks (c :: cs) := by
  intro d hd
  cases List.mem_cons.mp hd with
  | inl he => exact he ▸ ⟨hne, hlen⟩
  | inr hin => exact h d hin

/-! ## One call -/

theorem chCrc_le (type : CrcType) : chCrc type ≤ 32 := by
  cases type <;> decide

theorem outReflect_twice {type : CrcType} {r : BitVec 32} (mode : Nat)
    (hr : r.toNat < 2 ^ chCrc type) : outReflect type mode (outReflect type mode r) = r := by
  unfold outReflect
  split
  · exact reflect_reflect (chCrc_le type) hr
  · rfl

theorem update_eq {hw : Engine} {ctx : PsCrcContext} {step : BitVec 32 → Byte → BitVec 32}
    (hstep : ∀ key bs, hw ctx.type ctx.mode key bs = outReflect ctx.type ctx.mode (bs.foldl step key))
    {c : List Byte} (hlen : c.length ≤ 65535) :
    tlsCryptoCrcUpdate hw ctx c =
      { ctx with
        state := outReflect ctx.type ctx.mode (c.foldl step (outReflect ctx.type ctx.mode ctx.state)) } := by
  have hfits : c.length < 2 ^ 16 := by omega
  unfold tlsCryptoCrcUpdate
  simp only [Nat.mod_eq_of_lt hfits, List.take_length, hstep]
  rfl

theorem foldl_width {type : CrcType} {step : BitVec 32 → Byte → BitVec 32}
    (hwidth : ∀ r b, (step r b).toNat < 2 ^ chCrc type) {c : List Byte} (hne : c ≠ [])
    (r : BitVec 32) : (c.foldl step r).toNat < 2 ^ chCrc type := by
  obtain ⟨bs, b, rfl⟩ := List.eq_nil_or_concat c |>.resolve_left hne
  rw [List.concat_eq_append, List.foldl_append]
  exact hwidth _ b

/-! ## A sequence of calls -/

/-- Between two calls the state is the register of `step`, as the mode shows it; a call keeps that,
and over a list of calls the register runs over all the bytes. -/
theorem updates_continue {hw : Engine} {type : CrcType} {mode : Nat}
    {step : BitVec 32 → Byte → BitVec 32} (hwidth : ∀ r b, (step r b).toNat < 2 ^ chCrc type)
    (hstep : ∀ key bs, hw type mode key bs = outReflect type mode (bs.foldl step key)) :
    ∀ (cs : List (List Byte)), Chunks cs → ∀ r : BitVec 32, r.toNat < 2 ^ chCrc type →
      updates hw { state := outReflect type mode r, type := type, mode := mode } cs =
        { state := outReflect type mode (cs.flatten.foldl step r), type := type, mode := mode } := by
  intro cs
  induction cs with
  | nil => intro _ r _; rfl
  | cons c cs ih =>
    intro h r hr
    obtain ⟨hne, hlen⟩ := h c List.mem_cons_self
    rw [updates, List.foldl_cons, update_eq hstep hlen, outReflect_twice mode hr]
    have hrest := ih h.tail (c.foldl step r) (foldl_width hwidth hne r)
    rw [updates] at hrest
    rw [hrest, List.flatten_cons, List.foldl_append]

/-- The first call takes any key; what it leaves is a register of the type's width. -/
theorem crcOf_eq {hw : Engine} {type : CrcType} {mode : Nat}
    {step : BitVec 32 → Byte → BitVec 32} (hwidth : ∀ r b, (step r b).toNat < 2 ^ chCrc type)
    (hstep : ∀ key bs, hw type mode key bs = outReflect type mode (bs.foldl step key))
    (key : BitVec 32) {cs : List (List Byte)} (h : Chunks cs) :
    crcOf hw key type mode cs =
      if cs.flatten = [] then key
      else outReflect type mode (cs.flatten.foldl step (outReflect type mode key)) := by
  cases cs with
  | nil => rfl
  | cons c cs =>
    obtain ⟨hne, hlen⟩ := h c List.mem_cons_self
    have hfull : (c :: cs).flatten ≠ [] := by
      rw [List.flatten_cons]
      exact List.append_ne_nil_of_left_ne_nil hne _
    rw [if_neg hfull, crcOf, updates, List.foldl_cons, update_eq hstep hlen]
    have hrest := updates_continue hwidth hstep cs h.tail _
      (foldl_width hwidth hne (outReflect type mode key))
    rw [updates] at hrest
    rw [tlsCryptoCrcInit, hrest, List.flatten_cons, List.foldl_append]
    rfl

/-- Two ways of cutting a message give the same result. -/
theorem Continues.crcOf_congr {hw : Engine} (h : Continues hw) (key : BitVec 32) (type : CrcType)
    (mode : Nat) {cs ds : List (List Byte)} (hcs : Chunks cs) (hds : Chunks ds)
    (hflat : cs.flatten = ds.flatten) : crcOf hw key type mode cs = crcOf hw key type mode ds := by
  obtain ⟨step, hwidth, hstep⟩ := h type mode
  rw [crcOf_eq hwidth hstep key hcs, crcOf_eq hwidth hstep key hds, hflat]

theorem updates_reflected {hw : Engine} (hr : Reflected hw) {cs : List (List Byte)} (h : Chunks cs)
    (c : BitVec 32) : updates hw (crcContext c) cs = crcContext (Crc32.update c cs.flatten) := by
  induction cs generalizing c with
  | nil => rfl
  | cons d ds ih =>
    have hlen := (h d List.mem_cons_self).2
    have hrest := ih h.tail (Crc32.update c d)
    rw [updates] at hrest
    rw [updates, List.foldl_cons, tlsCryptoCrcUpdate_reflected hr c (by omega), hrest,
      List.flatten_cons, Crc32.update_append]

/-! ## An engine -/

/-- The polynomial of a CRC type without its highest bit. -/
def crcPoly : CrcType → BitVec 32
  | .crc8 => 0x07#32
  | .crc16Modbus => 0x8005#32
  | .crc16Ccitt => 0x1021#32
  | .crc32 => 0x04C11DB7#32

/-- One message bit, the most significant one first. -/
def serialShift (type : CrcType) (r : BitVec 32) : BitVec 32 :=
  if r.getLsbD (chCrc type - 1) then (r <<< 1) ^^^ crcPoly type else r <<< 1

/-- One message byte; bit 1 of the mode is `INPUT_REFLECT`. -/
def serialStep (type : CrcType) (mode : Nat) (r : BitVec 32) (b : Byte) : BitVec 32 :=
  let b := if mode / 2 % 2 = 1 then reflect (b.setWidth 32) 8 else b.setWidth 32
  let r := (List.range 8).foldl (fun r _ => serialShift type r) (r ^^^ b <<< (chCrc type - 8))
  (r.setWidth (chCrc type)).setWidth 32

/-- A bit-serial engine. -/
def serialEngine : Engine := fun type mode key bs =>
  outReflect type mode (bs.foldl (serialStep type mode) key)

theorem serialEngine_continues : Continues serialEngine := by
  intro type mode
  refine ⟨serialStep type mode, ?_, fun _ _ => rfl⟩
  intro r b
  have hle := chCrc_le type
  unfold serialStep
  rw [BitVec.toNat_setWidth_of_le hle]
  exact BitVec.isLt _

end Crypto
end Air101
