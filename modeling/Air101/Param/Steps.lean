import Air101.Param.Store

/-!
# Param.Steps

What one step of the store does to the two partitions.

* `paramToFlash_spec`: afterwards the partition holds the record in RAM, by at most one driver call
  that stays in the partition's sector (`Wrote`).
* `partitionOk_valid`: a complete record passes the test of `tls_param_init`.
* `scan_spec`: what the scan over the partitions finds.
-/

namespace Air101
namespace Param

open Storage
open Crypto
open Fls
open Utils

variable {hw : Engine} {c : Chip}

/-! ## The partitions -/

/-- The chip offset of the first or the second partition. -/
def Chip.base (c : Chip) (second : Bool) : Nat :=
  if second then c.density - 0x3000 else c.density - 0x4000

/-- The content of a partition, as long as a record. -/
def Chip.part (c : Chip) (m : Nat → Byte) (second : Bool) : List Byte := slice m (c.base second) 2036

/-- The partition of a number. -/
def isSecond (num : BitVec 16) : Bool := num ≠ 0#16

theorem Chip.part_length (c : Chip) (m : Nat → Byte) (b : Bool) : (c.part m b).length = 2036 :=
  slice_length _ _ _

theorem Chip.base_le (c : Chip) (b : Bool) : c.base b + 4096 ≤ c.density := by
  have := c.system_le
  cases b <;> simp [base] <;> omega

theorem Chip.base_aligned (c : Chip) (b : Bool) : c.base b % 4096 = 0 := by
  have := c.system_le
  have := c.aligned
  cases b <;> simp [base] <;> omega

theorem Chip.base_apart (c : Chip) (b : Bool) :
    c.base b + 4096 ≤ c.base (!b) ∨ c.base (!b) + 4096 ≤ c.base b := by
  have := c.system_le
  cases b <;> simp [base] <;> omega

theorem Chip.partAddr_eq (c : Chip) (num : BitVec 16) :
    c.partAddr num = 0x8000000 + c.base (isSecond num) := by
  have := c.system_le
  unfold partAddr base isSecond
  by_cases h : num = 0#16
  · simp [h]; omega
  · simp [h]; omega

theorem Chip.partAddr_mod (c : Chip) (num : BitVec 16) :
    c.partAddr num % 0x8000000 = c.base (isSecond num) := by
  have := c.base_le (isSecond num)
  have := c.density_le
  rw [c.partAddr_eq]
  omega

/-! ## Reading and writing a partition -/

theorem read_part {d : Dev} (hd : d.insideFls = some c.density) (num : BitVec 16) :
    tlsFlsRead d true (c.partAddr num) 2036 = (.ok, c.part d.mem (isSecond num)) := by
  have hb := c.base_le (isSecond num)
  have hle := c.density_le
  have hchip : chipAddr (c.partAddr num) = c.base (isSecond num) := by
    rw [c.partAddr_eq]
    unfold chipAddr
    omega
  unfold tlsFlsRead
  rw [rangeCheck_ok hd (by rw [c.partAddr_mod]; omega) (by omega)]
  simp only []
  rw [flashRead_eq _ _ _ _ (by rw [hchip]; omega), hchip]
  rfl

/-- The commands that rewrite a partition: they erase its sector and program its pages. -/
structure Rewrites (c : Chip) (m : Nat → Byte) (second : Bool) (buf : List Byte) (ops : List Op) :
    Prop where
  run_eq : run m ops = overlay m (c.base second) buf
  touches : ∀ o ∈ ops, ∀ x, o.Touches x → c.base second ≤ x ∧ x < c.base second + 4096
  head_eq : ∃ pages, ops = .erase (c.base second) 4096 :: pages

/-- `d'` comes from `d` by putting `buf` into a partition: it is there already, or one
`tls_fls_write` has put it there. -/
inductive Wrote (c : Chip) (d : Dev) (second : Bool) (buf : List Byte) : Dev → Prop where
  | same (h : c.part d.mem second = buf) : Wrote c d second buf d
  | write (addr : Nat) (ops : List Op) (haddr : addr % 0x8000000 = c.base second)
      (hops : Rewrites c d.mem second buf ops) :
      Wrote c d second buf (d.issue (.write addr buf ops))

theorem Rewrites.part_other {m : Nat → Byte} {b : Bool} {buf : List Byte} {ops : List Op}
    (h : Rewrites c m b buf ops) (k : Nat) : c.part (run m (ops.take k)) (!b) = c.part m (!b) := by
  have hapart := c.base_apart b
  apply slice_congr
  intro i hi
  apply run_frame
  intro o ho ht
  have := h.touches o (List.mem_of_mem_take ho) _ ht
  omega

theorem Rewrites.part_eq {m : Nat → Byte} {b : Bool} {buf : List Byte} {ops : List Op}
    (h : Rewrites c m b buf ops) (hl : buf.length = 2036) : c.part (run m ops) b = buf := by
  have hs := slice_overlay m (c.base b) buf
  rw [Chip.part, h.run_eq, ← hl]
  exact hs

namespace Wrote

variable {d d' : Dev} {b : Bool} {buf : List Byte}

theorem installed (h : Wrote c d b buf d') : d'.insideFls = d.insideFls := by
  cases h <;> rfl

theorem part_eq (h : Wrote c d b buf d') (hl : buf.length = 2036) : c.part d'.mem b = buf := by
  cases h with
  | same h => exact h
  | write addr ops _ hops => exact hops.part_eq hl

theorem part_other (h : Wrote c d b buf d') : c.part d'.mem (!b) = c.part d.mem (!b) := by
  cases h with
  | same _ => rfl
  | write addr ops _ hops =>
    have hcut := hops.part_other ops.length
    rwa [List.take_length] at hcut

end Wrote

theorem write_part {d : Dev} (hd : d.insideFls = some c.density) (num : BitVec 16) {buf : List Byte}
    (hl : buf.length = 2036) :
    (tlsFlsWrite d (c.partAddr num) buf).1 = .ok ∧
      Wrote c d (isSecond num) buf (tlsFlsWrite d (c.partAddr num) buf).2 := by
  have hb := c.base_le (isSecond num)
  have hle := c.density_le
  have hal := c.base_aligned (isSecond num)
  have hmod := c.partAddr_mod num
  have hne : buf ≠ [] := by
    rintro rfl
    simp at hl
  have hsec : c.base (isSecond num) / 4096 * 4096 = c.base (isSecond num) := by omega
  unfold tlsFlsWrite
  rw [rangeCheck_ok hd (by rw [hmod]; omega) (by omega)]
  simp only [hmod, hal, true_and]
  refine .write _ _ hmod ⟨?_, ?_, ?_⟩
  · rw [writeSectors_run _ _ _ _ _ (Nat.le_refl _) hne (by omega) (by omega), hsec, Nat.add_zero]
  · intro o ho x hx
    have ht := writeSectors_touches _ _ _ _ _ hne (by omega) (by omega) o ho x hx
    unfold sectorOf at ht
    omega
  · rw [writeSectors_one _ (by omega) (by omega), sectorOps_eq (by omega), hsec]
    exact ⟨_, rfl⟩

/-! ## `param_to_flash` -/

theorem verify_eq {d : Dev} (hd : d.insideFls = some c.density) (heap : Bool) (num : BitVec 16)
    {buf : List Byte} (hl : buf.length = 2036) :
    paramFlashVerify heap d (c.partAddr num) buf = (heap && decide (c.part d.mem (isSecond num) = buf)) := by
  unfold paramFlashVerify
  rw [hl, read_part hd]
  cases heap <;> simp

/-- For an identifier in range: the record in RAM is stamped, and the partition holds it. -/
theorem paramToFlash_spec {s : State} (hd : s.dev.insideFls = some c.density) (heap : Nat → Bool)
    {id : Int} (hid : ¬ (id < -1 ∨ 66 ≤ id)) (partitionNum : Int) :
    ∃ d', (paramToFlash c heap id partitionNum s).2 =
        { s with dev := d', flashParam := s.flashParam.stamp (s.target partitionNum) } ∧
      Wrote c s.dev (isSecond (s.target partitionNum))
        (s.flashParam.stamp (s.target partitionNum)).bytes d' ∧
      (heap 1 = true → (paramToFlash c heap id partitionNum s).1 = .ok) := by
  have hl := (s.flashParam.stamp (s.target partitionNum)).bytes_length
  unfold paramToFlash
  rw [if_neg hid]
  simp only []
  generalize s.target partitionNum = num at hl ⊢
  rw [verify_eq hd (heap 0) num hl]
  split
  · rename_i hsame
    rw [Bool.and_eq_true, decide_eq_true_iff] at hsame
    exact ⟨s.dev, rfl, .same hsame.2, fun _ => rfl⟩
  · obtain ⟨hok, hw⟩ := write_part hd num hl
    generalize tlsFlsWrite s.dev (c.partAddr num) (s.flashParam.stamp num).bytes = r at hok hw ⊢
    obtain ⟨st, d'⟩ := r
    subst hok
    simp only []
    rw [verify_eq (hw.installed.trans hd) (heap 1) num hl, hw.part_eq hl]
    cases heap 1
    · exact ⟨d', rfl, hw, by simp⟩
    · exact ⟨d', by simp, hw, by simp⟩

/-! ## The test of a partition -/

/-- The test of `tls_param_init` rejects this content, whatever lies around its buffer. -/
def Damaged (hw : Engine) (bs : List Byte) : Prop := ∀ around, partitionOk hw around bs = false

theorem bufferSlice_in {around : Int → Byte} {flash : List Byte} {i n : Nat}
    (h : i + n ≤ flash.length) : bufferSlice around flash i n = (flash.drop i).take n := by
  apply List.ext_getElem?
  intro k
  by_cases hk : k < n
  · have hin : (i : Int) + k < flash.length := by omega
    have hto : ((i : Int) + k).toNat = i + k := by omega
    simp only [bufferSlice, List.getElem?_map, List.getElem?_range hk, Option.map_some, bufferAt,
      hto]
    rw [if_pos ⟨by omega, hin⟩, List.getElem?_take_of_lt hk, List.getElem?_drop,
      List.getElem?_eq_getElem (by omega), Option.getD_some]
  · rw [List.getElem?_eq_none (by simp [bufferSlice]; omega),
      List.getElem?_eq_none (by rw [List.length_take]; omega)]

theorem ofInt_length {x : BitVec 16} {n : Nat} (h : x.toNat = n + 4) :
    (BitVec.ofInt 32 ((x.toNat : Int) - 4)).toNat = n := by
  have hlt := x.isLt
  rw [BitVec.toNat_ofInt]
  omega

/-- The test of a record whose length field stays inside the buffer. -/
theorem partitionOk_inside (hr : Reflected hw) {bs : List Byte} {n : Nat} (hl : bs.length = 2036)
    (hlen : (ParamFlash.ofBytes bs).length.toNat = n + 4) (hn : n + 4 ≤ 2036) (around : Int → Byte) :
    partitionOk hw around bs = true ↔ (ParamFlash.ofBytes bs).magic = paramMagic ∧
      BitVec.ofNat 32 (field bs n 4) = getCrc32 (bs.take n) := by
  have hsize := ofInt_length hlen
  have hstart : ((ParamFlash.ofBytes bs).length.toNat : Int) - 4 = (n : Int) := by omega
  have hbody : bufferSlice around bs 0 n = bs.take n := by
    have h : bufferSlice around bs ((0 : Nat) : Int) n = (bs.drop 0).take n :=
      bufferSlice_in (by omega)
    rwa [List.drop_zero] at h
  have hcrc : bufferSlice around bs (n : Int) 4 = (bs.drop n).take 4 := bufferSlice_in (by omega)
  have hshort : (bs.take n).length < 2 ^ 16 := by
    rw [List.length_take]
    omega
  have hupd := tlsCryptoCrcUpdate_reflected hr 0xFFFFFFFF#32 hshort
  have hfinal : ∀ x, tlsCryptoCrcFinal (crcContext x) = x := fun _ => rfl
  have hinit : tlsCryptoCrcInit 0xFFFFFFFF#32 .crc32 3 = crcContext 0xFFFFFFFF#32 := rfl
  unfold partitionOk field
  simp only []
  rw [hsize, hstart, hbody, hcrc, hinit, hupd, hfinal, getCrc32_eq]
  by_cases hm : (ParamFlash.ofBytes bs).magic = paramMagic
  · rw [if_neg (not_not.mpr hm), decide_eq_true_iff]
    simp only [hm, true_and]
    exact eq_comm
  · simp [hm]

theorem partitionOk_iff (hr : Reflected hw) {bs : List Byte} (hl : bs.length = 2036)
    (hlen : (ParamFlash.ofBytes bs).length = 2036#16) (around : Int → Byte) :
    partitionOk hw around bs = true ↔ Valid bs := by
  have hsize : (ParamFlash.ofBytes bs).length.toNat = 2032 + 4 := by rw [hlen]; rfl
  rw [partitionOk_inside hr hl hsize (by omega)]
  unfold Valid
  simp only [hl, hlen, true_and]
  rfl

theorem partitionOk_valid (hr : Reflected hw) {bs : List Byte} (h : Valid bs) (around : Int → Byte) :
    partitionOk hw around bs = true :=
  (partitionOk_iff hr h.1 h.2.2.1 around).mpr h

theorem Damaged.not_valid (hr : Reflected hw) {bs : List Byte} (h : Damaged hw bs) : ¬ Valid bs := by
  intro hv
  have hok := partitionOk_valid hr hv fun _ => 0#8
  rw [h] at hok
  exact absurd hok (by decide)

theorem damaged_of_magic {bs : List Byte} (h : (ParamFlash.ofBytes bs).magic ≠ paramMagic) :
    Damaged hw bs := by
  intro around
  unfold partitionOk
  simp [h]

theorem loadRecord_valid {bs : List Byte} (h : Valid bs) (around : Int → Byte) (old : ParamFlash) :
    loadRecord around bs old = ParamFlash.ofBytes bs := by
  unfold loadRecord
  simp [h.2.2.1]

/-! ## The scan -/

/-- The partition that the scan loads when both are complete: the second one if its count is
higher. -/
def Chip.chosen (c : Chip) (m : Nat → Byte) : Bool :=
  decide ((ParamFlash.ofBytes (c.part m false)).modifyCount <
    (ParamFlash.ofBytes (c.part m true)).modifyCount)

/-- The record that the scan loads when at least one partition is complete; `ok` says which are. -/
def Chip.loaded (c : Chip) (m : Nat → Byte) (ok : Bool → Bool) : ParamFlash :=
  if ok false then
    if ok true then ParamFlash.ofBytes (c.part m (c.chosen m)) else ParamFlash.ofBytes (c.part m false)
  else if ok true then ParamFlash.ofBytes (c.part m true)
  else .zero

theorem pass_spec (hr : Reflected hw) (around : Int → Byte) {s : Scan} {i : Nat} {b : Bool}
    (hd : s.dev.insideFls = some c.density) (hb : isSecond (BitVec.ofNat 16 i) = b) :
    (Valid (c.part s.dev.mem b) →
      s.pass hw c around i =
        ({ s with
            flashParam := if s.flashParam.magic = 0#32 ∨ s.flashParam.modifyCount <
                (ParamFlash.ofBytes (c.part s.dev.mem b)).modifyCount then
              ParamFlash.ofBytes (c.part s.dev.mem b) else s.flashParam
            flash := List.replicate 2036 0#8 }, true)) ∧
    (Damaged hw (c.part s.dev.mem b) →
      s.pass hw c around i =
        ({ s with
            flash := c.part s.dev.mem b
            isDamage := fun j => if j = i then true else s.isDamage j
            damaged := s.damaged + 1 }, false)) := by
  unfold Scan.pass
  rw [read_part hd, hb]
  simp only []
  refine ⟨fun hv => ?_, fun hdam => ?_⟩
  · rw [partitionOk_valid hr hv, if_neg (by decide), loadRecord_valid hv]
  · rw [hdam around, if_pos rfl]

theorem loop_step {around : Int → Byte} {s s' : Scan} {i : Nat} {good : Bool}
    (h : s.pass hw c around i = (s', good)) (hi : i < 2) (hdam : good = true → s'.damaged < 2)
    (fuel : Nat) : s.loop hw c around (fuel + 1) i = s'.loop hw c around fuel (i + 1) := by
  rw [Scan.loop, if_neg (by omega), h]
  cases good with
  | true => simp only [show ¬ 2 ≤ s'.damaged from by have := hdam rfl; omega, and_false, if_false]
  | false => rfl

/-- The restart never comes: a pass that ends on a complete partition has seen at most one damaged
one. -/
theorem scan_eq {around : Int → Byte} {d : Dev} {s1 s2 : Scan} {good1 good2 : Bool}
    (h1 : (Scan.start d).pass hw c around 0 = (s1, good1)) (h2 : s1.pass hw c around 1 = (s2, good2))
    (hdam1 : good1 = true → s1.damaged < 2) (hdam2 : good2 = true → s2.damaged < 2) :
    scan hw c around d = s2 := by
  rw [scan, loop_step h1 (by omega) hdam1, loop_step h2 (by omega) hdam2, Scan.loop,
    if_pos (by omega)]

theorem pass_dev {around : Int → Byte} {s s' : Scan} {i : Nat} {good : Bool}
    (h : s.pass hw c around i = (s', good)) :
    s'.dev = s.dev ∧ s'.damaged ≤ s.damaged + 1 ∧ (good = true → s'.damaged = s.damaged) := by
  unfold Scan.pass at h
  generalize List.replicate 2036 0#8 = cleared at h
  simp only [] at h
  -- the sector could be read or not; the partition passes the test or not
  split at h
  all_goals
    split at h
    · rw [Prod.mk.injEq] at h
      obtain ⟨rfl, rfl⟩ := h
      exact ⟨rfl, Nat.le_refl _, by simp⟩
    · rw [Prod.mk.injEq] at h
      obtain ⟨rfl, rfl⟩ := h
      exact ⟨rfl, Nat.le_succ _, fun _ => rfl⟩

theorem scan_dev (around : Int → Byte) (d : Dev) : (scan hw c around d).dev = d := by
  obtain ⟨⟨s1, good1⟩, h1⟩ : ∃ r, (Scan.start d).pass hw c around 0 = r := ⟨_, rfl⟩
  obtain ⟨⟨s2, good2⟩, h2⟩ : ∃ r, s1.pass hw c around 1 = r := ⟨_, rfl⟩
  obtain ⟨hdev1, hdam1, _⟩ := pass_dev h1
  obtain ⟨hdev2, _, hgood2⟩ := pass_dev h2
  have hstart : (Scan.start d).damaged = 0 ∧ (Scan.start d).dev = d := ⟨rfl, rfl⟩
  rw [hstart.1] at hdam1
  rw [scan_eq h1 h2 (fun _ => by omega) (fun h => by rw [hgood2 h]; omega), hdev2, hdev1, hstart.2]

/-- What the scan finds: which partitions are damaged, and the record it loads. -/
theorem scan_spec (hr : Reflected hw) {d : Dev} (hd : d.insideFls = some c.density)
    (around : Int → Byte) (ok : Bool → Bool)
    (hok : ∀ b, if ok b then Valid (c.part d.mem b) else Damaged hw (c.part d.mem b)) :
    (scan hw c around d).dev = d ∧ (scan hw c around d).flashParam = c.loaded d.mem ok ∧
      (scan hw c around d).isDamage 0 = !ok false ∧ (scan hw c around d).isDamage 1 = !ok true ∧
      (2 ≤ (scan hw c around d).damaged ↔ ok false = false ∧ ok true = false) := by
  have h0 := hok false
  have h1 := hok true
  have e0 : isSecond (BitVec.ofNat 16 0) = false := by decide
  have e1 : isSecond (BitVec.ofNat 16 1) = true := by decide
  obtain ⟨load0, skip0⟩ := pass_spec hr around (c := c) (s := Scan.start d) hd e0
  -- the state behind the first partition
  obtain ⟨s1, good1, hpass1, hdev, hpar, hdam, hfirst, hsecond⟩ : ∃ s1 good1,
      (Scan.start d).pass hw c around 0 = (s1, good1) ∧ s1.dev = d ∧
        s1.flashParam = (if ok false then ParamFlash.ofBytes (c.part d.mem false) else .zero) ∧
        s1.damaged = (if ok false then 0 else 1) ∧ s1.isDamage 0 = !ok false ∧
        s1.isDamage 1 = false := by
    cases ok0 : ok false with
    | true =>
      rw [ok0, if_pos rfl] at h0
      have p0 := load0 h0
      rw [if_pos (.inl rfl)] at p0
      exact ⟨_, _, p0, rfl, rfl, rfl, rfl, rfl⟩
    | false =>
      rw [ok0, if_neg (by decide)] at h0
      exact ⟨_, _, skip0 h0, rfl, rfl, rfl, rfl, rfl⟩
  obtain ⟨load1, skip1⟩ := pass_spec hr around (c := c) (s := s1) (by rw [hdev]; exact hd) e1
  rw [hdev] at load1 skip1
  have hdam1 : s1.damaged < 2 := by
    rw [hdam]
    split <;> decide
  cases ok1 : ok true with
  | true =>
    rw [ok1, if_pos rfl] at h1
    have hpass2 := load1 h1
    rw [scan_eq hpass1 hpass2 (fun _ => hdam1) (fun _ => hdam1)]
    refine ⟨rfl, ?_, hfirst, hsecond, ?_⟩
    · simp only [hpar, Chip.loaded, Chip.chosen, ok1]
      cases ok0 : ok false with
      | true =>
        rw [ok0, if_pos rfl] at h0
        have hmagic : (ParamFlash.ofBytes (c.part d.mem false)).magic ≠ 0#32 := by
          rw [h0.2.1]
          decide
        simp only [if_true, hmagic, false_or]
        by_cases hlt : (ParamFlash.ofBytes (c.part d.mem false)).modifyCount <
            (ParamFlash.ofBytes (c.part d.mem true)).modifyCount
        · rw [if_pos hlt, decide_eq_true hlt]
        · rw [if_neg hlt, decide_eq_false hlt]
      | false => simp [ParamFlash.zero]
    · simp only [Bool.true_eq_false, and_false, iff_false]
      omega
  | false =>
    rw [ok1, if_neg (by decide)] at h1
    have hpass2 := skip1 h1
    rw [scan_eq hpass1 hpass2 (fun _ => hdam1) (by simp)]
    refine ⟨rfl, ?_, ?_, by simp, ?_⟩
    · rw [hpar, Chip.loaded]
      simp [ok1]
    · simp [hfirst]
    · simp only [hdam]
      cases ok false <;> simp

end Param
end Air101
