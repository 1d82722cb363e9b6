import Air101.Fls.Driver

/-!
# Fls.Contract

What the driver calls do, in terms of `slice` and `overlay`.

* `flashRead_eq`: both read paths return the bytes of the range.
* `writeSectors_run`: the sector loop lays the buffer over the cells.
* `tlsFlsWrite_ok`: an accepted `tls_fls_write` is an overlay at the address' chip offset.
* `tls_fls_write_contract_iff`: it does so exactly up to the end of the 32 MB that the controller reaches.
* `writeSectors_touches`: it addresses only the sectors the range meets, so a write cut short
  anywhere leaves every other sector alone (`writeSectors_cut`).
-/

namespace Air101
namespace Fls

open Storage

/-- First cell of the sector of `x`. -/
def sectorOf (x : Nat) : Nat := x / 4096 * 4096

theorem chipAddr_of_lt {a : Nat} (h : a < 2 ^ 25) : chipAddr a = a := Nat.mod_eq_of_lt h

/-! ## Reads -/

theorem readByCMD_word (m : Nat → Byte) (addr sz : Nat) (h : sz % 4 = 0) :
    readByCMD m addr sz = slice m (chipAddr addr) sz := by
  simp [readByCMD, h]

theorem readPages_eq (m : Nat → Byte) (step : Nat) (hs : step % 4 = 0) (hp : 0 < step) :
    ∀ n addr, chipAddr addr + n * step ≤ 2 ^ 25 →
      readPages m step addr n = slice m (chipAddr addr) (n * step) := by
  intro n
  induction n with
  | zero => intro addr _; simp [readPages]
  | succ n ih =>
    intro addr h
    have hmul : (n + 1) * step = step + n * step := by rw [Nat.add_mul, Nat.one_mul, Nat.add_comm]
    rw [readPages, readByCMD_word m addr step hs, hmul, slice_append]
    congr 1
    cases n with
    | zero => simp [readPages]
    | succ k =>
      -- another page follows, so the next address is still on the bus
      have hk : (k + 1) * step = k * step + step := by rw [Nat.add_mul, Nat.one_mul]
      have hnext : chipAddr (addr + step) = chipAddr addr + step := by
        unfold chipAddr at h ⊢
        omega
      rw [ih (addr + step) (by rw [hnext]; omega), hnext]

/-- Both paths of `flashRead` return the bytes of the range. -/
theorem flashRead_eq (m : Nat → Byte) (aligned : Bool) (addr sz : Nat)
    (h : chipAddr addr + sz ≤ 2 ^ 25) :
    flashRead m aligned addr sz = slice m (chipAddr addr) sz := by
  unfold flashRead
  simp only []
  split
  · -- the aligned path: whole reads of one size, then the rest
    rename_i hc
    obtain ⟨_, _, h4⟩ := hc
    have fast : ∀ k, k % 4 = 0 → 0 < k → readPages m k addr (sz / k) ++
        (if sz % k = 0 then [] else readByCMD m (addr + sz / k * k) (sz % k)) =
          slice m (chipAddr addr) sz := by
      intro k hk4 hk
      have hdm : sz / k * k + sz % k = sz := by rw [Nat.mul_comm]; exact Nat.div_add_mod sz k
      rw [readPages_eq m k hk4 hk _ _ (by omega)]
      by_cases hr : sz % k = 0
      · rw [if_pos hr, List.append_nil]
        congr 1
        omega
      · have hr4 : sz % k % 4 = 0 := by
          have hd : 4 ∣ sz / k * k := Nat.dvd_mul_left_of_dvd (Nat.dvd_of_mod_eq_zero hk4) _
          omega
        have hnext : chipAddr (addr + sz / k * k) = chipAddr addr + sz / k * k := by
          unfold chipAddr at h ⊢
          omega
        rw [if_neg hr, readByCMD_word m _ _ hr4, hnext, ← slice_append, hdm]
    split
    · exact fast 1024 rfl (by omega)
    · exact fast 256 rfl (by omega)
  · -- the page-cached path: the rest of the first page, whole pages, the rest
    have hfirst : chipAddr (addr - addr % 256) = chipAddr addr - addr % 256 := by
      unfold chipAddr
      omega
    have hoff : addr % 256 ≤ chipAddr addr := by unfold chipAddr; omega
    rw [readByCMD_word m _ 256 rfl, hfirst]
    split
    · rename_i hlong
      generalize hr : sz - (256 - addr % 256) = rest at *
      have hsz : sz = (256 - addr % 256) + (rest / 256 * 256 + rest % 256) := by
        omega
      have hnext : rest ≠ 0 → chipAddr (addr - addr % 256 + 256) =
          chipAddr addr + (256 - addr % 256) := by
        unfold chipAddr at h ⊢
        omega
      rw [slice_slice m _ _ _ _ (by omega)]
      have hne : rest ≠ 0 := by omega
      rw [readPages_eq m 256 rfl (by omega) _ _ (by rw [hnext hne]; omega), hnext hne]
      have hstart : chipAddr addr - addr % 256 + addr % 256 = chipAddr addr := by omega
      rw [hstart]
      by_cases hrem : rest % 256 = 0
      · rw [if_pos hrem, List.append_nil, ← slice_append]
        congr 1
        omega
      · have hlast : chipAddr (addr - addr % 256 + 256 + rest / 256 * 256) =
            chipAddr addr + (256 - addr % 256) + rest / 256 * 256 := by
          unfold chipAddr at h ⊢
          omega
        rw [if_neg hrem, readByCMD_word m _ _ (by omega), hlast, slice_take m _ _ _ (by omega),
          List.append_assoc, ← slice_append, ← slice_append, ← hsz]
    · rename_i hshort
      rw [slice_slice m _ _ _ _ (by omega)]
      congr 1
      omega

/-! ## The sector loop -/

theorem sector_le {secpos secoff len : Nat} (hl : 0 < len)
    (h : secpos * 4096 + secoff + len ≤ 2 ^ 25) : secpos * 4096 + 4096 ≤ 2 ^ 25 := by
  lia

theorem sectorOps_eq {secpos : Nat} {cache : List Byte} (h : secpos * 4096 + 4096 ≤ 2 ^ 25) :
    sectorOps secpos cache = rewrite (secpos * 4096) 256 16 cache := by
  have hpages : ((List.range 16).map fun i =>
      programPage (secpos * 4096 + i * 256) 256 (cache.drop (i * 256))) =
        programPages (secpos * 4096) 256 cache 16 := by
    apply List.map_congr_left
    intro i hi
    have hi' := List.mem_range.mp hi
    unfold programPage
    rw [chipAddr_of_lt (by omega), Nat.min_self]
  unfold sectorOps rewrite eraseSector
  rw [hpages, chipAddr_of_lt (by omega), Nat.mul_div_cancel _ (by omega)]

/-- A sector number counts modulo the 32 MB that the controller reaches. -/
theorem sectorOps_bus (sector : Nat) (cache : List Byte) :
    sectorOps sector cache = sectorOps (sector % 0x2000) cache := by
  have hbus : ∀ k, k < 4096 →
      chipAddr (sector * 4096 + k) = chipAddr (sector % 0x2000 * 4096 + k) := by
    intro k hk
    unfold chipAddr
    lia
  have herase : eraseSector (sector * 4096) = eraseSector (sector % 0x2000 * 4096) := by
    have h0 := hbus 0 (by omega)
    rw [Nat.add_zero, Nat.add_zero] at h0
    unfold eraseSector
    rw [h0]
  have hpages : ((List.range 16).map fun i =>
      programPage (sector * 4096 + i * 256) 256 (cache.drop (i * 256))) =
        (List.range 16).map fun i =>
          programPage (sector % 0x2000 * 4096 + i * 256) 256 (cache.drop (i * 256)) := by
    apply List.map_congr_left
    intro i hi
    have := List.mem_range.mp hi
    unfold programPage
    rw [hbus (i * 256) (by omega)]
  unfold sectorOps
  rw [herase, hpages]

/-- One pass lays its part of the buffer over the cells of the sector the controller reaches. -/
theorem sectorOps_run_bus (m : Nat → Byte) (secpos : Nat) {secoff : Nat} {bs : List Byte}
    (hb : secoff + bs.length ≤ 4096) :
    run m (sectorOps secpos (patch (flashRead m true (secpos * 4096) 4096) secoff bs)) =
      overlay m (secpos % 0x2000 * 4096 + secoff) bs := by
  have hlt : secpos % 0x2000 < 0x2000 := Nat.mod_lt _ (by omega)
  have hchip : chipAddr (secpos * 4096) = secpos % 0x2000 * 4096 := by
    unfold chipAddr
    lia
  rw [flashRead_eq m true _ _ (by rw [hchip]; lia), hchip]
  have hlen : (patch (slice m (secpos % 0x2000 * 4096) 4096) secoff bs).length = 4096 := by
    rw [patch_length (by rw [slice_length]; exact hb), slice_length]
  rw [sectorOps_bus, sectorOps_eq (by lia), run_rewrite hlen, overlay_patch m _ _ _ _ hb]

theorem sectorOps_run (m : Nat → Byte) {secpos secoff : Nat} {bs : List Byte}
    (h : secpos * 4096 + 4096 ≤ 2 ^ 25) (hb : secoff + bs.length ≤ 4096) :
    run m (sectorOps secpos (patch (flashRead m true (secpos * 4096) 4096) secoff bs)) =
      overlay m (secpos * 4096 + secoff) bs := by
  have hsec : secpos % 0x2000 = secpos := Nat.mod_eq_of_lt (by lia)
  rw [sectorOps_run_bus m secpos hb, hsec]

/-- The whole loop lays the buffer over the cells. The induction is on the fuel; a pass that does
not finish leaves the next sector's offset at 0. -/
theorem writeSectors_run : ∀ (fuel : Nat) (m : Nat → Byte) (secpos secoff : Nat) (buf : List Byte),
    buf.length ≤ fuel → buf ≠ [] → secoff < 4096 →
    secpos * 4096 + secoff + buf.length ≤ 2 ^ 25 →
    run m (writeSectors fuel m secpos secoff buf) = overlay m (secpos * 4096 + secoff) buf := by
  intro fuel
  induction fuel with
  | zero =>
    intro m secpos secoff buf hf hne _ _
    exact absurd (List.length_eq_zero_iff.mp (by omega)) hne
  | succ fuel ih =>
    intro m secpos secoff buf hf hne hoff hend
    have hpos : 0 < buf.length := List.length_pos_iff.mpr hne
    have hsec := sector_le hpos hend
    simp only [writeSectors]
    split
    · rename_i hlast
      rw [← hlast, List.take_length, sectorOps_run m hsec (by omega)]
    · rename_i hmore
      generalize hr : min buf.length (4096 - secoff) = r at *
      have htake : (buf.take r).length = r := by rw [List.length_take]; omega
      have hdrop : (buf.drop r).length = buf.length - r := List.length_drop
      rw [run_append, sectorOps_run m hsec (by omega)]
      have hnext : (secpos + 1) * 4096 = secpos * 4096 + 4096 := Nat.succ_mul _ _
      rw [ih _ (secpos + 1) 0 (buf.drop r) (by omega)
        (by intro h0; rw [h0] at hdrop; simp at hdrop; omega) (by omega) (by lia), hnext]
      have hend' : secpos * 4096 + 4096 + 0 = secpos * 4096 + secoff + r := by lia
      have hjoin := overlay_append m (secpos * 4096 + secoff) (buf.take r) (buf.drop r)
      rw [List.take_append_drop, htake] at hjoin
      rw [hend', hjoin]

theorem sectorOps_touches {secpos : Nat} {cache : List Byte} {o : Op} {x : Nat}
    (h : secpos * 4096 + 4096 ≤ 2 ^ 25) (ho : o ∈ sectorOps secpos cache)
    (hx : o.Touches x) : sectorOf x = secpos * 4096 := by
  unfold sectorOf
  rcases List.mem_cons.mp ho with rfl | ho
  · simp only [eraseSector, Op.Touches, chipAddr_of_lt (show secpos * 4096 < 2 ^ 25 by omega)] at hx
    omega
  · obtain ⟨i, hi, rfl⟩ := List.mem_map.mp ho
    have hi' := List.mem_range.mp hi
    simp only [programPage, Op.Touches, List.length_take, Nat.min_self] at hx
    rw [chipAddr_of_lt (by omega)] at hx
    omega

/-- The loop addresses only cells of sectors that the range meets. -/
theorem writeSectors_touches : ∀ (fuel : Nat) (m : Nat → Byte) (secpos secoff : Nat) (buf : List Byte),
    buf ≠ [] → secoff < 4096 → secpos * 4096 + secoff + buf.length ≤ 2 ^ 25 →
    ∀ o ∈ writeSectors fuel m secpos secoff buf, ∀ x, o.Touches x →
      secpos * 4096 ≤ x ∧ sectorOf x < secpos * 4096 + secoff + buf.length := by
  intro fuel
  induction fuel with
  | zero => intro m secpos secoff buf _ _ _ o ho; simp [writeSectors] at ho
  | succ fuel ih =>
    intro m secpos secoff buf hne hoff hend o ho x hx
    have hpos : 0 < buf.length := List.length_pos_iff.mpr hne
    have hsec := sector_le hpos hend
    have here : ∀ {cache : List Byte}, o ∈ sectorOps secpos cache →
        secpos * 4096 ≤ x ∧ sectorOf x < secpos * 4096 + secoff + buf.length := by
      intro cache hc
      have e := sectorOps_touches hsec hc hx
      unfold sectorOf at e ⊢
      omega
    simp only [writeSectors] at ho
    split at ho
    · exact here ho
    · rename_i hmore
      rcases List.mem_append.mp ho with ho | ho
      · exact here ho
      · generalize hr : min buf.length (4096 - secoff) = r at *
        have hdrop : (buf.drop r).length = buf.length - r := List.length_drop
        have hnext : (secpos + 1) * 4096 = secpos * 4096 + 4096 := Nat.succ_mul _ _
        have := ih _ (secpos + 1) 0 (buf.drop r)
          (by intro h0; rw [h0] at hdrop; simp at hdrop; omega) (by omega) (by lia) o ho x hx
        lia

theorem sectorOps_reached {secpos : Nat} {cache : List Byte} {o : Op} {x : Nat}
    (ho : o ∈ sectorOps secpos cache) (hx : o.Touches x) : x < 2 ^ 25 := by
  have hlt : secpos % 0x2000 < 0x2000 := Nat.mod_lt _ (by omega)
  rw [sectorOps_bus] at ho
  have hsec := sectorOps_touches (by lia) ho hx
  unfold sectorOf at hsec
  lia

/-- No command of the loop addresses a cell behind the first 32 MB. -/
theorem writeSectors_reached : ∀ (fuel : Nat) (m : Nat → Byte) (secpos secoff : Nat) (buf : List Byte),
    ∀ o ∈ writeSectors fuel m secpos secoff buf, ∀ x, o.Touches x → x < 2 ^ 25 := by
  intro fuel
  induction fuel with
  | zero => intro m secpos secoff buf o ho; simp [writeSectors] at ho
  | succ fuel ih =>
    intro m secpos secoff buf o ho x hx
    simp only [writeSectors] at ho
    split at ho
    · exact sectorOps_reached ho hx
    · rcases List.mem_append.mp ho with ho | ho
      · exact sectorOps_reached ho hx
      · exact ih _ _ _ _ o ho x hx

/-- A write cut short anywhere leaves the sectors outside its range alone. -/
theorem writeSectors_cut {fuel : Nat} {m : Nat → Byte} {secpos secoff : Nat} {buf : List Byte} {x : Nat}
    (hne : buf ≠ []) (hoff : secoff < 4096)
    (hend : secpos * 4096 + secoff + buf.length ≤ 2 ^ 25)
    (hx : x < secpos * 4096 ∨ secpos * 4096 + secoff + buf.length ≤ sectorOf x) (k : Nat) :
    run m ((writeSectors fuel m secpos secoff buf).take k) x = m x := by
  apply run_frame
  intro o ho ht
  have := writeSectors_touches fuel m secpos secoff buf hne hoff hend o (List.mem_of_mem_take ho) x ht
  omega

/-! ## Driver calls -/

theorem rangeCheck_ok {d : Dev} {density addr len : Nat} (hd : d.insideFls = some density)
    (ha : addr % 0x8000000 < density) (hl : 0 < len) : rangeCheck d addr len = .ok := by
  unfold rangeCheck
  rw [hd]
  exact if_neg (by omega)

/-- An accepted write returns OK and lays the buffer over the cells at the chip offset. The range
may leave the density; only the controller's 25 address bits bound it. -/
theorem tlsFlsWrite_ok {d : Dev} {density addr : Nat} {buf : List Byte}
    (hd : d.insideFls = some density) (ha : addr % 0x8000000 < density) (hb : buf ≠ [])
    (hend : addr % 0x8000000 + buf.length ≤ 2 ^ 25) :
    (tlsFlsWrite d addr buf).1 = .ok ∧
      (tlsFlsWrite d addr buf).2.mem = overlay d.mem (addr % 0x8000000) buf := by
  unfold tlsFlsWrite
  rw [rangeCheck_ok hd ha (List.length_pos_iff.mpr hb)]
  refine ⟨rfl, ?_⟩
  simp only [Dev.issue_mem, Ev.ops]
  have hsplit : addr % 0x8000000 / 4096 * 4096 + addr % 0x8000000 % 4096 =
      addr % 0x8000000 := by omega
  rw [writeSectors_run _ _ _ _ _ (Nat.le_refl _) hb (by omega) (by omega), hsplit]

theorem writeSectors_one {fuel : Nat} (m : Nat → Byte) {secpos secoff : Nat} {buf : List Byte}
    (hf : 0 < fuel) (h : secoff + buf.length ≤ 4096) :
    writeSectors fuel m secpos secoff buf =
      sectorOps secpos (patch (flashRead m true (secpos * 4096) 4096) secoff buf) := by
  obtain ⟨k, rfl⟩ : ∃ k, fuel = k + 1 := ⟨fuel - 1, by omega⟩
  have hmin : min buf.length (4096 - secoff) = buf.length := by omega
  simp only [writeSectors, hmin, if_true, List.take_length]

theorem writeSectors_ne_nil {fuel : Nat} {m : Nat → Byte} {secpos secoff : Nat} {buf : List Byte}
    (hf : 0 < fuel) : writeSectors fuel m secpos secoff buf ≠ [] := by
  obtain ⟨k, rfl⟩ : ∃ k, fuel = k + 1 := ⟨fuel - 1, by omega⟩
  simp only [writeSectors]
  split
  · exact List.cons_ne_nil _ _
  · exact List.append_ne_nil_of_left_ne_nil (List.cons_ne_nil _ _) _

theorem tlsFlsWrite_einval {d : Dev} {density addr : Nat} {buf : List Byte}
    (hd : d.insideFls = some density) (ha : density ≤ addr % 0x8000000) :
    tlsFlsWrite d addr buf = (.einval, d.issue (.write addr buf [])) := by
  unfold tlsFlsWrite rangeCheck
  rw [hd]
  simp [ha]

theorem tlsFlsWrite_issue (d : Dev) (addr : Nat) (buf : List Byte) :
    ∃ ops, (tlsFlsWrite d addr buf).2 = d.issue (.write addr buf ops) := by
  unfold tlsFlsWrite
  split
  · exact ⟨_, rfl⟩
  · exact ⟨_, rfl⟩

@[simp] theorem tlsFlsWrite_insideFls (d : Dev) (addr : Nat) (buf : List Byte) :
    (tlsFlsWrite d addr buf).2.insideFls = d.insideFls := by
  obtain ⟨ops, h⟩ := tlsFlsWrite_issue d addr buf
  rw [h, Dev.issue_insideFls]

theorem tlsFlsErase_issue (d : Dev) (sector : Nat) :
    ∃ ops, (tlsFlsErase d sector).2 = d.issue (.erase sector ops) := by
  unfold tlsFlsErase
  split
  · exact ⟨_, rfl⟩
  · split <;> exact ⟨_, rfl⟩

@[simp] theorem tlsFlsErase_insideFls (d : Dev) (sector : Nat) :
    (tlsFlsErase d sector).2.insideFls = d.insideFls := by
  obtain ⟨ops, h⟩ := tlsFlsErase_issue d sector
  rw [h, Dev.issue_insideFls]

theorem tlsFlsErase_ok {d : Dev} {density base : Nat} (hd : d.insideFls = some density)
    (hb : base + 4096 ≤ density) (hbus : base < 2 ^ 25) :
    (tlsFlsErase d ((0x8000000 + base) / 4096)).2 =
      d.issue (.erase ((0x8000000 + base) / 4096) [.erase (sectorOf base) 4096]) := by
  have hsec : chipAddr ((0x8000000 + base) / 4096 * 4096) / 4096 * 4096 = sectorOf base := by
    unfold chipAddr sectorOf
    lia
  unfold tlsFlsErase eraseSector
  rw [hd]
  simp only []
  rw [if_neg (by lia), hsec]

/-- Cells behind the first 32 MB keep their values. -/
theorem tlsFlsWrite_unreached (d : Dev) (addr : Nat) (buf : List Byte) {x : Nat} (hx : 2 ^ 25 ≤ x) :
    (tlsFlsWrite d addr buf).2.mem x = d.mem x := by
  unfold tlsFlsWrite
  split
  · rw [Dev.issue_mem]
    apply run_frame
    intro o ho ht
    exact absurd (writeSectors_reached _ _ _ _ _ o ho x ht) (Nat.not_lt.mpr hx)
  · rfl

/-! ## The write contract -/

/-- A flash chip of whole sectors that `eraseSR`, `programSR` and `__readByCMD` reach all of: they put 25
address bits on the bus, which is 32 MB. -/
structure Chip where
  density : Nat
  aligned : density % 4096 = 0
  density_le : density ≤ 2 ^ 25

/-- A chip of 2 MB. -/
def chip2M : Chip := { density := 0x200000, aligned := by decide, density_le := by decide }

/-- The write returns OK, its range holds the buffer, and every other cell is as it was. -/
def Written (d : Dev) (addr : Nat) (buf : List Byte) : Prop :=
  (tlsFlsWrite d addr buf).1 = .ok ∧
    slice (tlsFlsWrite d addr buf).2.mem (addr % 0x8000000) buf.length = buf ∧
    ∀ x, x < addr % 0x8000000 ∨ addr % 0x8000000 + buf.length ≤ x →
      (tlsFlsWrite d addr buf).2.mem x = d.mem x

/-- A write inside a chip of any density keeps its contract, whatever the chip holds, exactly if its range
ends within the first 32 MB. -/
theorem tls_fls_write_contract_iff {density addr : Nat} {buf : List Byte} (hlen : 1 ≤ buf.length)
    (hin : addr % 0x8000000 + buf.length ≤ density) :
    (∀ d : Dev, d.insideFls = some density → Written d addr buf) ↔
      addr % 0x8000000 + buf.length ≤ 2 ^ 25 := by
  constructor
  · intro hall
    by_contra hend
    -- the last byte differs from what its cell holds, and the cell is not reached
    obtain ⟨last, hlast⟩ : ∃ last, buf[buf.length - 1]? = some last :=
      ⟨_, List.getElem?_eq_getElem (by omega)⟩
    obtain ⟨-, hslice, -⟩ := hall ⟨some density, fun _ => ~~~last, []⟩ rfl
    have hcell := tlsFlsWrite_unreached ⟨some density, fun _ => ~~~last, []⟩ addr buf
      (x := addr % 0x8000000 + (buf.length - 1)) (by omega)
    have hget := slice_getElem? (tlsFlsWrite ⟨some density, fun _ => ~~~last, []⟩ addr buf).2.mem
      (addr % 0x8000000) buf.length (buf.length - 1)
    rw [hslice, hlast, if_pos (by omega), hcell, Option.some.injEq] at hget
    have hne : ∀ b : Byte, b ≠ ~~~b := by decide
    exact hne last hget
  · intro hend d hd
    obtain ⟨hst, hmem⟩ := tlsFlsWrite_ok hd (by omega) (List.length_pos_iff.mp hlen) hend
    rw [Written, hmem]
    exact ⟨hst, slice_overlay _ _ _, fun x hx => overlay_out hx⟩

/-- The last byte of an erased chip of 2 MB. -/
theorem tls_fls_write_contract_last_byte :
    Written ⟨some 0x200000, fun _ => 0xFF#8, []⟩ 0x81FFFFF [0x5A#8] :=
  (@tls_fls_write_contract_iff 0x200000 0x81FFFFF [0x5A#8] (by decide) (by decide)).mpr (by decide) _ rfl

/-- On a chip of 64 MB the byte for the first cell of the second half goes to cell 0. -/
theorem tls_fls_write_second_half :
    ¬ ∀ (capacity : BitVec 8) (d : Dev) (addr : Nat) (buf : List Byte),
      d.insideFls = some (getFlashDensity capacity) → 1 ≤ buf.length →
      addr % 0x8000000 + buf.length ≤ getFlashDensity capacity → Written d addr buf := by
  intro hall
  obtain ⟨-, -, hrest⟩ := hall 0x1A#8 ⟨some 0x4000000, fun _ => 0xFF#8, []⟩ 0xA000000 [0x5A#8] (by decide)
    (by decide) (by decide)
  have hzero := hrest 0 (.inl (by decide))
  have hmem : (tlsFlsWrite ⟨some 0x4000000, fun _ => 0xFF#8, []⟩ 0xA000000 [0x5A#8]).2.mem =
      overlay (fun _ => 0xFF#8) 0 [0x5A#8] := by
    have hone := @writeSectors_one 1 (fun _ => 0xFF#8) 0x2000 0 [0x5A#8] (by decide) (by decide)
    have hrun := @sectorOps_run_bus (fun _ => 0xFF#8) 0x2000 0 [0x5A#8] (by decide)
    rw [← hone] at hrun
    exact hrun
  rw [hmem] at hzero
  exact absurd hzero (by decide)

/-! ## Sequences of driver calls -/

/-- The commands of a log of calls. -/
def commands (es : List Ev) : List Op := es.flatMap Ev.ops

theorem commands_append (es fs : List Ev) : commands (es ++ fs) = commands es ++ commands fs :=
  List.flatMap_append

/-- `d'` comes from `d` by driver calls: they are in the log, and the cells are what their commands
have made of the cells before. -/
def Dev.Reaches (d d' : Dev) : Prop :=
  ∃ es, d'.log = d.log ++ es ∧ d'.mem = run d.mem (commands es)

theorem Dev.Reaches.refl (d : Dev) : d.Reaches d := ⟨[], by simp, rfl⟩

theorem Dev.Reaches.trans {d d' d'' : Dev} (h : d.Reaches d') (h' : d'.Reaches d'') : d.Reaches d'' := by
  obtain ⟨es, hl, hm⟩ := h
  obtain ⟨fs, hl', hm'⟩ := h'
  refine ⟨es ++ fs, by rw [hl', hl, List.append_assoc], ?_⟩
  rw [hm', hm, commands_append, run_append]

theorem Dev.Reaches.log_grows {d d' : Dev} (h : d.Reaches d') : d.log <+: d'.log := by
  obtain ⟨es, hl, _⟩ := h
  exact ⟨es, hl.symm⟩

theorem tlsFlsWrite_reaches (d : Dev) (addr : Nat) (buf : List Byte) :
    d.Reaches (tlsFlsWrite d addr buf).2 := by
  obtain ⟨ops, h⟩ := tlsFlsWrite_issue d addr buf
  rw [h]
  exact ⟨[.write addr buf ops], rfl, by simp [commands, Ev.ops]⟩

theorem tlsFlsErase_reaches (d : Dev) (sector : Nat) : d.Reaches (tlsFlsErase d sector).2 := by
  obtain ⟨ops, h⟩ := tlsFlsErase_issue d sector
  rw [h]
  exact ⟨[.erase sector ops], rfl, by simp [commands, Ev.ops]⟩

/-- `d'` comes from `d` by driver calls, and the cells are a `G` between any two of their commands. -/
def Dev.Through (G : (Nat → Byte) → Prop) (d d' : Dev) : Prop :=
  ∃ es, d'.log = d.log ++ es ∧ d'.mem = run d.mem (commands es) ∧
    ∀ k, G (run d.mem ((commands es).take k))

section Through

variable {G : (Nat → Byte) → Prop} {d d' d'' : Dev}

theorem Dev.Through.refl (h : G d.mem) : d.Through G d :=
  ⟨[], by simp, rfl, fun k => by simpa [commands] using h⟩

theorem Dev.Through.trans (h : d.Through G d') (h' : d'.Through G d'') : d.Through G d'' := by
  obtain ⟨es, hl, hm, hg⟩ := h
  obtain ⟨fs, hl', hm', hg'⟩ := h'
  refine ⟨es ++ fs, by rw [hl', hl, List.append_assoc], ?_, ?_⟩
  · rw [hm', hm, commands_append, run_append]
  · intro k
    rw [commands_append]
    rcases run_take_append d.mem (commands es) (commands fs) k with ⟨_, e⟩ | ⟨_, e⟩
    · rw [e]
      exact hg k
    · rw [e, ← hm]
      exact hg' _

theorem Dev.Through.mono {H : (Nat → Byte) → Prop} (h : d.Through G d') (hgh : ∀ m, G m → H m) :
    d.Through H d' := by
  obtain ⟨es, hl, hm, hg⟩ := h
  exact ⟨es, hl, hm, fun k => hgh _ (hg k)⟩

theorem Dev.Through.issue (e : Ev) (h : ∀ k, G (run d.mem (e.ops.take k))) : d.Through G (d.issue e) := by
  refine ⟨[e], rfl, by simp [commands], ?_⟩
  simpa [commands] using h

end Through

end Fls
end Air101
