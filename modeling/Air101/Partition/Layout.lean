import Air101.Partition.Csv
import Mathlib.Data.List.Chain
import Mathlib.Data.List.Nodup
import Mathlib.Data.List.Sort
import Mathlib.Tactic.IntervalCases

/-!
# Partition.Layout

What the checks of `parse_csv` are for: a table that passes them leaves the device a sound flash.
Its partitions lie in the flash and apart from each other, and none but `sysparam` reaches into the
last 24 KB, where `tls_fls_sys_param_postion_init` (`wm_internal_fls.c`) places its sectors.

Addresses are integers from the start of the flash, which is mapped at `FLASH_BASE_ADDR`. A
partition covers the addresses from its offset up to offset plus size, added without wrapping or
rounding; with a size of zero or below it covers none.

* `sector_offset`: where the sectors lie.
* `Protects`: the layout.
* `ends_before`: from neighbours to all pairs of the sorted list.
* `protects_of_sumsHold`: sums that hold make the checks enough.
* `sumsHold_of_endsFit`: among integers they hold if no end reaches `2 ^ 63`.
* `parseCsv_protects_iff`: when a table that is returned protects the layout.
-/

namespace Air101
namespace Partition

open Storage

/-! ## The sectors of the firmware -/

/-- `FLASH_BASE_ADDR`. -/
def flashBaseAddr : UInt32 := 0x8000000

/-- The variables `TLS_FLASH_*`. -/
structure FlashMap where
  endAddr : UInt32
  otaFlagAddr : UInt32
  paramRestoreAddr : UInt32
  param2Addr : UInt32
  param1Addr : UInt32
  paramDefault : UInt32
  meshParamAddr : UInt32

/-- `tls_fls_sys_param_postion_init`; `density` is what `tls_fls_get_param` finds, `none` where it
fails. -/
def sysParamPostionInit (density : Option UInt32) (m : FlashMap) : FlashMap :=
  match density with
  | some density =>
    { endAddr := (flashBaseAddr ||| density) - 1
      otaFlagAddr := (flashBaseAddr ||| density) - 0x1000
      paramRestoreAddr := (flashBaseAddr ||| density) - 0x2000
      param2Addr := (flashBaseAddr ||| density) - 0x3000
      param1Addr := (flashBaseAddr ||| density) - 0x4000
      paramDefault := (flashBaseAddr ||| density) - 0x5000
      meshParamAddr := (flashBaseAddr ||| density) - 0x6000 }
  | none => m

/-- Where the sectors of the system parameters start. -/
def FlashMap.sectors (m : FlashMap) : List UInt32 :=
  [m.otaFlagAddr, m.paramRestoreAddr, m.param2Addr, m.param1Addr, m.paramDefault, m.meshParamAddr]

/-- Address `x` of the flash lies in the sector mapped at `a`. -/
def InSector (a : UInt32) (x : ℤ) : Prop :=
  a.toNat ≤ flashBaseAddr.toNat + x ∧ flashBaseAddr.toNat + x < a.toNat + 0x1000

theorem mem_sectors {density : UInt32} {m : FlashMap} {a : UInt32}
    (h : a ∈ (sysParamPostionInit (some density) m).sectors) :
    ∃ n : ℕ, 1 ≤ n ∧ n ≤ 6 ∧ a = (flashBaseAddr ||| density) - UInt32.ofNat (n * 0x1000) := by
  simp only [sysParamPostionInit, FlashMap.sectors, List.mem_cons, List.not_mem_nil, or_false] at h
  obtain rfl | rfl | rfl | rfl | rfl | rfl := h
  · exact ⟨1, by decide, by decide, rfl⟩
  · exact ⟨2, by decide, by decide, rfl⟩
  · exact ⟨3, by decide, by decide, rfl⟩
  · exact ⟨4, by decide, by decide, rfl⟩
  · exact ⟨5, by decide, by decide, rfl⟩
  · exact ⟨6, by decide, by decide, rfl⟩

/-- `FLASH_BASE_ADDR|density` is the end of the flash, unless the density is the bit of the base
address itself. -/
theorem flashBase_or {density : UInt32} {k : ℕ} (hk : 20 ≤ k) (hd : density.toNat = 2 ^ k) :
    (flashBaseAddr ||| density).toNat =
      if k = 27 then flashBaseAddr.toNat else flashBaseAddr.toNat + density.toNat := by
  have hlt : 2 ^ k < 2 ^ 32 := hd ▸ density.toNat_lt
  have hk' : k < 32 := (Nat.pow_lt_pow_iff_right (by decide)).mp hlt
  rw [UInt32.toNat_or, hd]
  interval_cases k <;> decide

theorem mem_sectors_toNat {density : UInt32} {k : ℕ} {m : FlashMap} {a : UInt32} (hk : 20 ≤ k)
    (hd : density.toNat = 2 ^ k) (h : a ∈ (sysParamPostionInit (some density) m).sectors) :
    ∃ n : ℕ, 1 ≤ n ∧ n ≤ 6 ∧
      a.toNat = (flashBaseAddr ||| density).toNat - n * 0x1000 := by
  obtain ⟨n, h1, h6, rfl⟩ := mem_sectors h
  have hn : (UInt32.ofNat (n * 0x1000)).toNat = n * 0x1000 :=
    UInt32.toNat_ofNat_of_lt' (by simp only [UInt32.size]; omega)
  have hbase : flashBaseAddr.toNat = 0x8000000 := rfl
  have hle : UInt32.ofNat (n * 0x1000) ≤ flashBaseAddr ||| density := by
    rw [UInt32.le_iff_toNat_le, hn, flashBase_or hk hd]
    split <;> omega
  exact ⟨n, h1, h6, by rw [UInt32.toNat_sub_of_le _ _ hle, hn]⟩

/-- Every density from 1 MB on but 128 MB has its sectors in its last 24 KB. -/
theorem sector_offset {density : UInt32} {k : ℕ} {m : FlashMap} {a : UInt32} {x : ℤ}
    (hk : 20 ≤ k) (h27 : k ≠ 27) (hd : density.toNat = 2 ^ k)
    (ha : a ∈ (sysParamPostionInit (some density) m).sectors) (hx : InSector a x) :
    (density.toNat : ℤ) - 24576 ≤ x ∧ x < density.toNat := by
  obtain ⟨n, h1, h6, hn⟩ := mem_sectors_toNat hk hd ha
  rw [flashBase_or hk hd, if_neg h27] at hn
  have h20 : 2 ^ 20 ≤ 2 ^ k := Nat.pow_le_pow_right (by decide) hk
  obtain ⟨hlo, hhi⟩ := hx
  omega

/-- The driver's calls take an address modulo `FLASH_BASE_ADDR` (`INSIDE_FLS_BASE_ADDR - 1` as a
mask), and so find the sectors in the tail up to 128 MB. -/
theorem sector_masked {density : UInt32} {k : ℕ} {m : FlashMap} {a : UInt32} (hk : 20 ≤ k)
    (hk27 : k ≤ 27) (hd : density.toNat = 2 ^ k)
    (ha : a ∈ (sysParamPostionInit (some density) m).sectors) :
    density.toNat - 24576 ≤ a.toNat % 0x8000000 ∧ a.toNat % 0x8000000 < density.toNat := by
  obtain ⟨n, h1, h6, hn⟩ := mem_sectors_toNat hk hd ha
  have hbase : flashBaseAddr.toNat = 0x8000000 := rfl
  rw [flashBase_or hk hd] at hn
  have h20 : 2 ^ 20 ≤ 2 ^ k := Nat.pow_le_pow_right (by decide) hk
  have h27 : 2 ^ k ≤ 2 ^ 27 := Nat.pow_le_pow_right (by decide) hk27
  by_cases hk' : k = 27
  · subst hk'
    rw [if_pos rfl] at hn
    omega
  · have h26 : 2 ^ k ≤ 2 ^ 26 := Nat.pow_le_pow_right (by decide) (by omega)
    rw [if_neg hk'] at hn
    omega

/-- With a density of 128 MB they lie below the address the flash is mapped at. -/
theorem sector_below_base {m : FlashMap} :
    InSector (sysParamPostionInit (some 0x8000000) m).otaFlagAddr (-0x1000) := by
  change InSector 0x7FFF000 (-0x1000)
  constructor <;> decide

/-! ## Tables -/

/-- Address `x` belongs to the partition. -/
def Part.Covers (p : Part) (x : ℤ) : Prop :=
  p.offset.exact.le (.fin x) ∧ (ExtRat.fin x).lt (p.offset.exact.sum p.size.exact)

/-- `[0, flash_size)`. -/
def InFlash (flashSize : LuaNumber) (x : ℤ) : Prop := 0 ≤ x ∧ (ExtRat.fin x).lt flashSize.exact

/-- The last 24 KB. -/
def InTail (flashSize : LuaNumber) (x : ℤ) : Prop :=
  (flashSize.exact.sum (.fin (-24576))).le (.fin x) ∧ (ExtRat.fin x).lt flashSize.exact

/-- The layout the table is to give the device. -/
structure Protects (flashSize : LuaNumber) (l : List Part) : Prop where
  inside : ∀ p ∈ l, ∀ x, p.Covers x → InFlash flashSize x
  disjoint : l.Pairwise fun p q => ∀ x, p.Covers x → ¬ q.Covers x
  tail : ∀ p ∈ l, p.name ≠ "sysparam".toList → ∀ x, InTail flashSize x → ¬ p.Covers x
  sectors : ∀ (density : UInt32) (k : ℕ), 20 ≤ k → density.toNat = 2 ^ k →
    flashSize.exact = .fin density.toNat → ∀ (m : FlashMap),
    ∀ a ∈ (sysParamPostionInit (some density) m).sectors, ∀ x, InSector a x →
      InTail flashSize x ∧ ∀ p ∈ l, p.name ≠ "sysparam".toList → ¬ p.Covers x

/-- `table.sort` on these rows: they stand in the order of their offsets. -/
structure Sorts (sort : List Part → List Part) (rows : List Part) : Prop where
  perm : (sort rows).Perm rows
  sorted : (sort rows).Pairwise fun p q => q.offset.lt p.offset = false

/-- No end comes out below the true one, and the reserved places not above theirs. -/
structure SumsHold (flashSize : LuaNumber) (rows : List Part) : Prop where
  ends : ∀ p ∈ rows, (p.offset.exact.sum p.size.exact).le p.end.exact
  sysparam : (sysparamOffset flashSize).exact.le (flashSize.exact.sum (.fin (-8192)))
  reserved : (reservedStart flashSize).exact.le (flashSize.exact.sum (.fin (-24576)))

/-- Neighbours that follow each other in order put every entry before all later ones. -/
theorem pairwise_of_neighbours {α β : Type} (le : β → β → Prop) (lo hi : α → β)
    (trans : ∀ a b c, le a b → le b c → le a c) {l : List α}
    (hchain : l.IsChain fun p q => le (hi p) (lo q))
    (hsorted : l.Pairwise fun p q => le (lo p) (lo q)) :
    l.Pairwise fun p q => le (hi p) (lo q) := by
  induction l with
  | nil => exact .nil
  | cons p l ih =>
    cases l with
    | nil => exact .cons (by simp) .nil
    | cons q l =>
      obtain ⟨hpq, hchain⟩ := List.isChain_cons_cons.mp hchain
      obtain ⟨-, hsorted⟩ := List.pairwise_cons.mp hsorted
      refine .cons (fun r hr => ?_) (ih hchain hsorted)
      cases hr with
      | head => exact hpq
      | tail _ hr => exact trans _ _ _ hpq ((List.pairwise_cons.mp hsorted).1 r hr)

section
variable {sort : List Part → List Part} {rows : List Part} {t : Table}

/-- Every listed partition ends where or before each later one starts. -/
theorem ends_before (hc : Checked sort rows t) (hs : Sorts sort rows)
    (hoff : ∀ p ∈ rows, (ExtRat.fin 0).le p.offset.exact) (hsum : SumsHold t.flashSize rows) :
    t.partitionList.Pairwise fun p q => p.end.exact.le q.offset.exact := by
  have hmem : ∀ {p}, p ∈ t.partitionList → p ∈ rows := fun hp => hs.perm.mem_iff.mp (hc.list ▸ hp)
  have hoffset : ∀ {p}, p ∈ t.partitionList → p.offset.exact ≠ .nan := fun hp =>
    ExtRat.ne_nan_of_le_right (hoff _ (hmem hp))
  have hend : ∀ {p}, p ∈ t.partitionList → p.end.exact ≠ .nan := fun hp =>
    ExtRat.ne_nan_of_le_right (hsum.ends _ (hmem hp))
  refine pairwise_of_neighbours (fun a b => ExtRat.le a b) (fun p : Part => p.offset.exact)
    (fun p => p.end.exact) (fun _ _ _ => ExtRat.le_trans) ?_ ?_
  · exact hc.overlap.imp_of_mem_imp fun p q hp hq h =>
      ExtRat.le_of_not_lt (hend hp) (hoffset hq) h
  · have hsorted := hs.sorted
    rw [← hc.list] at hsorted
    exact hsorted.imp_of_mem fun hp hq h => ExtRat.le_of_not_lt (hoffset hp) (hoffset hq) h

theorem covers_lt_end {p : Part} {x : ℤ} (hsum : SumsHold t.flashSize rows) (hp : p ∈ rows)
    (hx : p.Covers x) : (ExtRat.fin x).lt p.end.exact :=
  ExtRat.lt_of_lt_of_le hx.2 (hsum.ends p hp)

theorem covers_lt_reserved (hc : Checked sort rows t) (hsum : SumsHold t.flashSize rows) {p : Part}
    {x : ℤ} (hp : p ∈ t.partitionList) (hrow : p ∈ rows) (hname : p.name ≠ "sysparam".toList)
    (hx : p.Covers x) : (ExtRat.fin x).lt (t.flashSize.exact.sum (.fin (-24576))) := by
  have hend : p.end.exact.le (reservedStart t.flashSize).exact :=
    ExtRat.le_of_not_lt (ExtRat.ne_nan_of_le_right (hsum.ends p hrow))
      (ExtRat.ne_nan_of_le_left hsum.reserved) (hc.tail p hp hname)
  exact ExtRat.lt_of_lt_of_le (covers_lt_end hsum hrow hx) (ExtRat.le_trans hend hsum.reserved)

theorem sum_le_of_le {a b : ExtRat} {c : ℚ} (h : a.le (b.sum (.fin (-c)))) :
    (a.sum (.fin c)).le b := by
  cases a <;> cases b <;> simp [ExtRat.le, ExtRat.sum] at h ⊢
  linarith

theorem lt_of_lt_sum {a b : ExtRat} {c : ℚ} (hc : 0 ≤ c) (h : a.lt (b.sum (.fin (-c)))) :
    a.lt b := by
  cases a <;> cases b <;> simp [ExtRat.lt, ExtRat.sum] at h ⊢
  linarith

theorem eq_of_name {p q : Part} (hnames : (rows.map (·.name)).Nodup) (hp : p ∈ rows)
    (hq : q ∈ rows) (h : p.name = q.name) : p = q :=
  List.inj_on_of_nodup_map hnames hp hq h

theorem sysparam_lt_flash (hc : Checked sort rows t) (hnames : (rows.map (·.name)).Nodup)
    (hsum : SumsHold t.flashSize rows) {p : Part} {x : ℤ} (hp : p ∈ rows)
    (hname : p.name = "sysparam".toList) (hx : p.Covers x) :
    (ExtRat.fin x).lt t.flashSize.exact := by
  obtain ⟨s, hs, hsname, hoffset, hsize⟩ := hc.sysparam
  obtain rfl := eq_of_name hnames hp hs (hname.trans hsname.symm)
  have hplace : p.offset.exact = (sysparamOffset t.flashSize).exact := ExtRat.eq_of_eq hoffset
  have hlen : p.size.exact = .fin 8192 := ExtRat.eq_of_eq hsize
  refine ExtRat.lt_of_lt_of_le hx.2 ?_
  rw [hlen, hplace]
  exact sum_le_of_le hsum.sysparam

/-- Apart from `sysparam`, no partition reaches into the last 24 KB. -/
theorem tail_free (hc : Checked sort rows t) (hsum : SumsHold t.flashSize rows) {p : Part} {x : ℤ}
    (hp : p ∈ t.partitionList) (hrow : p ∈ rows) (hname : p.name ≠ "sysparam".toList)
    (hx : InTail t.flashSize x) : ¬ p.Covers x := by
  intro hcov
  have hlt := covers_lt_reserved hc hsum hp hrow hname hcov
  rw [ExtRat.not_lt_of_le hx.1] at hlt
  cases hlt

theorem sector_inTail {flashSize : LuaNumber} {density : UInt32} {k : ℕ} {m : FlashMap} {a : UInt32}
    {x : ℤ} (h27 : flashSize.exact ≠ .fin (2 ^ 27)) (hk : 20 ≤ k) (hd : density.toNat = 2 ^ k)
    (hflash : flashSize.exact = .fin density.toNat)
    (ha : a ∈ (sysParamPostionInit (some density) m).sectors) (hx : InSector a x) :
    InTail flashSize x := by
  have hk27 : k ≠ 27 := by
    rintro rfl
    exact h27 (by rw [hflash, hd]; norm_num)
  obtain ⟨hlo, hhi⟩ := sector_offset hk hk27 hd ha hx
  have hlo : (density.toNat : ℚ) - 24576 ≤ x := by exact_mod_cast hlo
  have hhi : (x : ℚ) < density.toNat := by exact_mod_cast hhi
  rw [InTail, hflash]
  constructor
  · simpa using by linarith
  · simpa using hhi

/-- Sums that hold make the checks of neighbours and of the last entries enough for all. -/
theorem protects_of_sumsHold (hc : Checked sort rows t) (hs : Sorts sort rows)
    (hnames : (rows.map (·.name)).Nodup) (hoff : ∀ p ∈ rows, (ExtRat.fin 0).le p.offset.exact)
    (hsum : SumsHold t.flashSize rows) (h27 : t.flashSize.exact ≠ .fin (2 ^ 27)) :
    Protects t.flashSize t.partitionList := by
  have hmem : ∀ {p}, p ∈ t.partitionList → p ∈ rows := fun hp => hs.perm.mem_iff.mp (hc.list ▸ hp)
  refine ⟨fun p hp x hcov => ⟨?_, ?_⟩, ?_,
    fun p hp hname x hx => tail_free hc hsum hp (hmem hp) hname hx, ?_⟩
  · have h0 := ExtRat.le_trans (hoff p (hmem hp)) hcov.1
    exact_mod_cast (by simpa using h0 : (0 : ℚ) ≤ x)
  · by_cases hname : p.name = "sysparam".toList
    · exact sysparam_lt_flash hc hnames hsum (hmem hp) hname hcov
    · exact lt_of_lt_sum (by norm_num) (covers_lt_reserved hc hsum hp (hmem hp) hname hcov)
  · refine (ends_before hc hs hoff hsum).imp_of_mem fun hp _ h x hcov hcov' => ?_
    have hlt := ExtRat.lt_of_lt_of_le (covers_lt_end hsum (hmem hp) hcov) (ExtRat.le_trans h hcov'.1)
    simp at hlt
  · intro density k hk hd hflash m a ha x hx
    have hin := sector_inTail h27 hk hd hflash ha hx
    exact ⟨hin, fun p hp hname => tail_free hc hsum hp (hmem hp) hname hin⟩

/-! ## Files of integers -/

/-- Offsets, sizes and `flash_size` are Lua integers, as in a file without fractions, exponents
and numbers of twenty digits. -/
structure Integers (flashSize : LuaNumber) (rows : List Part) : Prop where
  flash : ∃ f, flashSize = .int f
  rows : ∀ p ∈ rows, ∃ o s, p.offset = .int o ∧ p.size = .int s

/-- Offset plus size of every row is below `2 ^ 63`. -/
def EndsFit (rows : List Part) : Prop :=
  ∀ p ∈ rows, (p.offset.exact.sum p.size.exact).lt (.fin (2 ^ 63))

theorem toInt_add_of_lt {a b : Int64} (h0 : 0 ≤ a.toInt) (h : a.toInt + b.toInt < 2 ^ 63) :
    (a + b).toInt = a.toInt + b.toInt := by
  have hb := b.le_toInt
  rw [Int64.toInt_add, Int.bmod_def]
  split <;> omega

theorem toInt_sub_of_fits {f : Int64} (h0 : 0 ≤ (f - 8192).toInt)
    (h : (f - 8192).toInt + 8192 < 2 ^ 63) :
    (f - 8192).toInt = f.toInt - 8192 ∧ (f - 24576).toInt = f.toInt - 24576 := by
  have hlo := f.le_toInt
  have hhi := f.toInt_lt
  have h8 : (8192 : Int64).toInt = 8192 := rfl
  have h24 : (24576 : Int64).toInt = 24576 := rfl
  rw [Int64.toInt_sub, h8, Int.bmod_def] at h0 h ⊢
  rw [Int64.toInt_sub, h24, Int.bmod_def]
  constructor <;> split_ifs at * <;> omega

theorem places_of_endsFit (hc : Checked sort rows t)
    (hoff : ∀ p ∈ rows, (ExtRat.fin 0).le p.offset.exact) (hfit : EndsFit rows) {f : Int64}
    (hf : t.flashSize = .int f) :
    (f - 8192).toInt = f.toInt - 8192 ∧ (f - 24576).toInt = f.toInt - 24576 := by
  obtain ⟨p, hp, -, hoffset, hsize⟩ := hc.sysparam
  have hplace : p.offset.exact = .fin (f - 8192).toInt := by
    rw [ExtRat.eq_of_eq hoffset, hf]
    rfl
  have hlen : p.size.exact = .fin 8192 := ExtRat.eq_of_eq hsize
  have h0 := hoff p hp
  have hend := hfit p hp
  rw [hplace] at h0 hend
  rw [hlen] at hend
  simp only [ExtRat.le_fin, ExtRat.lt_fin, ExtRat.sum_fin, decide_eq_true_eq] at h0 hend
  exact toInt_sub_of_fits (by exact_mod_cast h0) (by exact_mod_cast hend)

theorem end_of_fits {p : Part} {o s : Int64} (ho : p.offset = .int o) (hs : p.size = .int s)
    (h0 : (ExtRat.fin 0).le p.offset.exact)
    (hfit : (p.offset.exact.sum p.size.exact).lt (.fin (2 ^ 63))) :
    p.end.exact = p.offset.exact.sum p.size.exact := by
  rw [ho] at h0
  rw [ho, hs] at hfit
  simp only [LuaNumber.exact_int, ExtRat.le_fin, ExtRat.lt_fin, ExtRat.sum_fin,
    decide_eq_true_eq] at h0 hfit
  have hsum : (o + s).toInt = o.toInt + s.toInt :=
    toInt_add_of_lt (by exact_mod_cast h0) (by exact_mod_cast hfit)
  simp [Part.end, ho, hs, hsum]

/-- Among integers, sums that stay below `2 ^ 63` hold. -/
theorem sumsHold_of_endsFit (hc : Checked sort rows t)
    (hoff : ∀ p ∈ rows, (ExtRat.fin 0).le p.offset.exact) (hint : Integers t.flashSize rows)
    (hfit : EndsFit rows) : SumsHold t.flashSize rows := by
  obtain ⟨f, hf⟩ := hint.flash
  obtain ⟨h8, h24⟩ := places_of_endsFit hc hoff hfit hf
  refine ⟨fun p hp => ?_, ?_, ?_⟩
  · obtain ⟨o, s, ho, hs⟩ := hint.rows p hp
    rw [end_of_fits ho hs (hoff p hp) (hfit p hp)]
    simp [ho, hs]
  · simp [sysparamOffset, sysparamSize, hf, h8, sub_eq_add_neg]
  · simp [reservedStart, reservedTailSize, hf, h24, sub_eq_add_neg]

/-- An end from `2 ^ 63` on is an address no Lua integer bounds. -/
theorem endsFit_of_inside {l : List Part} (hint : Integers t.flashSize rows)
    (hmem : ∀ p ∈ rows, p ∈ l) (h : ∀ p ∈ l, ∀ x, p.Covers x → InFlash t.flashSize x) :
    EndsFit rows := by
  intro p hp
  obtain ⟨f, hf⟩ := hint.flash
  obtain ⟨o, s, ho, hs⟩ := hint.rows p hp
  by_contra hover
  have hover : (2 : ℚ) ^ 63 ≤ o.toInt + s.toInt := by simpa [ho, hs] using hover
  have ho63 : (o.toInt : ℚ) ≤ (2 ^ 63 - 1 : ℤ) := by exact_mod_cast Int.le_sub_one_of_lt o.toInt_lt
  have hcov : p.Covers (2 ^ 63 - 1) := by
    refine ⟨by simpa [ho] using ho63, ?_⟩
    simp only [ho, hs, LuaNumber.exact_int, ExtRat.sum_fin, ExtRat.lt_fin, decide_eq_true_eq]
    push_cast
    linarith
  have hlt := (h p (hmem p hp) _ hcov).2
  simp only [hf, LuaNumber.exact_int, ExtRat.lt_fin, decide_eq_true_eq, Int.cast_lt] at hlt
  have := f.toInt_lt
  omega

/-- At 128 MB the addresses of the sectors name no place of the flash. -/
theorem not_protects_of_base {flashSize : LuaNumber} {l : List Part}
    (h27 : flashSize.exact = .fin (2 ^ 27)) : ¬ Protects flashSize l := by
  intro h
  have hdensity : (0x8000000 : UInt32).toNat = 2 ^ 27 := rfl
  have hin := (h.sectors 0x8000000 27 (by decide) hdensity (by rw [h27, hdensity]; norm_num)
    ⟨0, 0, 0, 0, 0, 0, 0⟩ _ (List.mem_cons_self ..) (-0x1000) sector_below_base).1.1
  rw [h27] at hin
  norm_num at hin

/-! ## Tables that `parse_csv` returns -/

/-- A stable `table.sort`. -/
def insertSort (l : List Part) : List Part :=
  l.insertionSort fun p q => q.offset.lt p.offset = false

def sysparamRow : Part := ⟨"sysparam".toList, ['s'], .int 0xFE000, .int 0x2000⟩

def smallFile : List Char :=
  "#flash_base=0\n#flash_size=1M\n#ram_end=0\nsysparam,s,0xFE000,8K\nfs,d,0,4K".toList

def fsRow : Part := ⟨['f', 's'], ['d'], .int 0, .int 0x1000⟩

def wrappingFile : List Char :=
  "#flash_base=0\n#flash_size=1M\n#ram_end=0\nsysparam,s,0xFE000,8K\nx,d,0x7FFFFFFFFFFFF000,4K".toList

def wrappingRow : Part := ⟨['x'], ['d'], .int 0x7FFFFFFFFFFFF000, .int 0x1000⟩

/-- A table that `parse_csv` returns protects the layout if the sums over its rows hold and the
flash does not have 128 MB; among integers these are the tables that do. -/
theorem parseCsv_protects_iff (sort : List Part → List Part) (data : List Char) (m : Meta)
    (rows : List Part) (t : Table) (hread : readRows data = .ok (m, rows))
    (hnames : (rows.map (·.name)).Nodup) (hoff : ∀ p ∈ rows, (ExtRat.fin 0).le p.offset.exact)
    (hsort : Sorts sort rows) (hok : parseCsv sort (some data) = .ok t) :
    (SumsHold t.flashSize rows → t.flashSize.exact ≠ .fin (2 ^ 27) →
      Protects t.flashSize t.partitionList) ∧
    (Integers t.flashSize rows →
      (Protects t.flashSize t.partitionList ↔
        EndsFit rows ∧ t.flashSize.exact ≠ .fin (2 ^ 27))) := by
  have hc := parseCsv_checked hread hok
  refine ⟨protects_of_sumsHold hc hsort hnames hoff, fun hint => ⟨fun h => ⟨?_, ?_⟩, ?_⟩⟩
  · have hmem : ∀ p ∈ rows, p ∈ t.partitionList := fun p hp =>
      hc.list ▸ hsort.perm.mem_iff.mpr hp
    exact endsFit_of_inside hint hmem h.inside
  · exact fun h27 => not_protects_of_base h27 h
  · rintro ⟨hfit, h27⟩
    exact protects_of_sumsHold hc hsort hnames hoff (sumsHold_of_endsFit hc hoff hint hfit) h27

theorem parseCsv_protects_iff_small : ∃ t, parseCsv insertSort (some smallFile) = .ok t ∧
    Protects t.flashSize t.partitionList := by
  obtain ⟨t, hok, hflash, -⟩ := parseCsv_of_map insertSort (some smallFile)
    (.int 0x100000) [fsRow, sysparamRow] (by decide +kernel)
  have h := parseCsv_protects_iff insertSort smallFile
    ⟨some (.int 0), some (.int 0x100000), some (.int 0)⟩ [sysparamRow, fsRow] t (by decide +kernel)
    (by decide +kernel) (by decide +kernel) ⟨by decide +kernel, by decide +kernel⟩ hok
  refine ⟨t, hok, (h.2 ⟨⟨_, hflash⟩, ?_⟩).mpr ⟨by unfold EndsFit; decide +kernel, ?_⟩⟩
  · intro p hp
    simp only [List.mem_cons, List.not_mem_nil, or_false] at hp
    obtain rfl | rfl := hp <;> exact ⟨_, _, rfl, rfl⟩
  · rw [hflash]
    decide +kernel

/-- The end of the last row wraps to `-2 ^ 63`, which no check finds too large. -/
theorem wrapping_row : ∃ m rows t, readRows wrappingFile = .ok (m, rows) ∧
    (rows.map (·.name)).Nodup ∧ (∀ p ∈ rows, (ExtRat.fin 0).le p.offset.exact) ∧
    Sorts insertSort rows ∧ parseCsv insertSort (some wrappingFile) = .ok t ∧
    ¬ Protects t.flashSize t.partitionList := by
  obtain ⟨t, hok, hflash, hlist⟩ := parseCsv_of_map insertSort (some wrappingFile)
    (.int 0x100000) [sysparamRow, wrappingRow] (by decide +kernel)
  refine ⟨⟨some (.int 0), some (.int 0x100000), some (.int 0)⟩, [sysparamRow, wrappingRow], t,
    by decide +kernel, by decide +kernel, by decide +kernel, ⟨by decide +kernel, by decide +kernel⟩,
    hok, fun h => ?_⟩
  have hcov : wrappingRow.Covers 0x7FFFFFFFFFFFF000 := ⟨by decide +kernel, by decide +kernel⟩
  have hin := (h.inside wrappingRow (by rw [hlist]; simp) _ hcov).2
  rw [hflash] at hin
  revert hin
  decide +kernel

end

end Partition
end Air101
