import Air101.Efuse.Store

/-!
# Efuse.Steps

What the calls of the factory parameter store do to the two copies.

* `ftParamInit_eq`: `_ft_param_init` checks the record in a copy.
* `write_copy`: a write to a copy is one rewrite of its sector. The record lies in the first page, so
  it is never half written.
* `Through G d d'`: every state of the flash on the way from `d` to `d'` is a `G`.
* `repair_fst`: when the repair in front of an update succeeds.
* `save_ok`: the writes at its end, command by command.
-/

namespace Air101
namespace Efuse

open Storage
open Crypto
open Fls

variable {hw : Engine} {d : Dev}

/-! ## The copies -/

/-- The chip offset of a copy. -/
def Copy.base : Copy → Nat
  | .magicnum => 0
  | .runtime => 0x1000

def Copy.other : Copy → Copy
  | .magicnum => .runtime
  | .runtime => .magicnum

/-- The record in a copy. -/
def stored (m : Nat → Byte) (c : Copy) : FtParam := .ofBytes (slice m c.base 228)

/-- The driver is installed, and the chip has the two sectors. -/
def Installed (d : Dev) : Prop := ∃ density, d.insideFls = some density ∧ 0x2000 ≤ density

theorem stored_eq_of_slice {m : Nat → Byte} {c : Copy} {p : FtParam}
    (h : slice m c.base 228 = p.bytes) : stored m c = p := by
  rw [stored, h, FtParam.ofBytes_bytes]

theorem ftParamInit_eq (hd : Installed d) (c : Copy) (pft : FtParam) :
    ftParamInit hw d c.addr pft = (stored d.mem c).check hw := by
  obtain ⟨density, hfls, hsize⟩ := hd
  have hmod : c.addr % 0x8000000 = c.base := by cases c <;> rfl
  have hchip : chipAddr c.addr = c.base := by cases c <;> rfl
  have hbase : c.base ≤ 0x1000 := by cases c <;> decide
  have hread : tlsFlsRead d true c.addr 228 = (.ok, slice d.mem c.base 228) := by
    unfold tlsFlsRead
    rw [rangeCheck_ok hfls (by omega) (by omega), flashRead_eq _ _ _ _ (by omega), hchip]
  unfold ftParamInit
  rw [hread]
  rfl

theorem verify_iff {s : State} (hd : Installed s.dev) (c : Copy) : verify hw s c = true ↔
    ((stored s.dev.mem c).check hw).1 ≠ 0 ∧ ((stored s.dev.mem c).check hw).2 = s.gftParam := by
  unfold verify
  rw [ftParamInit_eq hd]
  simp

/-- The commands `ops` rewrite the copy `c` with the record `p`. -/
structure Rewrites (c : Copy) (p : FtParam) (m : Nat → Byte) (ops : List Op) : Prop where
  other : ∀ k, stored (run m (ops.take k)) c.other = stored m c.other
  steps : ∀ k, (k = 0 ∧ stored (run m (ops.take k)) c = stored m c) ∨
    (k = 1 ∧ stored (run m (ops.take k)) c = .erased) ∨ (2 ≤ k ∧ stored (run m (ops.take k)) c = p)
  two : 2 ≤ ops.length

theorem sectorOps_rewrites (m : Nat → Byte) (c : Copy) (p : FtParam) :
    Rewrites c p m (sectorOps (c.base / 4096)
      (patch (flashRead m true (c.base / 4096 * 4096) 4096) 0 p.bytes)) := by
  have hl := p.length_eq
  have hsec : c.base / 4096 * 4096 = c.base := by cases c <;> rfl
  have hbase : c.base ≤ 0x1000 := by cases c <;> decide
  rw [hsec, flashRead_eq m true _ _ (by rw [chipAddr_of_lt (by omega)]; omega),
    chipAddr_of_lt (by omega), sectorOps_eq (by omega), hsec]
  generalize hcache : patch (slice m c.base 4096) 0 p.bytes = cache
  have hlen : cache.length = 16 * 256 := by
    rw [← hcache, patch_length (by rw [slice_length]; omega), slice_length]
  have hfront : cache.take 228 = p.bytes := by
    rw [← hcache, patch, List.take_zero, List.nil_append, List.take_left' hl]
  refine ⟨?_, ?_, by simp⟩
  · intro k
    unfold stored
    congr 1
    apply slice_congr
    intro i hi
    apply run_frame
    intro o ho hx
    have ht := rewrite_touches (List.mem_of_mem_take ho) hx
    cases c with
    | magicnum =>
      simp only [Copy.base, Copy.other] at ht
      omega
    | runtime =>
      simp only [Copy.base, Copy.other] at ht
      omega
  · intro k
    rcases slice_rewrite_take m hlen (a := c.base) (n := 228) (by omega) (by omega) k with
      ⟨hk, h⟩ | ⟨hk, h⟩ | ⟨hk, h⟩
    · exact .inl ⟨hk, by rw [stored, stored, h]⟩
    · exact .inr (.inl ⟨hk, stored_eq_of_slice h⟩)
    · exact .inr (.inr ⟨hk, stored_eq_of_slice (h.trans hfront)⟩)

/-- A write to a copy is one rewrite of its sector. -/
theorem write_copy (hd : Installed d) (c : Copy) (p : FtParam) :
    ∃ ops, (tlsFlsWrite d c.addr p.bytes).2 = d.issue (.write c.addr p.bytes ops) ∧
      Rewrites c p d.mem ops := by
  obtain ⟨density, hfls, hsize⟩ := hd
  have hl := p.length_eq
  have hmod : c.addr % 0x8000000 = c.base := by cases c <;> rfl
  have hoff : c.base % 4096 = 0 := by cases c <;> rfl
  have hbase : c.base ≤ 0x1000 := by cases c <;> decide
  refine ⟨_, ?_, sectorOps_rewrites d.mem c p⟩
  unfold tlsFlsWrite
  rw [rangeCheck_ok hfls (by omega) (by omega)]
  simp only [hmod, hoff]
  rw [writeSectors_one d.mem (by omega) (by omega)]

/-! ## Writing a copy -/

section Store

variable {s : State}

@[simp] theorem store_gftParam (s : State) (c : Copy) : (s.store c).gftParam = s.gftParam := rfl

theorem Installed.store (hd : Installed s.dev) (c : Copy) : Installed (s.store c).dev := by
  obtain ⟨density, hfls, hsize⟩ := hd
  exact ⟨density, by rw [State.store, tlsFlsWrite_insideFls, hfls], hsize⟩

theorem stored_store (hd : Installed s.dev) (c : Copy) :
    stored (s.store c).dev.mem c = s.gftParam ∧
      stored (s.store c).dev.mem c.other = stored s.dev.mem c.other := by
  obtain ⟨ops, hdev, hops⟩ := write_copy hd c s.gftParam
  rw [State.store, hdev, Dev.issue_mem, Ev.ops]
  have hother := hops.other ops.length
  have hsteps := hops.steps ops.length
  have htwo := hops.two
  rw [List.take_length] at hother hsteps
  refine ⟨?_, hother⟩
  rcases hsteps with ⟨hk, _⟩ | ⟨hk, _⟩ | ⟨_, h⟩
  · omega
  · omega
  · exact h

/-- While a copy is written, the other one is as it was, and the copy is as it was, erased or new. -/
theorem store_through {G : (Nat → Byte) → Prop} (hd : Installed s.dev) (c : Copy)
    (hg : ∀ m, stored m c.other = stored s.dev.mem c.other →
      (stored m c = stored s.dev.mem c ∨ stored m c = .erased ∨ stored m c = s.gftParam) → G m) :
    s.dev.Through G (s.store c).dev := by
  obtain ⟨ops, hdev, hops⟩ := write_copy hd c s.gftParam
  rw [State.store, hdev]
  apply Dev.Through.issue
  intro k
  apply hg _ (hops.other k)
  rcases hops.steps k with ⟨_, h⟩ | ⟨_, h⟩ | ⟨_, h⟩
  · exact .inl h
  · exact .inr (.inl h)
  · exact .inr (.inr h)

end Store

/-! ## The steps of an update -/

section Update

variable {s : State}

/-- The record passes the checks, and they do not change it. -/
def Stands (hw : Engine) (p : FtParam) : Prop := (p.check hw).1 ≠ 0 ∧ (p.check hw).2 = p

theorem stands_of_one {p : FtParam} (h : (p.check hw).1 = 1) : Stands hw p := by
  rw [Stands, FtParam.check_of_one h]
  exact ⟨Nat.one_ne_zero, rfl⟩

theorem verify_store (hd : Installed s.dev) (c : Copy) :
    verify hw (s.store c) c = true ↔ Stands hw s.gftParam := by
  rw [verify_iff (hd.store c), (stored_store hd c).1, store_gftParam, Stands]

theorem repair_fst (hd : Installed s.dev) : (repairMagicnum hw s).1 = true ↔
    ((stored s.dev.mem .runtime).check hw).1 = 0 ∨ verify hw s .magicnum = true ∨
      Stands hw s.gftParam := by
  unfold repairMagicnum
  rw [ftParamInit_eq hd]
  by_cases hrun : ((stored s.dev.mem .runtime).check hw).1 = 0
  · simp [hrun]
  · rw [if_neg hrun]
    by_cases hver : verify hw s .magicnum = true
    · simp [hver]
    · rw [if_neg hver]
      constructor
      · intro h
        exact .inr (.inr ((verify_store hd .magicnum).mp h))
      · rintro (h | h | h)
        · exact absurd h hrun
        · exact absurd h hver
        · exact (verify_store hd .magicnum).mpr h

theorem repair_snd (hw : Engine) (hd : Installed s.dev) :
    (repairMagicnum hw s).2.gftParam = s.gftParam ∧ Installed (repairMagicnum hw s).2.dev ∧
      stored (repairMagicnum hw s).2.dev.mem .runtime = stored s.dev.mem .runtime := by
  unfold repairMagicnum
  split
  · exact ⟨rfl, hd, rfl⟩
  · split
    · exact ⟨rfl, hd, rfl⟩
    · exact ⟨rfl, hd.store _, (stored_store hd .magicnum).2⟩

/-- The writes at the end put a record that stands into both copies. On the way the runtime copy has
it, or the other copy is still as it was. -/
theorem save_ok (hw : Engine) (s : State) (hd : Installed s.dev) (hst : Stands hw s.gftParam) :
    ∃ s', save hw s = (0, s') ∧ s'.gftParam = s.gftParam ∧ Installed s'.dev ∧
      (∀ c, stored s'.dev.mem c = s.gftParam) ∧
      s.dev.Through (fun m => stored m .runtime = s.gftParam ∨
        (stored m .magicnum = stored s.dev.mem .magicnum ∧
          (stored m .runtime = stored s.dev.mem .runtime ∨ stored m .runtime = .erased))) s'.dev := by
  have hd1 := hd.store .runtime
  have h1 := stored_store hd .runtime
  have h2 := stored_store hd1 .magicnum
  refine ⟨(s.store .runtime).store .magicnum, ?_, rfl, hd1.store .magicnum, ?_, ?_⟩
  · unfold save
    rw [if_pos ((verify_store hd .runtime).mpr hst)]
    exact if_pos ((verify_store hd1 .magicnum).mpr hst)
  · intro c
    cases c with
    | magicnum => exact h2.1
    | runtime => exact h2.2.trans h1.1
  · refine Dev.Through.trans (store_through hd .runtime ?_) (store_through hd1 .magicnum ?_)
    · intro m hother hsame
      rcases hsame with h | h | h
      · exact .inr ⟨hother, .inl h⟩
      · exact .inr ⟨hother, .inr h⟩
      · exact .inl h
    · intro m hother _
      exact .inl (hother.trans h1.1)

theorem save_runtime (hw : Engine) (s : State) (hd : Installed s.dev) :
    stored (save hw s).2.dev.mem .runtime = s.gftParam ∧ s.dev.Through (fun _ => True) (save hw s).2.dev := by
  have h1 := stored_store hd .runtime
  have ht : s.dev.Through (fun _ => True) (s.store .runtime).dev :=
    store_through hd .runtime fun _ _ _ => trivial
  have hd1 := hd.store .runtime
  have h2 := (stored_store hd1 .magicnum).2.trans h1.1
  have ht2 : s.dev.Through (fun _ => True) ((s.store .runtime).store .magicnum).dev :=
    ht.trans (store_through hd1 .magicnum fun _ _ _ => trivial)
  unfold save
  simp only []
  split
  · split
    · exact ⟨h2, ht2⟩
    · exact ⟨h2, ht2⟩
  · exact ⟨h1.1, ht⟩

theorem update_eq {p : FtParam} {c : Cmd} {data : Nat → Byte} {len : Nat}
    (hin : c.dest + c.count len ≤ 228)
    (hext : (p.write c.dest (slice data 0 (c.count len))).extParamLen ≤ 84) :
    p.update hw c data len = some ((p.write c.dest (slice data 0 (c.count len))).checksums hw) := by
  unfold FtParam.update FtParam.copyIn
  rw [slice_length, if_pos hin, Option.bind_some, FtParam.renew, if_pos (by omega)]

theorem update_some {p u : FtParam} {c : Cmd} {data : Nat → Byte} {len : Nat}
    (h : p.update hw c data len = some u) : c.dest + c.count len ≤ 228 ∧
      (p.write c.dest (slice data 0 (c.count len))).extParamLen ≤ 84 ∧
      u = (p.write c.dest (slice data 0 (c.count len))).checksums hw := by
  unfold FtParam.update FtParam.copyIn at h
  rw [slice_length] at h
  split at h
  · rename_i hin
    rw [Option.bind_some, FtParam.renew] at h
    split at h
    · rename_i hext
      cases h
      exact ⟨hin, by omega, rfl⟩
    · cases h
  · cases h

theorem set_eq {opnum len : Nat} {data : Nat → Byte} (hlen : len ≠ 0)
    (hrepair : (repairMagicnum hw s).1 = true) :
    tlsFtParamSet hw true opnum (some data) len s =
      match cmd opnum with
      | none => some (-1, { (repairMagicnum hw s).2 with
          gftParam := (repairMagicnum hw s).2.gftParam.upgrade })
      | some c => ((repairMagicnum hw s).2.gftParam.upgrade.update hw c data len).map fun p =>
          save hw { (repairMagicnum hw s).2 with gftParam := p } := by
  unfold tlsFtParamSet
  simp only []
  rw [if_neg (by simp [hlen])]
  cases hr : repairMagicnum hw s with
  | mk ok s1 =>
    rw [hr] at hrepair
    cases hrepair
    rfl

end Update

end Efuse
end Air101
