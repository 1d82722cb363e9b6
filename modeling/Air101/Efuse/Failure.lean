import Air101.Efuse.Update

/-!
# Efuse.Failure

Calls of `tls_ft_param_set` that return -1. The record in RAM is edited in place, by the empty extension
that a record without a valid one gets, the data, and the checksums; the operation number is looked at
after the first of these edits, and the two copies are verified after all of them.

So that the verifications can fail, the flash need not hold what was sent to it: `Faults` says what it
holds after each write of the call.

* `setBy_faithful`: without faults the call is `tlsFtParamSet`.
* `setBy_fails`: the exits that return -1, and the record in RAM there.
* `update_same_iff`: an update changes nothing exactly if the record has what it puts in.
* `failed_set_iff`: a failed call leaves everything that later calls return and write as it was, exactly
  if it left before its edits or they changed nothing.
-/

namespace Air101
namespace Efuse

open Storage
open Crypto
open Fls

/-! ## Updates on a flash with faults -/

/-- What the flash holds after a write of the call, by the number of the write, given what it would hold
without a fault. -/
abbrev Faults := Nat → (Nat → Byte) → Nat → Byte

/-- The flash holds what is sent to it. -/
def noFaults : Faults := fun _ m => m

/-- `tls_fls_write` of the record in RAM to a copy, and the fault. -/
def State.storeBy (left : Faults) (n : Nat) (s : State) (c : Copy) : State :=
  { s.store c with dev := { (s.store c).dev with mem := left n (s.store c).dev.mem } }

section Calls

variable (hw : Engine) (left : Faults)

/-- The start of `tls_ft_param_set`: the copy at `FT_MAGICNUM_ADDR` is made good. -/
def repairMagicnumBy (s : State) : Bool × State :=
  if (ftParamInit hw s.dev Copy.runtime.addr .erased).1 = 0 then (true, s)
  else if verify hw s .magicnum then (true, s)
  else
    let s := s.storeBy left 0 .magicnum
    (verify hw s .magicnum, s)

/-- The writes at the end of `tls_ft_param_set`. -/
def saveBy (s : State) : Int × State :=
  let s := s.storeBy left 1 .runtime
  if verify hw s .runtime then
    let s := s.storeBy left 2 .magicnum
    if verify hw s .magicnum then (0, s) else (-1, s)
  else (-1, s)

/-- `tls_ft_param_set`. -/
def tlsFtParamSetBy (heap : Bool) (opnum : Nat) (data : Option (Nat → Byte)) (len : Nat) (s : State) :
    Option (Int × State) :=
  match data with
  | none => some (-1, s)
  | some data =>
    if len = 0 ∨ heap = false then some (-1, s)
    else
      match repairMagicnumBy hw left s with
      | (false, s) => some (-1, s)
      | (true, s) =>
        let s := { s with gftParam := s.gftParam.upgrade }
        match cmd opnum with
        | none => some (-1, s)
        | some c =>
          (s.gftParam.update hw c data len).map fun p => saveBy hw left { s with gftParam := p }

/-- Without faults this is the call that the other modules speak about. -/
theorem setBy_faithful : tlsFtParamSetBy hw noFaults = tlsFtParamSet hw := rfl

end Calls

/-! ## The exits -/

section Exits

variable {hw : Engine} {left : Faults} {s s' : State}

theorem Installed.storeBy (hd : Installed s.dev) (left : Faults) (n : Nat) (c : Copy) :
    Installed (s.storeBy left n c).dev := hd.store c

/-- The call leaves before it does anything. -/
def Refused (heap : Bool) (data : Option (Nat → Byte)) (len : Nat) : Prop :=
  data = none ∨ len = 0 ∨ heap = false

/-- The copy at `FT_MAGICNUM_ADDR` has to be made good, since the runtime copy is about to be erased, and
cannot be: the flash does not give the record in RAM back after the write. -/
structure RepairFails (hw : Engine) (left : Faults) (s : State) : Prop where
  runtime : (ftParamInit hw s.dev Copy.runtime.addr .erased).1 ≠ 0
  differs : verify hw s .magicnum = false
  after : verify hw (s.storeBy left 0 .magicnum) .magicnum = false

theorem repairBy_cases (hw : Engine) (left : Faults) (s : State) :
    (RepairFails hw left s ∧ repairMagicnumBy hw left s = (false, s.storeBy left 0 .magicnum)) ∨
      ¬ RepairFails hw left s ∧ (repairMagicnumBy hw left s).1 = true ∧
        (repairMagicnumBy hw left s).2.gftParam = s.gftParam := by
  unfold repairMagicnumBy
  by_cases hrun : (ftParamInit hw s.dev Copy.runtime.addr .erased).1 = 0
  · rw [if_pos hrun]
    exact .inr ⟨fun h => h.runtime hrun, rfl, rfl⟩
  · rw [if_neg hrun]
    cases hsame : verify hw s .magicnum with
    | true =>
      rw [if_pos rfl]
      refine .inr ⟨fun h => ?_, rfl, rfl⟩
      rw [h.differs] at hsame
      exact Bool.false_ne_true hsame
    | false =>
      rw [if_neg Bool.false_ne_true]
      cases hafter : verify hw (s.storeBy left 0 .magicnum) .magicnum with
      | true =>
        refine .inr ⟨fun h => ?_, hafter, rfl⟩
        rw [h.after] at hafter
        exact Bool.false_ne_true hafter
      | false => exact .inl ⟨⟨hrun, hsame, hafter⟩, by simp only [hafter]⟩

theorem saveBy_gftParam (hw : Engine) (left : Faults) (s : State) :
    (saveBy hw left s).2.gftParam = s.gftParam := by
  unfold saveBy
  simp only []
  split
  · split
    · rfl
    · rfl
  · rfl

/-- The exits that return -1: before anything is done, when the repair fails, on an operation that there
is none of, and when one of the copies is not verified. -/
theorem setBy_fails {heap : Bool} {opnum len : Nat} {data : Option (Nat → Byte)}
    (h : tlsFtParamSetBy hw left heap opnum data len s = some (-1, s')) :
    (Refused heap data len ∧ s' = s) ∨
      ¬ Refused heap data len ∧
        ((RepairFails hw left s ∧ s' = s.storeBy left 0 .magicnum) ∨
          ¬ RepairFails hw left s ∧
            ((cmd opnum = none ∧ s'.gftParam = s.gftParam.upgrade) ∨
              ∃ c d, cmd opnum = some c ∧ data = some d ∧
                s.gftParam.upgrade.update hw c d len = some s'.gftParam)) := by
  unfold tlsFtParamSetBy at h
  cases data with
  | none =>
    rw [Option.some.injEq, Prod.mk.injEq] at h
    exact .inl ⟨.inl rfl, h.2.symm⟩
  | some d =>
    simp only [] at h
    by_cases hrefused : len = 0 ∨ heap = false
    · rw [if_pos hrefused, Option.some.injEq, Prod.mk.injEq] at h
      exact .inl ⟨.inr hrefused, h.2.symm⟩
    · rw [if_neg hrefused] at h
      refine .inr ⟨fun hr => ?_, ?_⟩
      · rcases hr with hr | hr
        · exact Option.some_ne_none d hr
        · exact hrefused hr
      · rcases repairBy_cases hw left s with ⟨hfail, hrepair⟩ | ⟨hok, hrepair, hram⟩
        · rw [hrepair, Option.some.injEq, Prod.mk.injEq] at h
          exact .inl ⟨hfail, h.2.symm⟩
        · refine .inr ⟨hok, ?_⟩
          generalize repairMagicnumBy hw left s = r at hrepair hram h
          obtain ⟨good, s1⟩ := r
          subst hrepair
          rw [← hram]
          cases hcmd : cmd opnum with
          | none =>
            simp only [hcmd, Option.some.injEq, Prod.mk.injEq] at h
            exact .inl ⟨rfl, by rw [← h.2]⟩
          | some c =>
            simp only [hcmd, Option.map_eq_some_iff] at h
            obtain ⟨u, hupdate, hsave⟩ := h
            refine .inr ⟨c, d, rfl, rfl, ?_⟩
            have hkeep := saveBy_gftParam hw left { s1 with gftParam := u }
            rw [hsave] at hkeep
            rw [hupdate, hkeep]

end Exits

/-! ## What later calls see -/

section Later

variable {hw : Engine} {s s' : State}

/-- Nothing that later calls return or write shows that the state is `s'` and not `s`: the record in RAM,
what `tls_ft_param_get` returns, and the record that a successful `tls_ft_param_set` writes to the two
copies. -/
structure Unchanged (hw : Engine) (s s' : State) : Prop where
  ram : s'.gftParam = s.gftParam
  get : ∀ opnum data rdlen, tlsFtParamGet s' opnum data rdlen = tlsFtParamGet s opnum data rdlen
  image : ∀ heap opnum data len t t', tlsFtParamSet hw heap opnum data len s = some (0, t) →
    tlsFtParamSet hw heap opnum data len s' = some (0, t') →
    ∀ c : Copy, slice t'.dev.mem c.base 228 = slice t.dev.mem c.base 228

/-- The bytes of the flash that `tls_ft_param_get` reads in place of the extension. -/
def extWords (m : Nat → Byte) : List Byte := slice m 140 8

theorem read_ext (hd : Installed s.dev) {k : Nat} (hk : k + 4 ≤ 0x1000) :
    tlsFlsRead s.dev true (0x8000000 + k) 4 = (.ok, slice s.dev.mem k 4) := by
  obtain ⟨density, hfls, hsize⟩ := hd
  have hchip : chipAddr (0x8000000 + k) = k := by
    unfold chipAddr
    omega
  unfold tlsFlsRead
  rw [rangeCheck_ok hfls (by omega) (by omega)]
  simp only []
  rw [flashRead_eq _ _ _ _ (by rw [hchip]; omega), hchip]

theorem getExtWord_legacy (hd : Installed s.dev) (hext : s.gftParam.ext1Valid = false) (offset : Nat)
    {k : Nat} (hk : k + 4 ≤ 0x1000) (data : Nat → Byte) :
    getExtWord s offset (0x8000000 + k) data = (0, overlay data 0 (slice s.dev.mem k 4)) := by
  rw [getExtWord, if_neg (by simp [hext]), read_ext hd hk]

theorem extWords_eq (m : Nat → Byte) : extWords m = slice m 140 4 ++ slice m 144 4 := slice_append m 140 4 4

/-- `tls_ft_param_get` depends on the record in RAM, and on the two words in the flash when it has no
valid extension. -/
theorem get_of_ram (hd : Installed s.dev) (hd' : Installed s'.dev) (hram : s'.gftParam = s.gftParam)
    (hwords : s.gftParam.ext1Valid = true ∨ extWords s'.dev.mem = extWords s.dev.mem)
    (opnum : Nat) (data : Nat → Byte) (rdlen : Nat) :
    tlsFtParamGet s' opnum data rdlen = tlsFtParamGet s opnum data rdlen := by
  have hword : ∀ offset k, k = 140 ∨ k = 144 →
      getExtWord s' offset (0x8000000 + k) data = getExtWord s offset (0x8000000 + k) data := by
    intro offset k hk
    cases hext : s.gftParam.ext1Valid with
    | true => rw [getExtWord, getExtWord, hram, if_pos hext, if_pos hext]
    | false =>
      rw [getExtWord_legacy hd' (hram ▸ hext) offset (by omega), getExtWord_legacy hd hext offset (by omega)]
      rcases hwords with hvalid | hsame
      · rw [hext] at hvalid
        exact absurd hvalid Bool.false_ne_true
      · rw [extWords_eq, extWords_eq] at hsame
        obtain ⟨h140, h144⟩ := List.append_inj hsame (by rw [slice_length, slice_length])
        rcases hk with rfl | rfl
        · rw [h140]
        · rw [h144]
  unfold tlsFtParamGet
  simp only [hram]
  split
  · rfl
  · exact congrArg some (hword 144 140 (.inl rfl))
  · exact congrArg some (hword 148 144 (.inr rfl))
  all_goals rfl

/-- Without a valid extension the two words show. -/
theorem words_of_get (hd : Installed s.dev) (hd' : Installed s'.dev) (hram : s'.gftParam = s.gftParam)
    (hext : s.gftParam.ext1Valid = false)
    (hget : ∀ opnum data rdlen, tlsFtParamGet s' opnum data rdlen = tlsFtParamGet s opnum data rdlen) :
    extWords s'.dev.mem = extWords s.dev.mem := by
  have hword : ∀ offset k, k + 4 ≤ 0x1000 →
      getExtWord s' offset (0x8000000 + k) (fun _ => 0#8) =
        getExtWord s offset (0x8000000 + k) (fun _ => 0#8) → slice s'.dev.mem k 4 = slice s.dev.mem k 4 := by
    intro offset k hk h
    rw [getExtWord_legacy hd' (hram ▸ hext) offset hk, getExtWord_legacy hd hext offset hk,
      Prod.mk.injEq] at h
    have hcells := congrArg (fun m => slice m 0 4) h.2
    have hleft := slice_overlay (fun _ => 0#8) 0 (slice s'.dev.mem k 4)
    have hright := slice_overlay (fun _ => 0#8) 0 (slice s.dev.mem k 4)
    rw [slice_length] at hleft hright
    rw [hleft, hright] at hcells
    exact hcells
  have hfreq := Option.some.inj (hget 12 (fun _ => 0#8) 4)
  have hflag := Option.some.inj (hget 13 (fun _ => 0#8) 4)
  rw [extWords_eq, extWords_eq, hword 144 140 (by omega) hfreq, hword 148 144 (by omega) hflag]

/-- What a successful call writes depends on the record in RAM only. -/
theorem set_image {heap : Bool} {opnum len : Nat} {data : Option (Nat → Byte)} {t : State}
    (hd : Installed s.dev) (h : tlsFtParamSet hw heap opnum data len s = some (0, t)) :
    ∃ c d, cmd opnum = some c ∧ data = some d ∧
      s.gftParam.upgrade.update hw c d len = some t.gftParam ∧
      ∀ k : Copy, slice t.dev.mem k.base 228 = t.gftParam.bytes := by
  unfold tlsFtParamSet at h
  cases data with
  | none => simp at h
  | some d =>
    simp only [] at h
    split at h
    · simp at h
    · obtain ⟨hram, hd1, -⟩ := repair_snd hw hd
      generalize repairMagicnum hw s = r at hram hd1 h
      obtain ⟨good, s1⟩ := r
      cases good with
      | false => simp at h
      | true =>
        cases hcmd : cmd opnum with
        | none => simp [hcmd] at h
        | some c =>
          simp only [hcmd, Option.map_eq_some_iff] at h
          obtain ⟨u, hupdate, hsave⟩ := h
          rw [hram] at hupdate
          have hu : Installed ({ s1 with gftParam := u } : State).dev := hd1
          have hd2 := hu.store .runtime
          have h1 := stored_store hu .runtime
          have h2 := stored_store hd2 .magicnum
          unfold save at hsave
          simp only [] at hsave
          split at hsave
          · split at hsave
            · rw [Prod.mk.injEq] at hsave
              obtain ⟨-, rfl⟩ := hsave
              refine ⟨c, d, rfl, rfl, hupdate, fun k => ?_⟩
              have hstored : stored (((State.mk s1.dev u).store .runtime).store .magicnum).dev.mem k = u := by
                cases k with
                | magicnum => exact h2.1
                | runtime => exact h2.2.trans h1.1
              have hbytes := congrArg FtParam.bytes hstored
              rwa [stored, FtParam.bytes_ofBytes (slice_length _ _ _)] at hbytes
            · simp at hsave
          · simp at hsave

/-- With the record in RAM and the words that show, everything is as it was. -/
theorem unchanged_of_ram (hd : Installed s.dev) (hd' : Installed s'.dev) (hram : s'.gftParam = s.gftParam)
    (hwords : s.gftParam.ext1Valid = true ∨ extWords s'.dev.mem = extWords s.dev.mem) :
    Unchanged hw s s' := by
  refine ⟨hram, get_of_ram hd hd' hram hwords, fun heap opnum data len t t' ht ht' c => ?_⟩
  obtain ⟨k, d, hcmd, hdata, hupdate, himage⟩ := set_image hd ht
  obtain ⟨k', d', hcmd', hdata', hupdate', himage'⟩ := set_image hd' ht'
  rw [hcmd, Option.some.injEq] at hcmd'
  rw [hdata, Option.some.injEq] at hdata'
  subst hcmd' hdata'
  rw [hram, hupdate, Option.some.injEq] at hupdate'
  rw [himage, himage', hupdate']

end Later

/-! ## Records that never verify -/

section Odd

variable {hw : Engine} {left : Faults} {s : State}

theorem ftParamInit_check (hw : Engine) (d : Dev) (addr : Nat) :
    ∃ q : FtParam, ftParamInit hw d addr .erased = q.check hw := by
  unfold ftParamInit
  split
  · exact ⟨_, rfl⟩
  · exact ⟨_, rfl⟩

/-- A record without a valid extension that does not have the length of the legacy format either is not
what `_ft_param_init` makes of any content of the flash. -/
theorem verify_odd (hext : s.gftParam.ext1Valid = false) (hlen : s.gftParam.extParamLen ≠ 0xFFFF)
    (c : Copy) : verify hw s c = false := by
  obtain ⟨q, hq⟩ := ftParamInit_check hw s.dev c.addr
  by_contra hno
  rw [Bool.not_eq_false] at hno
  unfold verify at hno
  rw [hq] at hno
  obtain ⟨hret, hrec⟩ := of_decide_eq_true hno
  rcases FtParam.check_cases hw q with h0 | h1 | h2
  · exact hret h0
  · rw [h1] at hrec
    rw [← hrec, (FtParam.check_eq_one.mp (congrArg Prod.fst h1)).2.2.1] at hext
    exact absurd hext (by simp)
  · rw [h2] at hrec
    exact hlen (hrec ▸ FtParam.extParamLen_legacy q)

/-- If the update of such a record gives the same record, the only write is the one to the runtime copy. -/
theorem setBy_odd {c : Cmd} {d : Nat → Byte} {opnum len : Nat} (hlen : len ≠ 0) (hcmd : cmd opnum = some c)
    (hrepair : ¬ RepairFails hw left s) (hext : s.gftParam.ext1Valid = false)
    (hsame : s.gftParam.upgrade.update hw c d len = some s.gftParam) :
    tlsFtParamSetBy hw left true opnum (some d) len s = some (-1, s.storeBy left 1 .runtime) := by
  have hshort : s.gftParam.extParamLen ≠ 0xFFFF := by
    obtain ⟨-, hle, heq⟩ := update_some hsame
    rw [heq, FtParam.extParamLen_checksums]
    omega
  have hnever : ∀ (t : State) (k : Copy), t.gftParam = s.gftParam → verify hw t k = false := fun t k ht =>
    verify_odd (ht ▸ hext) (ht ▸ hshort) k
  have hstart : repairMagicnumBy hw left s = (true, s) := by
    unfold repairMagicnumBy
    by_cases hrun : (ftParamInit hw s.dev Copy.runtime.addr .erased).1 = 0
    · rw [if_pos hrun]
    · exact absurd ⟨hrun, hnever s .magicnum rfl, hnever _ .magicnum rfl⟩ hrepair
  unfold tlsFtParamSetBy
  simp only [hstart, hcmd, hsame, Option.map_some]
  rw [if_neg (by simp [hlen]), saveBy]
  simp only [hnever (({ s with gftParam := s.gftParam } : State).storeBy left 1 .runtime) .runtime rfl,
    Bool.false_eq_true, if_false]

end Odd

/-! ## Failed calls -/

section Failed

variable {hw : Engine} {left : Faults} {s s' : State}

theorem saveBy_installed (hw : Engine) (left : Faults) (hd : Installed s.dev) :
    Installed (saveBy hw left s).2.dev := by
  unfold saveBy
  simp only []
  split
  · split
    · exact (hd.storeBy left 1 .runtime).storeBy left 2 .magicnum
    · exact (hd.storeBy left 1 .runtime).storeBy left 2 .magicnum
  · exact hd.storeBy left 1 .runtime

theorem repairBy_installed (hw : Engine) (left : Faults) (hd : Installed s.dev) :
    Installed (repairMagicnumBy hw left s).2.dev := by
  unfold repairMagicnumBy
  split
  · exact hd
  · split
    · exact hd
    · exact hd.storeBy left 0 .magicnum

theorem setBy_installed {heap : Bool} {opnum len : Nat} {data : Option (Nat → Byte)} {ret : Int}
    (hd : Installed s.dev) (h : tlsFtParamSetBy hw left heap opnum data len s = some (ret, s')) :
    Installed s'.dev := by
  have hsame : ∀ {r : Int × State}, some r = some (ret, s') → Installed r.2.dev → Installed s'.dev := by
    intro r hr hi
    rw [Option.some.injEq] at hr
    rwa [hr] at hi
  unfold tlsFtParamSetBy at h
  cases data with
  | none => exact hsame h hd
  | some d =>
    simp only [] at h
    split at h
    · exact hsame h hd
    · have hd1 := repairBy_installed (s := s) hw left hd
      generalize repairMagicnumBy hw left s = r at hd1 h
      obtain ⟨good, s1⟩ := r
      cases good with
      | false => exact hsame h hd1
      | true =>
        cases hcmd : cmd opnum with
        | none =>
          simp only [hcmd] at h
          exact hsame h hd1
        | some c =>
          simp only [hcmd, Option.map_eq_some_iff] at h
          obtain ⟨u, -, hsave⟩ := h
          have hd2 := saveBy_installed (s := { s1 with gftParam := u }) hw left hd1
          rwa [hsave] at hd2

/-- The record has what an update would put in: the checksums are in order, the data are in their place,
and a record without a valid extension has everything of the empty one that the data leave free. -/
structure InPlace (hw : Engine) (p : FtParam) (c : Cmd) (d : Nat → Byte) (len : Nat) : Prop where
  sums : p.Summed hw
  data : ∀ i, i < c.count len → ¬ FtParam.IsSum (c.dest + i) → p.bytes[c.dest + i]? = some (d i)
  rest : p.ext1Valid = true ∨ ∀ i, ¬ FtParam.IsSum i → i < c.dest ∨ c.dest + c.count len ≤ i →
    p.bytes[i]? = p.upgrade.bytes[i]?

/-- An update changes nothing exactly if the record has all of it already. -/
theorem update_same_iff {p u : FtParam} {c : Cmd} {d : Nat → Byte} {len : Nat}
    (h : p.upgrade.update hw c d len = some u) : u = p ↔ InPlace hw p c d len := by
  obtain ⟨hin, -, hu⟩ := update_some h
  have hlen := slice_length d 0 (c.count len)
  have hwritten : ∀ i, i < c.count len → (p.upgrade.write c.dest
      (slice d 0 (c.count len))).bytes[c.dest + i]? = some (d i) := by
    intro i hi
    rw [FtParam.write_in _ (by omega) (by omega), slice_getElem?, if_pos hi, Nat.zero_add]
  have hother : ∀ i, i < c.dest ∨ c.dest + c.count len ≤ i → (p.upgrade.write c.dest
      (slice d 0 (c.count len))).bytes[i]? = p.upgrade.bytes[i]? := fun i hi =>
    FtParam.write_out _ (by omega) (by omega)
  generalize p.upgrade.write c.dest (slice d 0 (c.count len)) = q at hu hwritten hother
  have hsums := FtParam.summed_checksums hw q
  have hbytes := fun i => FtParam.checksums_out (i := i) hw q
  rw [← hu] at hsums hbytes
  constructor
  · intro hsame
    rw [hsame] at hsums hbytes
    refine ⟨hsums, fun i hi hsum => ?_, .inr fun i hsum hi => ?_⟩
    · rw [hbytes _ hsum, hwritten i hi]
    · rw [hbytes i hsum, hother i hi]
  · rintro ⟨hinOrder, hdata, hrest⟩
    refine hsums.eq hinOrder fun i hsum => ?_
    rw [hbytes i hsum]
    by_cases hi : c.dest ≤ i ∧ i < c.dest + c.count len
    · obtain ⟨j, rfl⟩ := Nat.exists_eq_add_of_le hi.1
      rw [hwritten j (by omega), hdata j (by omega) hsum]
    · have hout : i < c.dest ∨ c.dest + c.count len ≤ i := by omega
      rw [hother i hout]
      rcases hrest with hext | hrest
      · rw [FtParam.upgrade_of_valid hext]
      · rw [hrest i hsum hout]

/-- The call leaves before its edits, or they change nothing: it is refused at once; or the repair in front
of the edits fails; or there is no such operation and the record in RAM has a valid extension already; or
the record in RAM has what the update would put in. Where that record has no valid extension, the two words
that `tls_ft_param_get` reads from the flash then have to be left as they were. -/
def Harmless (hw : Engine) (left : Faults) (heap : Bool) (opnum : Nat) (data : Option (Nat → Byte))
    (len : Nat) (s : State) : Prop :=
  Refused heap data len ∨
    (RepairFails hw left s ∧ (s.gftParam.ext1Valid = true ∨
      extWords (left 0 (s.store .magicnum).dev.mem) = extWords s.dev.mem)) ∨
    (¬ RepairFails hw left s ∧
      ((cmd opnum = none ∧ s.gftParam.ext1Valid = true) ∨
        ∃ c d, cmd opnum = some c ∧ data = some d ∧ InPlace hw s.gftParam c d len ∧
          (s.gftParam.ext1Valid = true ∨
            extWords (left 1 (s.store .runtime).dev.mem) = extWords s.dev.mem)))

/-- The words after a call that ends behind an update which changed nothing. -/
theorem words_of_same {heap : Bool} {opnum len : Nat} {c : Cmd} {d : Nat → Byte}
    (h : tlsFtParamSetBy hw left heap opnum (some d) len s = some (-1, s'))
    (hnot : ¬ Refused heap (some d) len) (hrepair : ¬ RepairFails hw left s) (hcmd : cmd opnum = some c)
    (hsame : s.gftParam.upgrade.update hw c d len = some s.gftParam)
    (hext : s.gftParam.ext1Valid = false) :
    extWords s'.dev.mem = extWords (left 1 (s.store .runtime).dev.mem) := by
  have hlen : len ≠ 0 := fun hl => hnot (.inr (.inl hl))
  have hheap : heap = true := by
    cases heap with
    | true => rfl
    | false => exact absurd (.inr (.inr rfl)) hnot
  subst hheap
  rw [setBy_odd hlen hcmd hrepair hext hsame, Option.some.injEq, Prod.mk.injEq] at h
  rw [← h.2]
  rfl

/-- A call that returns -1 is as if it had not been made, for all that later calls return and write,
exactly if it left before its edits or they changed nothing. -/
theorem failed_set_iff (hw : Engine) (left : Faults) (s s' : State) (hd : Installed s.dev) (heap : Bool)
    (opnum : Nat) (data : Option (Nat → Byte)) (len : Nat)
    (h : tlsFtParamSetBy hw left heap opnum data len s = some (-1, s')) :
    Unchanged hw s s' ↔ Harmless hw left heap opnum data len s := by
  have hd' := setBy_installed hd h
  rcases setBy_fails h with ⟨hrefused, rfl⟩ | ⟨hnot, ⟨hrepair, rfl⟩ | ⟨hrepair, hexit⟩⟩
  · exact ⟨fun _ => .inl hrefused, fun _ => unchanged_of_ram hd hd rfl (.inr rfl)⟩
  · -- the record in RAM has not been touched yet
    constructor
    · intro hsame
      refine .inr (.inl ⟨hrepair, ?_⟩)
      cases hext : s.gftParam.ext1Valid with
      | true => exact .inl rfl
      | false => exact .inr (words_of_get hd hd' rfl hext hsame.get)
    · rintro (hrefused | ⟨-, hwords⟩ | ⟨hok, -⟩)
      · exact absurd hrefused hnot
      · exact unchanged_of_ram hd hd' rfl hwords
      · exact absurd hrepair hok
  · rcases hexit with ⟨hcmd, hram⟩ | ⟨c, d, hcmd, rfl, hupdate⟩
    · constructor
      · intro hsame
        have hext := FtParam.ext1Valid_upgrade s.gftParam
        rw [← hram, hsame.ram] at hext
        exact .inr (.inr ⟨hrepair, .inl ⟨hcmd, hext⟩⟩)
      · rintro (hrefused | ⟨hfail, -⟩ | ⟨-, ⟨-, hext⟩ | ⟨c, d, hsome, -⟩⟩)
        · exact absurd hrefused hnot
        · exact absurd hfail hrepair
        · exact unchanged_of_ram hd hd' (hram.trans (FtParam.upgrade_of_valid hext)) (.inl hext)
        · rw [hcmd] at hsome
          exact absurd hsome (by simp)
    · constructor
      · intro hsame
        have hplace := (update_same_iff hupdate).1 hsame.ram
        rw [hsame.ram] at hupdate
        refine .inr (.inr ⟨hrepair, .inr ⟨c, d, hcmd, rfl, hplace, ?_⟩⟩)
        cases hext : s.gftParam.ext1Valid with
        | true => exact .inl rfl
        | false =>
          rw [← words_of_same h hnot hrepair hcmd hupdate hext]
          exact .inr (words_of_get hd hd' hsame.ram hext hsame.get)
      · rintro (hrefused | ⟨hfail, -⟩ | ⟨-, ⟨hnone, -⟩ | ⟨c', d', hcmd', hdata, hplace, hwords⟩⟩)
        · exact absurd hrefused hnot
        · exact absurd hfail hrepair
        · rw [hcmd] at hnone
          exact absurd hnone (by simp)
        · rw [hcmd, Option.some.injEq] at hcmd'
          rw [Option.some.injEq] at hdata
          subst hcmd' hdata
          have hram := (update_same_iff hupdate).2 hplace
          rw [hram] at hupdate
          refine unchanged_of_ram hd hd' hram ?_
          cases hext : s.gftParam.ext1Valid with
          | true => exact .inl rfl
          | false =>
            rw [words_of_same h hnot hrepair hcmd hupdate hext]
            exact .inr (hwords.resolve_left (by simp [hext]))

end Failed

theorem not_repairFails {hw : Engine} {s : State} (h : (repairMagicnum hw s).1 = true) :
    ¬ RepairFails hw noFaults s := by
  intro hfail
  rcases repairBy_cases hw noFaults s with ⟨-, hbad⟩ | ⟨hok, -⟩
  · have hfst : (repairMagicnum hw s).1 = false := congrArg Prod.fst hbad
    rw [h] at hfst
    exact absurd hfst (by decide)
  · exact hok hfail

theorem setBy_unsupported {hw : Engine} {s : State} {opnum len : Nat} {d : Nat → Byte} (hcmd : cmd opnum = none)
    (hlen : len ≠ 0) (hrepair : (repairMagicnum hw s).1 = true) :
    tlsFtParamSetBy hw noFaults true opnum (some d) len s = some (-1, { (repairMagicnum hw s).2 with
      gftParam := (repairMagicnum hw s).2.gftParam.upgrade }) := by
  rw [setBy_faithful, set_eq hlen hrepair, hcmd]

/-- An operation that there is none of, on a record with an extension. -/
theorem failed_set_iff_fresh : ∃ s', tlsFtParamSetBy softEngine noFaults true 99 (some fun _ => 0#8) 1
      (mirrored (fresh softEngine)) = some (-1, s') ∧
    Unchanged softEngine (mirrored (fresh softEngine)) s' := by
  have hp := fresh_check softEngine
  generalize fresh softEngine = p at hp ⊢
  have hloaded := mirrored_loaded hp
  have hcall := setBy_unsupported (d := fun _ => 0#8) (show cmd 99 = none from rfl) (show 1 ≠ 0 by decide)
    hloaded.repair.1
  refine ⟨_, hcall, ?_⟩
  exact (failed_set_iff softEngine noFaults (mirrored p) _ hloaded.installed true 99 (some fun _ => 0#8) 1
    hcall).2 (.inr (.inr ⟨not_repairFails hloaded.repair.1, .inl ⟨rfl, hloaded.loads.ext1Valid⟩⟩))

/-- An operation that there is none of, on a blank board: the call fails and leaves an empty extension in
RAM, from which `CMD_TX_ADC_CAL` can be read then. -/
theorem failed_set_blank :
    (¬ ∀ (hw : Engine) (left : Faults) (s s' : State), Installed s.dev → ∀ heap opnum data len,
        tlsFtParamSetBy hw left heap opnum data len s = some (-1, s') → Unchanged hw s s') ∧
      ∃ s', tlsFtParamSetBy softEngine noFaults true 99 (some fun _ => 0#8) 1 (mirrored .erased) =
          some (-1, s') ∧
        tlsFtParamGet (mirrored .erased) 11 (fun _ => 0#8) 36 = some (-1, fun _ => 0#8) ∧
        tlsFtParamGet s' 11 (fun _ => 0#8) 36 =
          some (0, overlay (fun _ => 0#8) 0 (List.replicate 36 0xFF#8)) := by
  have hd := mirrored_installed .erased
  have hext : FtParam.erased.ext1Valid = false := by decide
  have hrepair : (repairMagicnum softEngine (mirrored .erased)).1 = true := by
    refine (repair_fst hd).2 (.inl ?_)
    rw [mirrored_stored, FtParam.erased_check]
  have hcall := setBy_unsupported (d := fun _ => 0#8) (show cmd 99 = none from rfl) (show 1 ≠ 0 by decide)
    hrepair
  have hram : (repairMagicnum softEngine (mirrored .erased)).2.gftParam = .erased := (repair_snd softEngine hd).1
  refine ⟨fun h => ?_, _, hcall, ?_, ?_⟩
  · have hsame := h softEngine noFaults (mirrored .erased) _ hd true 99 (some fun _ => 0#8) 1 hcall
    have hkeep := hsame.ram
    simp only [hram] at hkeep
    have hvalid := FtParam.ext1Valid_upgrade FtParam.erased
    rw [hkeep] at hvalid
    exact absurd hvalid (by decide)
  · unfold tlsFtParamGet
    rw [show cmd 11 = some .txAdcCal from rfl]
    simp only []
    rw [show (mirrored .erased).gftParam = .erased from rfl, hext, if_neg Bool.false_ne_true]
  · rw [hram]
    have hget := get_eq (s := { (repairMagicnum softEngine (mirrored .erased)).2 with
      gftParam := FtParam.erased.upgrade }) (show cmd 11 = some .txAdcCal from rfl)
      (fun _ => FtParam.ext1Valid_upgrade .erased) (fun _ => 0#8) 36
    refine hget.trans ?_
    have hpart : FtParam.erased.upgrade.part 152 36 = List.replicate 36 0xFF#8 := by decide
    simp only [Cmd.refused, Cmd.dest, Cmd.count, FtParam.copyOut, Bool.false_eq_true, if_false, hpart]
    rfl

end Efuse
end Air101
