import Air101.Efuse.PowerCut

/-!
# Efuse.Update

Updates of the factory parameters, from every state that `tls_ft_param_init` can load: a record with
an extension, or one of the legacy format without. `tls_ft_param_set` puts an empty extension to the
latter.

* `get_congr`: a member is read from its own bytes.
* `part_updated`: an update leaves the bytes of the other members as they are.
* `update_spec`: a call that gets past the repair succeeds, and the next boot loads the updated
  record.
* `ft_param_update`: what `tls_ft_param_get` returns then.
-/

namespace Air101
namespace Efuse

open Storage
open Crypto
open Fls

variable {hw : Engine}

/-! ## Members -/

namespace Cmd

/-- The number of an operation. -/
def num : Cmd → Nat
  | .wifiMac => 1
  | .wifiMacap => 2
  | .btMac => 3
  | .txDc => 4
  | .rxDc => 5
  | .txIqGain => 6
  | .rxIqGain => 7
  | .txIqPhase => 8
  | .rxIqPhase => 9
  | .txGain => 10
  | .txAdcCal => 11
  | .freqErr => 12
  | .rfCalFlag => 13

/-- The size of a member. -/
def size : Cmd → Nat
  | .wifiMac => 6
  | .wifiMacap => 6
  | .btMac => 6
  | .txGain => 84
  | .txAdcCal => 36
  | _ => 4

/-- The members that lie in the extension. -/
def inExt : Cmd → Bool
  | .txAdcCal => true
  | .freqErr => true
  | .rfCalFlag => true
  | _ => false

/-- The values that `tls_ft_param_get` replaces by a default. -/
def refused : Cmd → List Byte → Bool
  | .wifiMac, mac => wifiRefused mac
  | .wifiMacap, mac => wifiRefused mac
  | .btMac, mac => btRefused mac
  | _, _ => false

/-- The default it puts in their place. -/
def copyDefault : Cmd → (Nat → Byte) → Nat → Option (Nat → Byte)
  | .btMac => copyDefaultBt
  | _ => Efuse.copyDefault

theorem cmd_eq_some {opnum : Nat} {c : Cmd} (h : cmd opnum = some c) : opnum = c.num := by
  unfold cmd at h
  split at h <;> cases h <;> rfl

theorem apart : ∀ c q : Cmd, c ≠ q → c.dest + c.size ≤ q.dest ∨ q.dest + q.size ≤ c.dest := by
  intro c q
  cases c <;> cases q <;> decide

/-- No member overlaps the checksums, and those in front of the extension do not overlap the two
members that say whether there is one. -/
theorem place (c : Cmd) : c.dest + c.size ≤ 228 ∧
    (c.dest + c.size ≤ 20 ∨ 22 ≤ c.dest) ∧ (c.dest + c.size ≤ 28 ∨ 30 ≤ c.dest) ∧
    ((c.inExt = false ∧ 8 ≤ c.dest ∧ c.dest + c.size ≤ 140) ∨ (c.inExt = true ∧ 144 ≤ c.dest)) := by
  cases c <;> decide

end Cmd

/-! ## Reads -/

/-- All members are read in the same way, the extension's when there is one: the value, or the default
in its place. -/
theorem get_eq {s : State} {opnum : Nat} {c : Cmd} (hc : cmd opnum = some c)
    (hext : c.inExt = true → s.gftParam.ext1Valid = true) (buf : Nat → Byte) (rdlen : Nat) :
    tlsFtParamGet s opnum buf rdlen =
      (if c.refused (s.gftParam.part c.dest c.size) then c.copyDefault buf rdlen
        else s.gftParam.copyOut c.dest buf (c.count rdlen)).map fun data => (0, data) := by
  have hword : ∀ offset flashAddr, offset + 4 ≤ 228 → s.gftParam.ext1Valid = true →
      some (getExtWord s offset flashAddr buf) =
        (s.gftParam.copyOut offset buf 4).map fun data => ((0, data) : Int × (Nat → Byte)) := by
    intro offset flashAddr hin hvalid
    rw [getExtWord, if_pos hvalid, FtParam.copyOut, if_pos hin]
    rfl
  have hchoice : ∀ (b : Bool) (x y : Option (Nat → Byte)),
      (if b then x.map fun data => ((0, data) : Int × (Nat → Byte)) else y.map fun data => (0, data)) =
        (if b then x else y).map fun data => (0, data) := by
    intro b x y
    cases b with
    | false => rfl
    | true => rfl
  unfold tlsFtParamGet
  rw [hc]
  cases c with
  | wifiMac | wifiMacap | btMac => exact hchoice _ _ _
  | txGain =>
    have hmin : (if rdlen < 84 then rdlen else 84) = if 84 ≤ rdlen then 84 else rdlen := by
      split <;> split <;> omega
    simp only [hmin]
    rfl
  | txAdcCal =>
    simp only [hext rfl, if_true]
    rfl
  | freqErr => exact hword _ _ (by omega) (hext rfl)
  | rfCalFlag => exact hword _ _ (by omega) (hext rfl)
  | txDc | rxDc | txIqGain | rxIqGain | txIqPhase | rxIqPhase => rfl

/-- A member is read from its own bytes. -/
theorem get_congr {s t : State} {opnum : Nat} {c : Cmd} (hc : cmd opnum = some c)
    (hpart : s.gftParam.part c.dest c.size = t.gftParam.part c.dest c.size)
    (hs : c.inExt = true → s.gftParam.ext1Valid = true)
    (ht : c.inExt = true → t.gftParam.ext1Valid = true)
    (buf : Nat → Byte) {rdlen : Nat} (hr : c.count rdlen ≤ c.size) :
    tlsFtParamGet s opnum buf rdlen = tlsFtParamGet t opnum buf rdlen := by
  have hread : s.gftParam.part c.dest (c.count rdlen) = t.gftParam.part c.dest (c.count rdlen) := by
    have hp := FtParam.part_part s.gftParam c.dest (k := 0) (j := c.count rdlen) (n := c.size)
      (by omega)
    rw [hpart, FtParam.part_part _ _ (by omega)] at hp
    exact hp.symm
  rw [get_eq hc hs, get_eq hc ht, hpart, FtParam.copyOut, FtParam.copyOut, hread]

/-! ## The updated record -/

/-- The record that an update writes. -/
def FtParam.updated (hw : Engine) (p : FtParam) (c : Cmd) (data : Nat → Byte) (len : Nat) : FtParam :=
  (p.upgrade.write c.dest (slice data 0 (c.count len))).checksums hw

section Updated

variable (p : FtParam) {c : Cmd} (data : Nat → Byte) {len : Nat} (hfits : c.count len ≤ c.size)

include hfits

theorem ext1Valid_write :
    (p.upgrade.write c.dest (slice data 0 (c.count len))).ext1Valid = true := by
  obtain ⟨hin, h20, h28, _⟩ := c.place
  have hl : (slice data 0 (c.count len)).length = c.count len := slice_length _ _ _
  rw [FtParam.ext1Valid, FtParam.versionNo, FtParam.extParamLen,
    FtParam.part_write_other _ (by omega) (by omega), FtParam.part_write_other _ (by omega) (by omega)]
  exact FtParam.ext1Valid_upgrade p

theorem part_updated_self (hw : Engine) : (p.updated hw c data len).part c.dest c.size =
    slice data 0 (c.count len) ++ (p.upgrade.part c.dest c.size).drop (c.count len) := by
  obtain ⟨hin, _, _, hplace⟩ := c.place
  have hl : (slice data 0 (c.count len)).length = c.count len := slice_length _ _ _
  rw [FtParam.updated, FtParam.part_checksums hw _ (by omega),
    FtParam.part_write_head _ (by omega) (by omega), hl]

theorem part_updated_other {q : Cmd} (hq : c ≠ q) (hext : q.inExt = true → p.ext1Valid = true) :
    (p.updated hw c data len).part q.dest q.size = p.part q.dest q.size := by
  obtain ⟨hin, _, _, _⟩ := c.place
  obtain ⟨_, h20, h28, hplace⟩ := q.place
  have hapart := Cmd.apart c q hq
  have hl : (slice data 0 (c.count len)).length = c.count len := slice_length _ _ _
  rw [FtParam.updated, FtParam.part_checksums hw _ (by omega),
    FtParam.part_write_other _ (by omega) (by omega)]
  rcases hplace with ⟨_, _, h140⟩ | ⟨hin, _⟩
  · exact FtParam.part_upgrade p h20 h28 (by omega)
  · rw [FtParam.upgrade_of_valid (hext hin)]

theorem ext1Valid_updated : (p.updated hw c data len).ext1Valid = true := by
  rw [FtParam.updated, FtParam.ext1Valid_checksums]
  exact ext1Valid_write p data hfits

theorem get_updated {t : State} (ht : t.gftParam = p.updated hw c data len) {opnum : Nat}
    (hcmd : cmd opnum = some c) (buf : Nat → Byte) : tlsFtParamGet t opnum buf len =
      (if c.refused (slice data 0 (c.count len) ++ (p.part c.dest c.size).drop (c.count len))
        then c.copyDefault buf len
        else some (overlay buf 0 (slice data 0 (c.count len)))).map fun buf => (0, buf) := by
  obtain ⟨hin, h20, h28, hplace⟩ := c.place
  have hl : (slice data 0 (c.count len)).length = c.count len := slice_length _ _ _
  have hself := part_updated_self p data hfits hw
  have hread : t.gftParam.copyOut c.dest buf (c.count len) =
      some (overlay buf 0 (slice data 0 (c.count len))) := by
    have hpart := FtParam.part_part t.gftParam c.dest (n := c.size) (k := 0) (j := c.count len)
      (by omega)
    rw [ht, hself, List.drop_zero, List.take_left' hl] at hpart
    rw [FtParam.copyOut, if_pos (by omega), ht]
    exact congrArg (fun bs => some (overlay buf 0 bs)) hpart.symm
  rw [get_eq hcmd fun _ => ht ▸ ext1Valid_updated p data hfits, hread, ht, hself]
  -- the members of the extension are not refused, whatever is in them
  rcases hplace with ⟨_, _, h140⟩ | ⟨hext, _⟩
  · rw [FtParam.part_upgrade p h20 h28 (by omega)]
  · cases c with
    | txAdcCal | freqErr | rfCalFlag => rfl
    | _ => cases hext

theorem get_unchanged {s t : State} (ht : t.gftParam = s.gftParam.updated hw c data len) {q : Nat}
    {cq : Cmd} (hcq : cmd q = some cq) (hne : c ≠ cq)
    (hold : cq.inExt = true → s.gftParam.ext1Valid = true) (buf : Nat → Byte) {rdlen : Nat}
    (hr : cq.count rdlen ≤ cq.size) : tlsFtParamGet t q buf rdlen = tlsFtParamGet s q buf rdlen := by
  apply get_congr hcq _ (fun _ => ht ▸ ext1Valid_updated _ data hfits) hold buf hr
  rw [ht]
  exact part_updated_other _ data hfits hne hold

/-- A call that gets past the repair succeeds, and the next boot loads the updated record. -/
theorem update_spec {s : State} (hd : Installed s.dev) (hrepair : (repairMagicnum hw s).1 = true)
    {opnum : Nat} (hcmd : cmd opnum = some c) (hlen : len ≠ 0) :
    ∃ s', tlsFtParamSet hw true opnum (some data) len s = some (0, s') ∧
      tlsFtParamInit hw true (State.reset s'.dev) =
        (1, { dev := s'.dev, gftParam := s.gftParam.updated hw c data len }) := by
  have hvalid := ext1Valid_write s.gftParam data hfits
  have hin := c.place.1
  have hcheck : ((s.gftParam.updated hw c data len).check hw).1 = 1 := by
    rw [FtParam.updated, FtParam.check_checksums hw hvalid]
  obtain ⟨hram, hd1, _⟩ := repair_snd hw hd
  obtain ⟨s', hsave, _, hd', hcopies, _⟩ := save_ok hw
    { (repairMagicnum hw s).2 with gftParam := s.gftParam.updated hw c data len } hd1
    (stands_of_one hcheck)
  refine ⟨s', ?_, init_of_loads hd' (loads_runtime hcheck (hcopies .runtime))⟩
  rw [set_eq hlen hrepair, hram, hcmd]
  simp only []
  rw [update_eq (by omega) (FtParam.ext1Valid_iff.mp hvalid).2.2.2, Option.map_some]
  exact congrArg some hsave

end Updated

/-! ## Updates after a boot -/

section Boot

variable {d : Dev} {ret : Nat} {s : State}

theorem init_one (hd : Installed d) (h : tlsFtParamInit hw true (State.reset d) = (1, s)) :
    (s.gftParam.check hw).1 = 1 := by
  rw [init_eq hd] at h
  have hret := (Prod.mk.inj h).1
  have hram : s.gftParam = taken (found hw d.mem) := by rw [← (Prod.mk.inj h).2]
  have hcopy : ∀ p : FtParam, (p.check hw).1 = 1 → ((taken (p.check hw)).check hw).1 = 1 := by
    intro p hp
    rw [FtParam.check_of_one hp, taken_one]
    exact hp
  rw [hram]
  unfold found at hret ⊢
  split
  · rename_i h0
    rw [if_pos h0] at hret
    exact hcopy _ hret
  · rename_i h0
    rw [if_neg h0] at hret
    exact hcopy _ hret

/-- A legacy record in whose place of the two members is `0xFFFF` matches its checksum when it has
been loaded. -/
theorem stands_legacy {p : FtParam} (hcheck : p.check hw = (2, p.legacy))
    (hversion : p.versionNo = 0xFFFF) (hlen : p.extParamLen = 0xFFFF) :
    Stands hw (FtParam.erased.write 0 (p.legacy.part 0 140)) := by
  rw [FtParam.legacy_self hversion hlen]
  generalize hr : FtParam.erased.write 0 (p.part 0 140) = r
  have hl : (p.part 0 140).length = 140 := FtParam.part_length p (by omega)
  have hpart : ∀ k n, k + n ≤ 140 → r.part k n = p.part k n := by
    intro k n hkn
    have h := FtParam.part_write_in .erased (k := k) (n := n)
      (show 0 + (p.part 0 140).length ≤ 228 by omega) (by omega)
    rw [hr, FtParam.part_part p _ (by omega), Nat.zero_add] at h
    exact h
  have hrversion : r.versionNo = 0xFFFF := by
    rw [FtParam.versionNo, hpart 20 2 (by omega)]
    exact hversion
  have hrlen : r.extParamLen = 0xFFFF := by
    rw [FtParam.extParamLen, hpart 28 2 (by omega)]
    exact hlen
  obtain ⟨hmagic, hsum⟩ := FtParam.magic_of_check
    (show (p.check hw).1 ≠ 0 by rw [hcheck]; exact Nat.succ_ne_zero 1)
  have hrcheck : r.check hw = (2, r.legacy) := by
    apply FtParam.check_legacy
    · rw [FtParam.magicNo, hpart 0 4 (by omega)]
      exact hmagic
    · rw [FtParam.checksum, hpart 4 4 (by omega), hpart 8 132 (by omega)]
      exact hsum
    · simp [FtParam.ext1Valid, hrversion]
  rw [Stands, hrcheck]
  exact ⟨Nat.succ_ne_zero 1, FtParam.legacy_self hrversion hrlen⟩

/-- After a boot, in which `tls_ft_param_init` has loaded a record with an extension, or one without
for which the repair succeeds: it matches its checksum, the runtime copy does not pass the checks, or
the other copy is the record. A call with data that fit into their member returns 0, and the next boot
loads a record from which `tls_ft_param_get` returns the data, or the default in place of an address
it refuses. All other members read as before, those of the extension if there was one. -/
theorem ft_param_update (hw : Engine) (hd : Installed d)
    (hinit : tlsFtParamInit hw true (State.reset d) = (ret, s))
    (hstate : ret = 1 ∨ Stands hw s.gftParam ∨ ((stored d.mem .runtime).check hw).1 = 0 ∨
      verify hw s .magicnum = true)
    {opnum len : Nat} {c : Cmd} (hcmd : cmd opnum = some c) (data : Nat → Byte) (hlen : len ≠ 0)
    (hfits : c.count len ≤ c.size) :
    ∃ s' s'', tlsFtParamSet hw true opnum (some data) len s = some (0, s') ∧
      tlsFtParamInit hw true (State.reset s'.dev) = (1, s'') ∧
      (∀ buf, tlsFtParamGet s'' opnum buf len =
        (if c.refused (slice data 0 (c.count len) ++ (s.gftParam.part c.dest c.size).drop (c.count len))
          then c.copyDefault buf len
          else some (overlay buf 0 (slice data 0 (c.count len)))).map fun buf => (0, buf)) ∧
      ∀ q rdlen, q ≠ opnum →
        (∀ cq, cmd q = some cq → cq.count rdlen ≤ cq.size ∧ (cq.inExt = true → ret = 1)) →
        ∀ buf, tlsFtParamGet s'' q buf rdlen = tlsFtParamGet s q buf rdlen := by
  have hdev : s.dev = d := by
    rw [init_eq hd] at hinit
    rw [← (Prod.mk.inj hinit).2]
  have hone : ret = 1 → (s.gftParam.check hw).1 = 1 := fun h => init_one hd (h ▸ hinit)
  have hrepair : (repairMagicnum hw s).1 = true := by
    rw [repair_fst (hdev ▸ hd), hdev]
    rcases hstate with h | h | h | h
    · exact .inr (.inr (stands_of_one (hone h)))
    · exact .inr (.inr h)
    · exact .inl h
    · exact .inr (.inl h)
  obtain ⟨s', hset, hboot⟩ := update_spec data hfits (hdev ▸ hd) hrepair hcmd hlen
  generalize ht : State.mk s'.dev (s.gftParam.updated hw c data len) = t at hboot
  have hram : t.gftParam = s.gftParam.updated hw c data len := by rw [← ht]
  refine ⟨s', t, hset, hboot, get_updated _ data hfits hram hcmd, fun q rdlen hq hread buf => ?_⟩
  cases hcq : cmd q with
  | none =>
    unfold tlsFtParamGet
    rw [hcq]
  | some cq =>
    obtain ⟨hr, hret⟩ := hread cq hcq
    have hold : cq.inExt = true → s.gftParam.ext1Valid = true := fun h =>
      (FtParam.check_eq_one.mp (hone (hret h))).2.2.1
    have hne : c ≠ cq := by
      rintro rfl
      exact hq ((Cmd.cmd_eq_some hcq).trans (Cmd.cmd_eq_some hcmd).symm)
    exact get_unchanged data hfits hram hcq hne hold buf hr

end Boot

/-- A legacy record. -/
def legacyFresh (hw : Engine) : FtParam := FtParam.erased.checksums hw

theorem legacyFresh_spec (hw : Engine) :
    (legacyFresh hw).check hw = (2, (legacyFresh hw).legacy) ∧
      (legacyFresh hw).versionNo = 0xFFFF ∧ (legacyFresh hw).extParamLen = 0xFFFF := by
  refine ⟨FtParam.check_checksums_legacy hw (by decide), ?_, ?_⟩
  · rw [legacyFresh, FtParam.versionNo_checksums]
    decide
  · rw [legacyFresh, FtParam.extParamLen_checksums]
    decide

theorem wifiMac_whole (p : FtParam) (data : Nat → Byte) :
    slice data 0 (Cmd.wifiMac.count 6) ++
      (p.part Cmd.wifiMac.dest Cmd.wifiMac.size).drop (Cmd.wifiMac.count 6) = slice data 0 6 := by
  have hl : (p.part 8 6).length = 6 := FtParam.part_length p (by omega)
  exact (congrArg _ (List.drop_eq_nil_of_le (Nat.le_of_eq hl))).trans (List.append_nil _)

/-- The station address of a legacy record. -/
theorem ft_param_update_legacy :
    ∃ s s' s'', tlsFtParamInit softEngine true
        (State.reset (mirrored (legacyFresh softEngine)).dev) = (2, s) ∧
      tlsFtParamSet softEngine true 1 (some fun i => BitVec.ofNat 8 (2 * i + 2)) 6 s = some (0, s') ∧
      tlsFtParamInit softEngine true (State.reset s'.dev) = (1, s'') ∧
      ∀ buf, tlsFtParamGet s'' 1 buf 6 =
        some (0, overlay buf 0 [2#8, 4#8, 6#8, 8#8, 10#8, 12#8]) := by
  obtain ⟨hcheck, hversion, hlen⟩ := legacyFresh_spec softEngine
  generalize legacyFresh softEngine = p at hcheck hversion hlen ⊢
  have hd := mirrored_installed p
  have hfound : found softEngine (mirrored p).dev.mem = (2, p.legacy) := by
    rw [found, mirrored_stored, hcheck]
    rfl
  have hinit : tlsFtParamInit softEngine true (State.reset (mirrored p).dev) =
      (2, ⟨(mirrored p).dev, FtParam.erased.write 0 (p.legacy.part 0 140)⟩) := by
    rw [init_eq hd, hfound, taken_two]
  obtain ⟨s', s'', hset, hboot, hget, _⟩ := ft_param_update softEngine hd hinit
    (.inr (.inl (stands_legacy hcheck hversion hlen))) (show cmd 1 = some .wifiMac from rfl)
    (fun i => BitVec.ofNat 8 (2 * i + 2)) (show 6 ≠ 0 by decide) (by decide)
  refine ⟨_, s', s'', hinit, hset, hboot, fun buf => ?_⟩
  rw [hget buf, wifiMac_whole]
  exact congrArg _ (if_neg (by decide))

/-- An address with the group bit is stored, and the default is read in its place. -/
theorem ft_param_filtered :
    tlsFtParamInit softEngine true (State.reset (mirrored (fresh softEngine)).dev) =
        (1, mirrored (fresh softEngine)) ∧
      ∃ s' s'', tlsFtParamSet softEngine true 1 (some fun i => BitVec.ofNat 8 (2 * i + 1)) 6
          (mirrored (fresh softEngine)) = some (0, s') ∧
        tlsFtParamInit softEngine true (State.reset s'.dev) = (1, s'') ∧
        (∀ buf, tlsFtParamGet s'' 1 buf 6 = some (0, overlay buf 0 defaultMac)) ∧
        defaultMac ≠ slice (fun i => BitVec.ofNat 8 (2 * i + 1)) 0 6 := by
  have hp := fresh_check softEngine
  generalize fresh softEngine = p at hp ⊢
  have hloaded := mirrored_loaded hp
  obtain ⟨s', hset, hboot⟩ := update_spec (fun i => BitVec.ofNat 8 (2 * i + 1))
    (show Cmd.wifiMac.count 6 ≤ Cmd.wifiMac.size by decide) hloaded.installed hloaded.repair.1
    (show cmd 1 = some .wifiMac from rfl) (by omega)
  generalize ht : State.mk s'.dev (FtParam.updated _ _ _ _ _) = t at hboot
  have hram : t.gftParam = (mirrored p).gftParam.updated softEngine .wifiMac
    (fun i => BitVec.ofNat 8 (2 * i + 1)) 6 := by rw [← ht]
  refine ⟨init_of_loads hloaded.installed hloaded.loads, s', t, hset, hboot, fun buf => ?_, by decide⟩
  rw [get_updated _ _ (by decide) hram rfl buf, wifiMac_whole]
  exact congrArg _ (if_pos (by decide))

end Efuse
end Air101
