import Air101.Efuse.Steps
import Air101.Storage.Runs

/-!
# Efuse.PowerCut

Power cuts in `tls_ft_param_set`. A call is cut after any number of the erase and program commands it
sends; the next boot loads what is in the flash then, and the next call starts from there.

* `Loads hw m p`: `tls_ft_param_init` finds the record `p` in the flash `m`.
* `Meets`: what a call may copy so that the record stays one with an extension.
* `set_through`: a call that does so goes through states in which the old record or the updated one
  is found.
* `atomic_iff`: no other call does.
* `ft_param_power_cut`: the same after any run of calls, cuts and boots.
-/

namespace Air101
namespace Efuse

open Storage
open Crypto
open Fls

/-! ## Calls, cuts and boots -/

/-- A call of `tls_ft_param_set`, the number of commands after which the power goes, and the heap's
answers to the call and to `tls_ft_param_init` at the boot after it. -/
structure Call where
  heap : Bool
  opnum : Nat
  data : Option (Nat → Byte)
  len : Nat
  cut : Nat
  bootHeap : Bool

section Runs

variable (hw : Engine)

def Call.result (x : Call) (s : State) : Option (Int × State) :=
  tlsFtParamSet hw x.heap x.opnum x.data x.len s

/-- The flash after the first `k` commands on the way from `s` to `s'`. -/
def cutAt (s s' : State) (k : Nat) : Nat → Byte :=
  run s.dev.mem ((commands (s'.dev.log.drop s.dev.log.length)).take k)

/-- The boot that finds `m` in the flash. -/
def reboot (heap : Bool) (s : State) (m : Nat → Byte) : State :=
  (tlsFtParamInit hw heap (State.reset { s.dev with mem := m, log := [] })).2

/-- The state in which the next call is made. A call that has no defined outcome leaves none; the
runs below do not get there. -/
def next (s : State) (x : Call) : State :=
  match x.result hw s with
  | some (_, s') => reboot hw x.bootHeap s (cutAt s s' x.cut)
  | none => s

/-- The updated parameters: the record with the data of the call and new checksums. -/
def Call.updated (x : Call) (p : FtParam) : Option FtParam :=
  (cmd x.opnum).bind fun c => x.data.bind fun data => p.update hw c data x.len

/-- Wherever the call is cut, the boot after it loads the parameters from before the call or exactly
the updated ones. -/
def Atomic (s : State) (x : Call) : Prop :=
  ∃ r s', x.result hw s = some (r, s') ∧ ∀ k,
    (reboot hw x.bootHeap s (cutAt s s' k)).gftParam = s.gftParam ∨
      x.updated hw s.gftParam = some (reboot hw x.bootHeap s (cutAt s s' k)).gftParam

end Runs

/-- The boot after the call gets its buffer. And if the call comes to its copy, that stays inside the
record, and the version number and the extension length are valid with the data laid over it. -/
def Meets (p : FtParam) (x : Call) : Prop :=
  x.bootHeap = true ∧ ∀ c data, x.data = some data → x.len ≠ 0 → x.heap = true →
    cmd x.opnum = some c → c.dest + c.count x.len ≤ 228 ∧
      (p.write c.dest (slice data 0 (c.count x.len))).ext1Valid = true

variable {hw : Engine} {s : State}

/-! ## Loading -/

/-- `tls_ft_param_init` finds the record `p` with an extension: in the runtime copy, or in the other
one when the runtime copy does not pass the checks. -/
def Loads (hw : Engine) (m : Nat → Byte) (p : FtParam) : Prop :=
  (stored m .runtime).check hw = (1, p) ∨
    (((stored m .runtime).check hw).1 = 0 ∧ (stored m .magicnum).check hw = (1, p))

/-- The record in RAM is the one that is found in the flash. -/
structure Loaded (hw : Engine) (s : State) : Prop where
  installed : Installed s.dev
  loads : Loads hw s.dev.mem s.gftParam

theorem Loads.check {m : Nat → Byte} {p : FtParam} (h : Loads hw m p) : (p.check hw).1 = 1 := by
  rcases h with h | ⟨_, h⟩
  · rw [← FtParam.eq_of_check h, h]
  · rw [← FtParam.eq_of_check h, h]

theorem Loads.ext1Valid {m : Nat → Byte} {p : FtParam} (h : Loads hw m p) : p.ext1Valid = true :=
  (FtParam.check_eq_one.mp h.check).2.2.1

theorem loads_runtime {m : Nat → Byte} {p : FtParam} (hp : (p.check hw).1 = 1)
    (h : stored m .runtime = p) : Loads hw m p := by
  left
  rw [h, FtParam.check_of_one hp]

theorem loads_magicnum {m : Nat → Byte} {p : FtParam} (hp : (p.check hw).1 = 1)
    (hrun : ((stored m .runtime).check hw).1 = 0) (h : stored m .magicnum = p) : Loads hw m p := by
  refine .inr ⟨hrun, ?_⟩
  rw [h, FtParam.check_of_one hp]

theorem zero_magicNo : FtParam.zero.magicNo ≠ signatureWord := by decide

/-- The checks of the copy that `tls_ft_param_init` goes by. -/
def found (hw : Engine) (m : Nat → Byte) : Nat × FtParam :=
  if ((stored m .runtime).check hw).1 = 0 then (stored m .magicnum).check hw
  else (stored m .runtime).check hw

/-- What it takes from that copy: the whole record, `FT_PARAM_ST` of a legacy one, or nothing. -/
def taken (r : Nat × FtParam) : FtParam :=
  if r.1 = 1 then r.2 else if r.1 = 2 then FtParam.erased.write 0 (r.2.part 0 140) else .erased

theorem taken_one (p : FtParam) : taken (1, p) = p := if_pos rfl

theorem taken_two (p : FtParam) : taken (2, p) = FtParam.erased.write 0 (p.part 0 140) := rfl

theorem init_eq {d : Dev} (hd : Installed d) : tlsFtParamInit hw true (State.reset d) =
    ((found hw d.mem).1, { dev := d, gftParam := taken (found hw d.mem) }) := by
  have hall : ∀ p : FtParam, FtParam.erased.write 0 (p.part 0 228) = p := by
    intro p
    rw [FtParam.part_all]
    exact FtParam.ofBytes_bytes p
  unfold tlsFtParamInit State.reset found
  rw [if_neg zero_magicNo]
  simp only [ftParamInit_eq hd, hall, Bool.true_eq_false, if_false]
  generalize (if ((stored d.mem .runtime).check hw).1 = 0 then (stored d.mem .magicnum).check hw
    else (stored d.mem .runtime).check hw) = r
  unfold taken
  split
  · rfl
  · split
    · rfl
    · rfl

theorem init_of_loads {d : Dev} (hd : Installed d) {p : FtParam} (h : Loads hw d.mem p) :
    tlsFtParamInit hw true (State.reset d) = (1, { dev := d, gftParam := p }) := by
  have hfound : found hw d.mem = (1, p) := by
    unfold found
    rcases h with h | ⟨h0, h⟩
    · rw [h]
      rfl
    · rw [if_pos h0, h]
  rw [init_eq hd, hfound, taken_one]

theorem reboot_no_buffer (s : State) (m : Nat → Byte) : (reboot hw false s m).gftParam = .erased := by
  unfold reboot tlsFtParamInit State.reset
  rw [if_neg zero_magicNo]
  rfl

theorem Loaded.reboot (hd : Installed s.dev) {m : Nat → Byte} {p : FtParam} (h : Loads hw m p) :
    (Efuse.reboot hw true s m).gftParam = p ∧ Loaded hw (Efuse.reboot hw true s m) := by
  have hd' : Installed { s.dev with mem := m, log := [] } := hd
  unfold Efuse.reboot
  rw [init_of_loads hd' h]
  exact ⟨rfl, hd', h⟩

/-! ## One call -/

theorem stored_of_verify (hd : Installed s.dev) {c : Copy} (hext : s.gftParam.ext1Valid = true)
    (h : verify hw s c = true) : stored s.dev.mem c = s.gftParam := by
  obtain ⟨hret, heq⟩ := (verify_iff hd c).mp h
  rcases FtParam.check_cases hw (stored s.dev.mem c) with h0 | h1 | h2
  · exact absurd h0 hret
  · rw [h1] at heq
    exact heq
  · -- the record of a legacy copy has no valid version number
    rw [h2] at heq
    have hversion := FtParam.versionNo_legacy (stored s.dev.mem c)
    rw [show (stored s.dev.mem c).legacy = s.gftParam from heq] at hversion
    have hvalid := (FtParam.ext1Valid_iff.mp hext).2.1
    omega

/-- The repair succeeds, the record is found in every state on its way, and afterwards it is in the
copy at `FT_MAGICNUM_ADDR`. -/
theorem Loaded.repair (h : Loaded hw s) : (repairMagicnum hw s).1 = true ∧
    stored (repairMagicnum hw s).2.dev.mem .magicnum = s.gftParam ∧
      s.dev.Through (fun m => Loads hw m s.gftParam) (repairMagicnum hw s).2.dev := by
  have hd := h.installed
  have hcheck := h.loads.check
  refine ⟨(repair_fst hd).mpr (.inr (.inr (stands_of_one hcheck))), ?_⟩
  unfold repairMagicnum
  rw [ftParamInit_eq hd]
  rcases h.loads with hrun | ⟨hrun, hmagic⟩
  · rw [if_neg (by rw [hrun]; exact Nat.one_ne_zero)]
    split
    · rename_i hver
      exact ⟨stored_of_verify hd h.loads.ext1Valid hver, Dev.Through.refl h.loads⟩
    · refine ⟨(stored_store hd .magicnum).1, store_through hd .magicnum ?_⟩
      intro m hother _
      exact loads_runtime hcheck (hother.trans (FtParam.eq_of_check hrun))
  · rw [if_pos hrun]
    exact ⟨FtParam.eq_of_check hmagic, Dev.Through.refl h.loads⟩

theorem Loaded.save (h : Loaded hw s) {u : FtParam} (hu : (u.check hw).1 = 1) :
    ∃ s', Efuse.save hw { (repairMagicnum hw s).2 with gftParam := u } = (0, s') ∧
      s.dev.Through (fun m => Loads hw m s.gftParam ∨ Loads hw m u) s'.dev ∧
      ∀ c, stored s'.dev.mem c = u := by
  obtain ⟨_, hmagic, hthrough⟩ := h.repair
  obtain ⟨_, hd, hrun⟩ := repair_snd hw h.installed
  obtain ⟨s', hsave, _, _, hcopies, hway⟩ := save_ok hw
    { (repairMagicnum hw s).2 with gftParam := u } hd (stands_of_one hu)
  refine ⟨s', hsave, (hthrough.mono fun m hm => .inl hm).trans (hway.mono ?_), hcopies⟩
  intro m hm
  rcases hm with hnew | ⟨hm, hold | herased⟩
  · exact .inr (loads_runtime hu hnew)
  · -- the runtime copy is not erased yet
    left
    rcases h.loads with hl | ⟨hl, _⟩
    · refine loads_runtime h.loads.check ?_
      rw [hold, hrun]
      exact FtParam.eq_of_check hl
    · refine loads_magicnum h.loads.check ?_ (hm.trans hmagic)
      rw [hold, hrun]
      exact hl
  · -- the other copy still has the old record
    left
    refine loads_magicnum h.loads.check ?_ (hm.trans hmagic)
    rw [herased, FtParam.erased_check]

theorem Through.cutAt {G : (Nat → Byte) → Prop} {s' : State} (h : s.dev.Through G s'.dev) :
    (∀ k, G (Efuse.cutAt s s' k)) ∧ ∃ k, Efuse.cutAt s s' k = s'.dev.mem := by
  obtain ⟨es, hlog, hmem, hg⟩ := h
  have hdrop : s'.dev.log.drop s.dev.log.length = es := by rw [hlog, List.drop_left]
  refine ⟨fun k => ?_, (commands es).length, ?_⟩
  · rw [Efuse.cutAt, hdrop]
    exact hg k
  · rw [Efuse.cutAt, hdrop, List.take_length, hmem]

/-- A call that copies what it may goes through states in which the old record or the updated one is
found. -/
theorem set_through (h : Loaded hw s) {x : Call} (hx : Meets s.gftParam x) :
    ∃ r s', x.result hw s = some (r, s') ∧
      s.dev.Through (fun m => Loads hw m s.gftParam ∨
        ∃ u, x.updated hw s.gftParam = some u ∧ Loads hw m u) s'.dev := by
  obtain ⟨_, hcopy⟩ := hx
  have hstay : s.dev.Through (fun m => Loads hw m s.gftParam ∨
      ∃ u, x.updated hw s.gftParam = some u ∧ Loads hw m u) s.dev := Dev.Through.refl (.inl h.loads)
  cases hdata : x.data with
  | none => exact ⟨-1, s, by rw [Call.result, hdata]; rfl, hstay⟩
  | some data =>
    by_cases hearly : x.len = 0 ∨ x.heap = false
    · refine ⟨-1, s, ?_, hstay⟩
      unfold Call.result tlsFtParamSet
      rw [hdata]
      exact if_pos hearly
    · have hlen : x.len ≠ 0 := fun h0 => hearly (.inl h0)
      have hheap : x.heap = true := by simpa using fun h0 => hearly (.inr h0)
      obtain ⟨hrepair, _, hthrough⟩ := h.repair
      have hram := (repair_snd hw h.installed).1
      have hup := FtParam.upgrade_of_valid h.loads.ext1Valid
      rw [Call.result, hdata, hheap, set_eq hlen hrepair, hram, hup]
      cases hcmd : cmd x.opnum with
      | none => exact ⟨-1, _, rfl, hthrough.mono fun m hm => .inl hm⟩
      | some c =>
        obtain ⟨hin, hext⟩ := hcopy c data hdata hlen hheap hcmd
        have hup : s.gftParam.update hw c data x.len = some _ :=
          update_eq hin (FtParam.ext1Valid_iff.mp hext).2.2.2
        obtain ⟨s', hsave, hway, _⟩ := h.save (u := _) (by rw [FtParam.check_checksums hw hext])
        refine ⟨0, s', ?_, hway.mono ?_⟩
        · simp only [hup, Option.map_some, hsave]
        · intro m hm
          rcases hm with hm | hm
          · exact .inl hm
          · refine .inr ⟨_, ?_, hm⟩
            rw [Call.updated, hcmd, hdata]
            exact hup

theorem atomic_of_meets (h : Loaded hw s) {x : Call} (hx : Meets s.gftParam x) : Atomic hw s x := by
  obtain ⟨r, s', hres, hthrough⟩ := set_through h hx
  refine ⟨r, s', hres, fun k => ?_⟩
  rw [hx.1]
  rcases (Through.cutAt hthrough).1 k with hold | ⟨u, hu, hnew⟩
  · exact .inl (Loaded.reboot h.installed hold).1
  · rw [(Loaded.reboot h.installed hnew).1]
    exact .inr hu

theorem Loaded.next (h : Loaded hw s) {x : Call} (hx : Meets s.gftParam x) :
    Loaded hw (Efuse.next hw s x) := by
  obtain ⟨r, s', hres, hthrough⟩ := set_through h hx
  unfold Efuse.next
  rw [hres, hx.1]
  rcases (Through.cutAt hthrough).1 x.cut with hold | ⟨u, _, hnew⟩
  · exact (Loaded.reboot h.installed hold).2
  · exact (Loaded.reboot h.installed hnew).2

/-! ## Calls that copy too much -/

theorem reboot_legacy (hd : Installed s.dev) {m : Nat → Byte} {u : FtParam}
    (h : (stored m .runtime).check hw = (2, u.legacy)) :
    (reboot hw true s m).gftParam.extParamLen = 0xFFFF := by
  have hd' : Installed { s.dev with mem := m, log := [] } := hd
  have hlen : (u.legacy.part 0 140).length = 140 := FtParam.part_length _ (by omega)
  have hfound : found hw m = (2, u.legacy) := by
    unfold found
    rw [h]
    rfl
  unfold reboot
  rw [init_eq hd', hfound, taken_two]
  have hpart := FtParam.part_write_in .erased (k := 28) (n := 2)
    (show 0 + (u.legacy.part 0 140).length ≤ 228 by omega) (by omega)
  rw [FtParam.part_part _ _ (by omega)] at hpart
  rw [← FtParam.extParamLen_legacy u]
  exact congrArg leNat hpart

theorem not_atomic_no_buffer (h : Loaded hw s) {x : Call} (hboot : x.bootHeap = false) :
    ¬ Atomic hw s x := by
  have hmagic : FtParam.erased.magicNo ≠ signatureWord := by decide
  rintro ⟨r, s', _, hcut⟩
  have hzero := hcut 0
  rw [hboot, reboot_no_buffer] at hzero
  rcases hzero with hold | hnew
  · apply hmagic
    rw [hold]
    exact (FtParam.check_eq_one.mp h.loads.check).1
  · obtain ⟨c, _, hnew⟩ := Option.bind_eq_some_iff.mp hnew
    obtain ⟨data, _, hnew⟩ := Option.bind_eq_some_iff.mp hnew
    apply hmagic
    rw [(update_some hnew).2.2, FtParam.magicNo_checksums]

/-- The copy leaves the record, or its data make the extension invalid: then the runtime copy ends up
with a record that is taken for a legacy one. -/
theorem not_atomic_copy (h : Loaded hw s) {x : Call} (hboot : x.bootHeap = true) {c : Cmd}
    {data : Nat → Byte} (hdata : x.data = some data) (hlen : x.len ≠ 0) (hheap : x.heap = true)
    (hcmd : cmd x.opnum = some c) (hbad : ¬ (c.dest + c.count x.len ≤ 228 ∧
      (s.gftParam.write c.dest (slice data 0 (c.count x.len))).ext1Valid = true)) :
    ¬ Atomic hw s x := by
  rintro ⟨r, s', hres, hcut⟩
  obtain ⟨hrepair, _, hthrough⟩ := h.repair
  obtain ⟨hram, hd, _⟩ := repair_snd hw h.installed
  rw [Call.result, hdata, hheap, set_eq hlen hrepair, hram,
    FtParam.upgrade_of_valid h.loads.ext1Valid, hcmd] at hres
  obtain ⟨u, hu, hsave⟩ := Option.map_eq_some_iff.mp hres
  obtain ⟨hin, hext, rfl⟩ := update_some hu
  have hinvalid : (s.gftParam.write c.dest (slice data 0 (c.count x.len))).ext1Valid = false := by
    simpa using fun hvalid => hbad ⟨hin, hvalid⟩
  obtain ⟨hrun, hway⟩ := save_runtime hw { (repairMagicnum hw s).2 with
    gftParam := (s.gftParam.write c.dest (slice data 0 (c.count x.len))).checksums hw } hd
  rw [hsave] at hrun hway
  obtain ⟨k, hend⟩ := (Through.cutAt ((hthrough.mono fun _ _ => trivial).trans hway)).2
  have hloaded : (reboot hw true s (cutAt s s' k)).gftParam.extParamLen = 0xFFFF := by
    apply reboot_legacy h.installed
    rw [hend, hrun]
    exact FtParam.check_checksums_legacy hw hinvalid
  have hold := (FtParam.ext1Valid_iff.mp h.loads.ext1Valid).2.2.2
  rcases hboot ▸ hcut k with heq | heq
  · rw [heq] at hloaded
    omega
  · rw [Call.updated, hcmd, hdata] at heq
    have hnew := (update_some (show s.gftParam.update hw c data x.len = some _ from heq)).2.2
    rw [hnew, FtParam.extParamLen_checksums] at hloaded
    omega

/-- Exactly the calls that copy what they may are atomic. -/
theorem atomic_iff (h : Loaded hw s) (x : Call) : Atomic hw s x ↔ Meets s.gftParam x := by
  refine ⟨fun hatomic => ?_, atomic_of_meets h⟩
  cases hboot : x.bootHeap with
  | false => exact absurd hatomic (not_atomic_no_buffer h hboot)
  | true =>
    refine ⟨hboot, fun c data hdata hlen hheap hcmd => ?_⟩
    by_contra hbad
    exact not_atomic_copy h hboot hdata hlen hheap hcmd hbad hatomic

/-- Data that end in front of the two members that say whether there is an extension, or begin behind
them, may be copied. -/
theorem meets_of_apart {p : FtParam} (hp : p.ext1Valid = true) {x : Call} (hboot : x.bootHeap = true)
    (h : ∀ c, cmd x.opnum = some c → c.dest + c.count x.len ≤ 228 ∧
      (c.dest + c.count x.len ≤ 20 ∨ 22 ≤ c.dest) ∧ (c.dest + c.count x.len ≤ 28 ∨ 30 ≤ c.dest)) :
    Meets p x := by
  refine ⟨hboot, fun c data _ _ _ hcmd => ?_⟩
  obtain ⟨hin, h20, h28⟩ := h c hcmd
  have hl : (slice data 0 (c.count x.len)).length = c.count x.len := slice_length _ _ _
  refine ⟨hin, ?_⟩
  rw [FtParam.ext1Valid, FtParam.versionNo, FtParam.extParamLen,
    FtParam.part_write_other p (by omega) (by omega), FtParam.part_write_other p (by omega) (by omega)]
  exact hp

/-! ## Runs -/

/-- Both copies and RAM have the same record `s.gftParam` with an extension. Any calls that copy what
they may follow, each cut somewhere, with a boot behind it: each of them is atomic, and a further call
is exactly when it does so too. -/
theorem ft_param_power_cut (hw : Engine) {s : State} (hd : Installed s.dev)
    (hp : (s.gftParam.check hw).1 = 1) (hcopies : ∀ c, stored s.dev.mem c = s.gftParam)
    (xs : List Call) (hxs : ∀ q ∈ trace (next hw) s xs, Meets q.1.gftParam q.2) :
    (∀ q ∈ trace (next hw) s xs, Atomic hw q.1 q.2) ∧
      ∀ x, Atomic hw (runs (next hw) s xs) x ↔ Meets (runs (next hw) s xs).gftParam x := by
  have hs : Loaded hw s := ⟨hd, loads_runtime hp (hcopies .runtime)⟩
  obtain ⟨hall, hend⟩ := trace_inv (Loaded hw) (fun s x => Meets s.gftParam x)
    (fun s x hx h => h.next hx) hxs hs
  exact ⟨fun q hq => (atomic_iff (hall q hq) q.2).mpr (hxs q hq), atomic_iff hend⟩

/-- Both copies and RAM with the record `p`, in a chip of 2 MB. -/
def mirrored (p : FtParam) : State :=
  { dev :=
      { insideFls := some 0x200000
        mem := overlay (overlay (fun _ => 0xFF#8) 0 p.bytes) 0x1000 p.bytes
        log := [] }
    gftParam := p }

theorem mirrored_installed (p : FtParam) : Installed (mirrored p).dev := ⟨0x200000, rfl, by decide⟩

theorem mirrored_stored (p : FtParam) (c : Copy) : stored (mirrored p).dev.mem c = p := by
  have hl := p.length_eq
  apply stored_eq_of_slice
  cases c with
  | magicnum =>
    have hfront := slice_overlay (fun _ => 0xFF#8) 0 p.bytes
    rw [hl] at hfront
    exact (slice_overlay_out (.inl (by decide))).trans hfront
  | runtime =>
    have hback := slice_overlay (overlay (fun _ => 0xFF#8) 0 p.bytes) 0x1000 p.bytes
    rw [hl] at hback
    exact hback

theorem mirrored_loaded {p : FtParam} (hp : (p.check hw).1 = 1) : Loaded hw (mirrored p) :=
  ⟨mirrored_installed p, loads_runtime hp (mirrored_stored p .runtime)⟩

/-- A record with an empty extension. -/
def fresh (hw : Engine) : FtParam := FtParam.erased.upgrade.checksums hw

theorem fresh_check (hw : Engine) : ((fresh hw).check hw).1 = 1 := by
  rw [fresh, FtParam.check_checksums hw (FtParam.ext1Valid_upgrade _)]

/-- A call with memory for its buffer and for the boot after it. -/
def setCall (opnum : Nat) (data : Nat → Byte) (len cut : Nat) : Call :=
  ⟨true, opnum, some data, len, cut, true⟩

/-- The station address is set and the power goes when the runtime copy is erased; the access point's
address is set at the next boot. -/
theorem ft_param_power_cut_addresses :
    Atomic softEngine (mirrored (fresh softEngine)) (setCall 1 (fun _ => 2#8) 6 1) ∧
      Atomic softEngine (next softEngine (mirrored (fresh softEngine)) (setCall 1 (fun _ => 2#8) 6 1))
        (setCall 2 (fun _ => 4#8) 6 20) := by
  have hp := fresh_check softEngine
  generalize fresh softEngine = p at hp ⊢
  have hloaded := mirrored_loaded hp
  have hx : Meets p (setCall 1 (fun _ => 2#8) 6 1) := by
    apply meets_of_apart hloaded.loads.ext1Valid rfl
    rintro c ⟨⟩
    decide
  have hy : Meets (next softEngine (mirrored p) (setCall 1 (fun _ => 2#8) 6 1)).gftParam
      (setCall 2 (fun _ => 4#8) 6 20) := by
    apply meets_of_apart (hloaded.next hx).loads.ext1Valid rfl
    rintro c ⟨⟩
    decide
  obtain ⟨hall, hmore⟩ := ft_param_power_cut softEngine (mirrored_installed p) hp
    (mirrored_stored p) [setCall 1 (fun _ => 2#8) 6 1] (by
      intro q hq
      rw [trace, trace, List.mem_singleton] at hq
      rw [hq]
      exact hx)
  have hfirst := hall (mirrored p, setCall 1 (fun _ => 2#8) 6 1) List.mem_cons_self
  rw [runs_cons, runs_nil] at hmore
  exact ⟨hfirst, (hmore _).mpr hy⟩

/-- Eight bytes for the access point's address, the last two zero: they overwrite the version number,
and the boot after the call loads neither record. -/
theorem ft_param_torn :
    ((fresh softEngine).check softEngine).1 = 1 ∧
      (∀ c, stored (mirrored (fresh softEngine)).dev.mem c = fresh softEngine) ∧
      ¬ Atomic softEngine (mirrored (fresh softEngine))
        (setCall 2 (fun i => if i < 6 then 2#8 else 0#8) 8 20) := by
  have hp := fresh_check softEngine
  generalize fresh softEngine = p at hp ⊢
  refine ⟨hp, mirrored_stored p, ?_⟩
  rw [atomic_iff (mirrored_loaded hp)]
  rintro ⟨_, hcopy⟩
  obtain ⟨_, hext⟩ := hcopy .wifiMacap _ rfl (by decide) rfl rfl
  have hversion := (FtParam.ext1Valid_iff.mp hext).1
  have hzero : (p.write 14 (slice (fun i => if i < 6 then 2#8 else 0#8) 0 8)).versionNo = 0 := by
    rw [FtParam.versionNo, show 20 = 14 + 6 from rfl,
      FtParam.part_write_in p (k := 6) (n := 2) (by decide) (by decide)]
    decide
  exact absurd hzero (Nat.pos_iff_ne_zero.mp hversion)

end Efuse
end Air101
