import Mathlib.Algebra.Ring.Int.Defs
import Mathlib.Algebra.Ring.Nat
import Air101.Storage.Fields

/-!
# Pwm.Driver

The PWM driver (`platform/drivers/pwm/wm_pwm.c`). A call of the driver returns a status and the
register writes it makes, each a read, modify and write of one bit field (`Storage.RegField`). No call
looks at what it reads, so the writes do not depend on the registers.

* `fullPathWrites_run`: `tls_pwm_stop`, `tls_pwm_init`, `tls_pwm_start` in a row are the same as the
  list `settings`, in which no bit is written twice (`allSettings_compatible`).
* `settings_foreign`, `settings_capture`, `settings_stop`: the settings of a channel survive what the
  driver does to another one.
-/

namespace Air101
namespace Pwm

open Storage

/-- The `HR_PWM_*` registers these functions write. -/
inductive Reg where
  | clkdiv01
  | clkdiv23
  | ctl
  | period
  | pnum
  | cmpdat
  | inten
  | brkctl
  | ch4Reg1
  | ch4Reg2
  | cap2ctl
  deriving DecidableEq

abbrev Regs := Reg → BitVec 32

abbrev Write := RegField Reg

/-- `WM_SUCCESS` and `WM_FAILED`. -/
def wmSuccess : Int := 0
def wmFailed : Int := -1

/-- What a driver call returns, and the writes it makes. -/
abbrev Done := Int × List Write

/-- `write(r, read(r) | BIT(i))`. -/
def setBit (r : Reg) (i : Nat) : Write := ⟨r, i, 1, 1#1⟩

/-- `write(r, read(r) & ~BIT(i))`. -/
def clearBit (r : Reg) (i : Nat) : Write := ⟨r, i, 1, 0#1⟩

def writeBit (r : Reg) (i : Nat) (en : Bool) : Write := if en then setBit r i else clearBit r i

inductive OutMode where
  | brake
  | allsyc
  | twoSyc
  | mc
  | indpt
  deriving DecidableEq

inductive CntType where
  | edgeAlignCap
  | edgeAlignOut
  | centerAlign
  deriving DecidableEq

inductive CapIntType where
  | risingEdge
  | fallingEdge
  | risingFallingEdge
  | dma
  deriving DecidableEq

def tlsPwmStart (channel : Nat) : Done :=
  if 4 < channel then (wmFailed, []) else (wmSuccess, [setBit .ctl (27 + channel)])

def tlsPwmStop (channel : Nat) : Done :=
  if 4 < channel then (wmFailed, []) else (wmSuccess, [clearBit .ctl (27 + channel)])

/-- A duty of 0 stops the counter and leaves the duty field as it is. -/
def tlsPwmDutyConfig (channel : Nat) (duty : BitVec 8) : Done :=
  if 4 < channel then (wmFailed, [])
  else if duty = 0 then (wmSuccess, (tlsPwmStop channel).2)
  else if channel = 4 then (wmSuccess, [⟨.ch4Reg2, 8, 8, duty⟩])
  else (wmSuccess, [⟨.cmpdat, channel * 8, 8, duty⟩])

/-- `HR_PWM_CLKDIV01 + (channel / 2) * 4`. -/
def clkdivReg (channel : Nat) : Reg := if channel / 2 = 0 then .clkdiv01 else .clkdiv23

def tlsPwmFreqConfig (channel : Nat) (clkdiv : BitVec 16) (period : BitVec 8) : Done :=
  if 4 < channel then (wmFailed, [])
  else if channel = 4 then (wmSuccess, [⟨.ch4Reg1, 16, 16, clkdiv⟩, ⟨.ch4Reg1, 8, 8, period⟩])
  else (wmSuccess, [⟨clkdivReg channel, channel % 2 * 16, 16, clkdiv⟩, ⟨.period, channel * 8, 8, period⟩])

def tlsPwmOutModeConfig (channel : Nat) (mode : OutMode) : Done :=
  if 4 < channel then (wmFailed, [])
  else match mode with
    | .brake => (wmSuccess, [setBit .brkctl (11 + channel)])
    | .allsyc =>
      if channel ≠ 0 then (wmFailed, [])
      else (wmSuccess, [⟨.brkctl, 11, 5, 0⟩, setBit .ctl 6])
    | .twoSyc =>
      if channel ≠ 0 ∧ channel ≠ 2 then (wmFailed, [])
      else (wmSuccess, [⟨.brkctl, 11 + channel, 2, 0⟩, clearBit .ctl 6, setBit .ctl (14 + channel / 2)])
    | .mc =>
      if channel ≠ 0 ∧ channel ≠ 2 then (wmFailed, [])
      else (wmSuccess, [⟨.brkctl, 11 + channel, 2, 0⟩, clearBit .ctl 6, clearBit .ctl (14 + channel / 2),
        setBit .ctl (0 + channel / 2)])
    | .indpt =>
      (wmSuccess, clearBit .ctl 6 ::
        (if channel ≠ 4 then [clearBit .ctl (0 + channel / 2), clearBit .ctl (14 + channel / 2)] else []) ++
        [clearBit .brkctl (11 + channel)])

/-- Channel 0 in capture mode is configured and then reported as failed. -/
def tlsPwmCntTypeConfig (channel : Nat) (cntType : CntType) : Done :=
  if 4 < channel then (wmFailed, [])
  else if channel = 4 then
    match cntType with
    | .edgeAlignCap => (wmSuccess, [clearBit .ch4Reg2 4, clearBit .ch4Reg2 3])
    | .edgeAlignOut => (wmSuccess, [clearBit .ch4Reg2 4, setBit .ch4Reg2 3])
    | .centerAlign => (wmSuccess, [setBit .ch4Reg2 4, clearBit .ch4Reg2 3])
  else
    match cntType with
    | .edgeAlignCap => (wmFailed, if channel = 0 then [clearBit .ctl 17, clearBit .ctl 16] else [])
    | .edgeAlignOut => (wmSuccess, [clearBit .ctl (17 + channel * 2), setBit .ctl (16 + channel * 2)])
    | .centerAlign => (wmSuccess, [setBit .ctl (17 + channel * 2), clearBit .ctl (16 + channel * 2)])

def tlsPwmLoopModeConfig (channel : Nat) (loop : Bool) : Done :=
  if 4 < channel then (wmFailed, [])
  else if channel = 4 then (wmSuccess, [writeBit .ch4Reg2 1 loop])
  else (wmSuccess, [writeBit .ctl (8 + channel) loop])

def tlsPwmOutInverseCmd (channel : Nat) (en : Bool) : Done :=
  if 4 < channel then (wmFailed, [])
  else if channel = 4 then (wmSuccess, [writeBit .ch4Reg2 0 en])
  else (wmSuccess, [writeBit .ctl (2 + channel) en])

def tlsPwmStoptimeByPeriodConfig (channel : Nat) (pnum : BitVec 8) : Done :=
  if 4 < channel then (wmFailed, [])
  else if channel = 4 then (wmSuccess, [⟨.ch4Reg1, 0, 8, pnum⟩])
  else (wmSuccess, [⟨.pnum, channel * 8, 8, pnum⟩])

def tlsPwmStoptimeIrqCmd (channel : Nat) (en : Bool) : Done :=
  if 4 < channel then (wmFailed, [])
  else if channel = 4 then (wmSuccess, [writeBit .inten 4 en])
  else (wmSuccess, [writeBit .inten channel en])

/-- The output is enabled by a 0. -/
def tlsPwmOutputEnCmd (channel : Nat) (en : Bool) : Done :=
  if channel ≠ 0 ∧ channel ≠ 4 then (wmFailed, [])
  else if channel = 4 then (wmSuccess, [writeBit .cap2ctl 2 !en])
  else (wmSuccess, [writeBit .ctl 12 !en])

def tlsPwmCaptureInverseCmd (channel : Nat) (en : Bool) : Done :=
  if channel ≠ 0 ∧ channel ≠ 4 then (wmFailed, [])
  else if channel = 0 then (wmSuccess, [writeBit .ctl 25 en])
  else (wmSuccess, [writeBit .cap2ctl 0 en])

def tlsPwmCaptureModeConfig (channel : Nat) : Done :=
  if channel ≠ 0 ∧ channel ≠ 4 then (wmFailed, [])
  else if channel = 0 then (wmSuccess, [setBit .ctl 24])
  else (wmSuccess, [setBit .cap2ctl 1])

/-- Three interrupt bits of one register from `lo` on: rising edge, falling edge, DMA. -/
def capIrqWrites (r : Reg) (lo : Nat) : CapIntType → List Write
  | .risingFallingEdge => [setBit r lo, setBit r (lo + 1), clearBit r (lo + 2)]
  | .risingEdge => [setBit r lo, clearBit r (lo + 1), clearBit r (lo + 2)]
  | .fallingEdge => [setBit r (lo + 1), clearBit r lo, clearBit r (lo + 2)]
  | .dma => [setBit r (lo + 2), clearBit r lo, clearBit r (lo + 1)]

def tlsPwmCaptureIrqTypeConfig (channel : Nat) (intType : CapIntType) : Done :=
  if channel ≠ 0 ∧ channel ≠ 4 then (wmFailed, [])
  else if channel = 0 then (wmSuccess, capIrqWrites .inten 5 intType)
  else (wmSuccess, capIrqWrites .cap2ctl 8 intType)

/-- `pwm_init_param` without the mode and the dead zone: `tls_pwm_init`, the only caller here, asks
for the independent mode, in which the dead zone is not configured. -/
structure InitParam where
  channel : Nat
  clkdiv : BitVec 16
  period : BitVec 8
  duty : BitVec 8
  cntType : CntType
  loopType : Bool
  inverseEn : Bool
  pnum : BitVec 8
  pnumInt : Bool

def tlsPwmOutInit (p : InitParam) : Done :=
  if 4 < p.channel then (wmFailed, [])
  else
    let mode := tlsPwmOutModeConfig p.channel .indpt
    if mode.1 ≠ wmSuccess then (wmFailed, mode.2)
    else (wmSuccess, mode.2 ++
      (tlsPwmCntTypeConfig p.channel p.cntType).2 ++
      (tlsPwmFreqConfig p.channel p.clkdiv p.period).2 ++
      (tlsPwmDutyConfig p.channel p.duty).2 ++
      (tlsPwmLoopModeConfig p.channel p.loopType).2 ++
      (tlsPwmOutInverseCmd p.channel p.inverseEn).2 ++
      (tlsPwmStoptimeByPeriodConfig p.channel p.pnum).2 ++
      (tlsPwmStoptimeIrqCmd p.channel p.pnumInt).2 ++
      (if p.channel = 0 ∨ p.channel = 4 then (tlsPwmOutputEnCmd p.channel true).2 else []))

/-- `sysclk.apbclk*UNIT_MHZ/256/freq`, cut to the 16 bits of `clkdiv`. -/
def clkdivOf (apbclk freq : Nat) : BitVec 16 := BitVec.ofNat 16 (apbclk * 1000000 % 2 ^ 32 / 256 / freq)

/-- `tls_pwm_init`; the duty and the pulse number are cut to 8 bits. -/
def tlsPwmInit (apbclk channel freq duty pnum : Nat) : Done :=
  tlsPwmOutInit {
    channel := channel
    clkdiv := clkdivOf apbclk freq
    period := 255
    duty := BitVec.ofNat 8 duty
    cntType := .edgeAlignOut
    loopType := true
    inverseEn := false
    pnum := BitVec.ofNat 8 pnum
    pnumInt := false }

def tlsPwmCapInit (channel : Nat) (clkdiv : BitVec 16) (inverseEn : Bool) (intType : CapIntType) : Done :=
  if channel ≠ 0 ∧ channel ≠ 4 then (wmFailed, [])
  else (wmSuccess,
    (tlsPwmFreqConfig channel clkdiv 0xFF).2 ++
    (tlsPwmCaptureInverseCmd channel inverseEn).2 ++
    (tlsPwmCaptureModeConfig channel).2 ++
    (tlsPwmCntTypeConfig channel .edgeAlignCap).2 ++
    (if channel = 0 then (tlsPwmOutputEnCmd channel false).2 else []) ++
    (tlsPwmLoopModeConfig channel true).2 ++
    (tlsPwmCaptureIrqTypeConfig channel intType).2)

/-- `tls_pwm_stop`, `tls_pwm_init`, `tls_pwm_start`, one behind the other. -/
def fullPathWrites (apbclk channel freq duty pnum : Nat) : List Write :=
  (tlsPwmStop channel).2 ++ (tlsPwmInit apbclk channel freq duty pnum).2 ++ (tlsPwmStart channel).2

/-- The writes of a capture: stop, `tls_pwm_cap_init`, start. -/
def captureWrites (channel : Nat) (clkdiv : BitVec 16) : List Write :=
  (tlsPwmStop channel).2 ++ (tlsPwmCapInit channel clkdiv false .dma).2 ++ (tlsPwmStart channel).2

/-! ## Settings of a channel -/

/-- The output mode, with the bits that pairs of channels or all of them share. -/
def modeSettings (channel : Nat) : List Write := (tlsPwmOutModeConfig channel .indpt).2

def beforeDuty (channel : Nat) (clkdiv : BitVec 16) : List Write :=
  (tlsPwmCntTypeConfig channel .edgeAlignOut).2 ++ (tlsPwmFreqConfig channel clkdiv 255).2

/-- The duty field of a channel. -/
def dutyField (channel : Nat) (duty : BitVec 8) : Write :=
  if channel = 4 then ⟨.ch4Reg2, 8, 8, duty⟩ else ⟨.cmpdat, channel * 8, 8, duty⟩

/-- A duty of 0 is not written. -/
def dutySettings (channel : Nat) (duty : BitVec 8) : List Write :=
  if duty = 0 then [] else [dutyField channel duty]

def afterDuty (channel : Nat) (pnum : BitVec 8) : List Write :=
  (tlsPwmLoopModeConfig channel true).2 ++ (tlsPwmOutInverseCmd channel false).2 ++
    (tlsPwmStoptimeByPeriodConfig channel pnum).2 ++ (tlsPwmStoptimeIrqCmd channel false).2 ++
    (if channel = 0 ∨ channel = 4 then (tlsPwmOutputEnCmd channel true).2 else []) ++
    (tlsPwmStart channel).2

/-- What the registers hold for a running output. -/
def settings (channel : Nat) (clkdiv : BitVec 16) (duty pnum : BitVec 8) : List Write :=
  modeSettings channel ++ beforeDuty channel clkdiv ++ dutySettings channel duty ++ afterDuty channel pnum

theorem fullPathWrites_eq {channel : Nat} (h : channel ≤ 4) (apbclk freq duty pnum : Nat) :
    fullPathWrites apbclk channel freq duty pnum =
      clearBit .ctl (27 + channel) :: (modeSettings channel ++ beforeDuty channel (clkdivOf apbclk freq) ++
        (tlsPwmDutyConfig channel (BitVec.ofNat 8 duty)).2 ++ afterDuty channel (BitVec.ofNat 8 pnum)) := by
  have hmode : (tlsPwmOutModeConfig channel .indpt).1 = wmSuccess := by
    rw [tlsPwmOutModeConfig, if_neg (by omega)]
  simp only [fullPathWrites, tlsPwmInit, tlsPwmOutInit, hmode, modeSettings, beforeDuty, afterDuty]
  rw [if_neg (by omega), if_neg (by simp), tlsPwmStop, if_neg (by omega)]
  simp only [List.append_assoc, List.cons_append, List.nil_append]

theorem tlsPwmDutyConfig_ne {channel : Nat} (h : channel ≤ 4) {duty : BitVec 8} (hd : duty ≠ 0) :
    tlsPwmDutyConfig channel duty = (wmSuccess, [dutyField channel duty]) := by
  unfold tlsPwmDutyConfig dutyField
  rw [if_neg (by omega), if_neg hd]
  split <;> rfl

theorem tlsPwmDutyConfig_zero {channel : Nat} (h : channel ≤ 4) :
    tlsPwmDutyConfig channel 0 = (wmSuccess, [clearBit .ctl (27 + channel)]) := by
  rw [tlsPwmDutyConfig, if_neg (by omega), if_pos rfl, tlsPwmStop, if_neg (by omega)]

theorem start_mem_afterDuty {channel : Nat} (h : channel ≤ 4) (pnum : BitVec 8) :
    setBit .ctl (27 + channel) ∈ afterDuty channel pnum := by
  apply List.mem_append_right
  rw [tlsPwmStart, if_neg (by omega)]
  exact List.mem_singleton_self _

theorem stop_overwritten {channel : Nat} (h : channel ≤ 4) (m : Regs) (pnum : BitVec 8)
    (fs : List Write) : applyAll ((clearBit .ctl (27 + channel)).apply m) (fs ++ afterDuty channel pnum) =
      applyAll m (fs ++ afterDuty channel pnum) :=
  applyAll_overwritten (List.mem_append_right _ (start_mem_afterDuty h pnum)) fun _ _ hc => hc

/-- The full path amounts to the settings: the counter is started at its end, so that stopping it
before is of no consequence, be it at the start or for a duty of 0. -/
theorem fullPathWrites_run {channel : Nat} (h : channel ≤ 4) (m : Regs) (apbclk freq duty pnum : Nat) :
    applyAll m (fullPathWrites apbclk channel freq duty pnum) =
      applyAll m (settings channel (clkdivOf apbclk freq) (BitVec.ofNat 8 duty) (BitVec.ofNat 8 pnum)) := by
  rw [fullPathWrites_eq h, applyAll_cons, stop_overwritten h]
  unfold settings dutySettings
  split
  · rename_i hz
    have hover := stop_overwritten h
      (applyAll m (modeSettings channel ++ beforeDuty channel (clkdivOf apbclk freq)))
      (BitVec.ofNat 8 pnum) []
    rw [List.nil_append] at hover
    rw [hz, tlsPwmDutyConfig_zero h, List.append_nil, applyAll_append, applyAll_append, applyAll_cons,
      applyAll_nil, hover, ← applyAll_append]
  · rename_i hz
    rw [tlsPwmDutyConfig_ne h hz]

/-! ## Which bits belong to which channel -/

theorem channel_cases {channel : Nat} (h : channel ≤ 4) :
    channel = 0 ∨ channel = 1 ∨ channel = 2 ∨ channel = 3 ∨ channel = 4 := by
  omega

/-- The settings that no other channel shares. -/
def ownSettings (channel : Nat) (clkdiv : BitVec 16) (duty pnum : BitVec 8) : List Write :=
  beforeDuty channel clkdiv ++ dutyField channel duty :: afterDuty channel pnum

/-- The settings with the duty field in any case. -/
def allSettings (channel : Nat) (clkdiv : BitVec 16) (duty pnum : BitVec 8) : List Write :=
  modeSettings channel ++ ownSettings channel clkdiv duty pnum

theorem settings_subset {channel : Nat} {clkdiv : BitVec 16} {duty pnum : BitVec 8} {f : Write}
    (hf : f ∈ settings channel clkdiv duty pnum) : f ∈ allSettings channel clkdiv duty pnum := by
  simp only [settings, dutySettings, allSettings, ownSettings, List.mem_append, List.mem_cons] at hf ⊢
  rcases hf with ((hf | hf) | hf) | hf
  · exact .inl hf
  · exact .inr (.inl hf)
  · split at hf
    · exact absurd hf List.not_mem_nil
    · exact .inr (.inr (.inl (List.mem_singleton.mp hf)))
  · exact .inr (.inr (.inr hf))

theorem ownSettings_regions {channel : Nat} (h : channel ≤ 4) (clkdiv : BitVec 16) (duty pnum : BitVec 8) :
    (ownSettings channel clkdiv duty pnum).map RegField.region =
      (ownSettings channel 0 0 0).map RegField.region := by
  rcases channel_cases h with rfl | rfl | rfl | rfl | rfl <;> rfl

theorem captureWrites_regions {channel : Nat} (h : channel = 0 ∨ channel = 4) (clkdiv : BitVec 16) :
    (captureWrites channel clkdiv).map RegField.region = (captureWrites channel 0).map RegField.region := by
  rcases h with rfl | rfl <;> rfl

theorem regions_apart : ∀ channel ∈ List.range 5,
    ((allSettings channel 0 0 0).map RegField.region).Pairwise Apart := by
  decide

/-- Two channels share the mode bits only, and both clear them. -/
theorem modes_compatible : ∀ a ∈ List.range 5, ∀ b ∈ List.range 5,
    ∀ f ∈ modeSettings a, ∀ g ∈ modeSettings b, f.Compatible g := by
  decide

theorem modes_apart : ∀ a ∈ List.range 5, ∀ b ∈ List.range 5,
    ∀ x ∈ (modeSettings a).map RegField.region, ∀ y ∈ (ownSettings b 0 0 0).map RegField.region, Apart x y := by
  decide

theorem own_apart : ∀ a ∈ List.range 5, ∀ b ∈ List.range 5, a ≠ b →
    ∀ x ∈ (ownSettings a 0 0 0).map RegField.region, ∀ y ∈ (ownSettings b 0 0 0).map RegField.region,
      Apart x y := by
  decide

theorem capture_apart : ∀ a ∈ List.range 5, ∀ b ∈ [0, 4], a ≠ b →
    ∀ x ∈ (allSettings a 0 0 0).map RegField.region, ∀ y ∈ (captureWrites b 0).map RegField.region,
      Apart x y := by
  decide

theorem stop_apart : ∀ a ∈ List.range 5, ∀ b ∈ List.range 5, a ≠ b →
    ∀ x ∈ (allSettings a 0 0 0).map RegField.region, ∀ y ∈ (tlsPwmStop b).2.map RegField.region,
      Apart x y := by
  decide

theorem mem_range {channel : Nat} (h : channel ≤ 4) : channel ∈ List.range 5 :=
  List.mem_range.mpr (by omega)

/-- No bit is set twice by the settings of a channel. -/
theorem allSettings_compatible {channel : Nat} (h : channel ≤ 4) (clkdiv : BitVec 16)
    (duty pnum : BitVec 8) : ∀ f ∈ allSettings channel clkdiv duty pnum,
      ∀ g ∈ allSettings channel clkdiv duty pnum, f.Compatible g := by
  apply compatible_of_regions
  rw [allSettings, List.map_append, ownSettings_regions h, ← List.map_append]
  exact regions_apart channel (mem_range h)

/-- The settings of a channel survive the settings of another one. -/
theorem settings_foreign {a b : Nat} (ha : a ≤ 4) (hb : b ≤ 4) (hab : a ≠ b) (clkdiv clkdiv' : BitVec 16)
    (duty pnum duty' pnum' : BitVec 8) : ∀ f ∈ allSettings a clkdiv duty pnum,
      ∀ g ∈ allSettings b clkdiv' duty' pnum', f.Compatible g := by
  intro f hf g hg
  have modeOwn : ∀ {c d : Nat}, c ≤ 4 → d ≤ 4 → ∀ (k : BitVec 16) (p q : BitVec 8),
      ∀ f ∈ modeSettings c, ∀ g ∈ ownSettings d k p q, f.Compatible g := by
    intro c d hc hd k p q
    apply compatible_of_apart
    rw [ownSettings_regions hd]
    exact modes_apart c (mem_range hc) d (mem_range hd)
  rcases List.mem_append.mp hf with hf | hf
  · rcases List.mem_append.mp hg with hg | hg
    · exact modes_compatible a (mem_range ha) b (mem_range hb) f hf g hg
    · exact modeOwn ha hb _ _ _ f hf g hg
  · rcases List.mem_append.mp hg with hg | hg
    · exact (modeOwn hb ha _ _ _ g hg f hf).symm
    · refine compatible_of_apart ?_ f hf g hg
      rw [ownSettings_regions ha, ownSettings_regions hb]
      exact own_apart a (mem_range ha) b (mem_range hb) hab

theorem settings_capture {a b : Nat} (ha : a ≤ 4) (hb : b = 0 ∨ b = 4) (hab : a ≠ b)
    (clkdiv clkdiv' : BitVec 16) (duty pnum : BitVec 8) : ∀ f ∈ allSettings a clkdiv duty pnum,
      ∀ g ∈ captureWrites b clkdiv', f.Compatible g := by
  apply compatible_of_apart
  rw [allSettings, List.map_append, ownSettings_regions ha, ← List.map_append, captureWrites_regions hb]
  exact capture_apart a (mem_range ha) b (by simpa using hb) hab

theorem settings_stop {a b : Nat} (ha : a ≤ 4) (hb : b ≤ 4) (hab : a ≠ b) (clkdiv : BitVec 16)
    (duty pnum : BitVec 8) : ∀ f ∈ allSettings a clkdiv duty pnum,
      ∀ g ∈ (tlsPwmStop b).2, f.Compatible g := by
  apply compatible_of_apart
  rw [allSettings, List.map_append, ownSettings_regions ha, ← List.map_append]
  exact stop_apart a (mem_range ha) b (mem_range hb) hab

end Pwm
end Air101
