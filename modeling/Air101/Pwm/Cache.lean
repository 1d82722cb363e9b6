import Air101.Pwm.Driver
import Air101.Storage.Runs
import Mathlib.Logic.Function.Basic

/-!
# Pwm.Cache

The PWM port (`app/port/luat_pwm_air101.c`). `luat_pwm_setup` keeps the last configuration of each
channel in `pwm_confs` and leaves out register writes that it thinks are in place: all of them when
nothing changed, all but the duty when only that changed.

* `luatPwmSetup_cases`: the ways a setup can go.
* `Coherent`: a channel with a continuous configuration in `pwm_confs` has it in its registers.
* `step_coherent_iff`: the calls that keep it are those that meet `Clean`. The others are the full duty
  on the duty-only way, which stops the counter, and captures of a live channel, which start and end
  without a word to `pwm_confs`.
* `setup_shortcuts_coherent`: in every run of clean calls a successful setup leaves the registers as the
  full path would.
-/

namespace Air101
namespace Pwm

open Storage

/-- `luat_pwm_conf_t`. `rest` are the bytes that only `memcmp` looks at. -/
structure Conf where
  channel : Int
  period : Nat
  pulse : Nat
  pnum : Nat
  precision : Nat
  rest : Nat
  deriving DecidableEq

/-- The registers, `pwm_confs`, and the channel of the capture that is under way. -/
structure State where
  regs : Regs
  confs : Nat → Conf
  dma : Option Nat

/-- The state at power on. -/
def State.init (regs : Regs) : State :=
  { regs := regs, confs := fun _ => ⟨0, 0, 0, 0, 0, 0⟩, dma := none }

/-- The channel numbers `luat_pwm_setup` knows a pin for. -/
def pwmChannels : List Int :=
  [0, 10, 20, 30, 40, 1, 11, 21, 31, 2, 12, 22, 32, 3, 13, 23, 33, 4, 14, 24, 34, 44]

/-- The pulse in 256ths, never more than all of them. -/
def scaledPulse (conf : Conf) : Nat :=
  let pulse := if conf.precision ≤ conf.pulse then conf.precision else conf.pulse
  if conf.precision = 100 then pulse * 256 / 100 else pulse

def hwChannel (channel : Int) : Nat := (channel.tmod 10).toNat

/-- `tls_pwm_stop`, `tls_pwm_init`, `tls_pwm_start` for a configuration. -/
def fullPath (apbclk : Nat) (conf : Conf) (regs : Regs) : Regs :=
  applyAll regs
    (fullPathWrites apbclk (hwChannel conf.channel) conf.period (scaledPulse conf) conf.pnum)

/-- Only the duty differs. -/
def DutyOnly (cached conf : Conf) : Prop :=
  cached.period = conf.period ∧ cached.pnum = conf.pnum ∧ cached.precision = conf.precision ∧
    cached.pulse ≠ conf.pulse

instance (cached conf : Conf) : Decidable (DutyOnly cached conf) :=
  inferInstanceAs (Decidable (_ ∧ _ ∧ _ ∧ _))

def luatPwmClose (s : State) (channel : Int) : Int × State :=
  let ch := channel.tmod 10
  if ch < 0 ∨ 4 < ch then (0, s)
  else
    let stop := tlsPwmStop ch.toNat
    let s' := { s with
      regs := applyAll s.regs stop.2
      confs := Function.update s.confs ch.toNat { s.confs ch.toNat with period := 0 } }
    if stop.1 ≠ wmSuccess then (stop.1, s') else (0, s')

def luatPwmSetup (apbclk : Nat) (s : State) (conf : Conf) : Int × State :=
  if conf.period = 0 then (-1, s)
  else if conf.precision ≠ 100 ∧ conf.precision ≠ 256 then (-1, s)
  else if conf.channel ∉ pwmChannels then (-1, s)
  else
    let ch := conf.channel.tmod 10
    if ch < 0 ∨ 4 < ch then (-1, s)
    else if conf.pulse = 0 then luatPwmClose s conf.channel
    else
      let ch := ch.toNat
      let pulse := scaledPulse conf
      if conf.pnum = 0 ∧ s.confs ch = conf then (0, s)
      else if conf.pnum = 0 ∧ DutyOnly (s.confs ch) conf then
        (0, { s with
          regs := applyAll s.regs (tlsPwmDutyConfig ch (BitVec.ofNat 8 pulse)).2
          confs := Function.update s.confs ch { s.confs ch with pulse := conf.pulse } })
      else
        let stopped := applyAll s.regs (tlsPwmStop ch).2
        let init := tlsPwmInit apbclk ch conf.period pulse conf.pnum
        let inited := applyAll stopped init.2
        if init.1 ≠ wmSuccess then (init.1, { s with regs := inited })
        else (0, { s with
          regs := applyAll inited (tlsPwmStart ch).2
          confs := Function.update s.confs ch conf })

/-- The channel `luat_pwm_capture` hands to the driver. For 20 it forgets `channel%10`. -/
def captureChannel (channel : Int) : Option Nat :=
  if channel ∈ [0, 10, 30, 40] then some 0
  else if channel = 20 then some 20
  else if channel ∈ [4, 14, 24, 34, 44] then some 4
  else none

def luatPwmCapture (apbclk : Nat) (s : State) (channel freq : Int) : Int × State :=
  match captureChannel channel with
  | none => (-1, { s with dma := none })
  | some ch =>
    (0, { s with
      regs := applyAll s.regs (captureWrites ch (clkdivOf apbclk (freq % 2 ^ 32).toNat))
      dma := some ch })

/-- `pwm_dma_callback`, when the capture that is under way has filled its buffer. -/
def pwmDmaCallback (s : State) : State :=
  match s.dma with
  | none => s
  | some ch => { s with regs := applyAll s.regs (tlsPwmStop ch).2, dma := none }

inductive Call where
  | setup (conf : Conf)
  | close (channel : Int)
  | capture (channel freq : Int)
  | captureDone

def step (apbclk : Nat) (s : State) : Call → State
  | .setup conf => (luatPwmSetup apbclk s conf).2
  | .close channel => (luatPwmClose s channel).2
  | .capture channel freq => (luatPwmCapture apbclk s channel freq).2
  | .captureDone => pwmDmaCallback s

/-! ## What the calls do -/

/-- The arguments of a setup that is not refused. -/
def Conf.Accepted (conf : Conf) : Prop :=
  conf.period ≠ 0 ∧ (conf.precision = 100 ∨ conf.precision = 256) ∧ conf.channel ∈ pwmChannels

theorem hwChannel_le {channel : Int} (h : ¬ (channel.tmod 10 < 0 ∨ 4 < channel.tmod 10)) :
    hwChannel channel ≤ 4 := by
  unfold hwChannel
  omega

theorem pwmChannels_hw : ∀ channel ∈ pwmChannels, ¬ (channel.tmod 10 < 0 ∨ 4 < channel.tmod 10) := by
  decide

theorem luatPwmClose_cases (s : State) (channel : Int) :
    (luatPwmClose s channel).2 = s ∨
      (hwChannel channel ≤ 4 ∧ (luatPwmClose s channel).2 = { s with
        regs := applyAll s.regs (tlsPwmStop (hwChannel channel)).2
        confs := Function.update s.confs (hwChannel channel)
          { s.confs (hwChannel channel) with period := 0 } }) := by
  simp only [luatPwmClose]
  split
  · exact .inl rfl
  · rename_i hch
    refine .inr ⟨hwChannel_le hch, ?_⟩
    split <;> rfl

theorem tlsPwmInit_success {channel : Nat} (h : channel ≤ 4) (apbclk freq duty pnum : Nat) :
    (tlsPwmInit apbclk channel freq duty pnum).1 = wmSuccess := by
  have hmode : (tlsPwmOutModeConfig channel .indpt).1 = wmSuccess := by
    rw [tlsPwmOutModeConfig, if_neg (by omega)]
  simp only [tlsPwmInit, tlsPwmOutInit, hmode]
  rw [if_neg (by omega), if_neg (by simp)]

/-- A setup fails, closes the channel, finds nothing changed, finds only the duty changed, or takes
the full path. -/
theorem luatPwmSetup_cases (apbclk : Nat) (s : State) (conf : Conf) :
    (¬ conf.Accepted ∧ luatPwmSetup apbclk s conf = (-1, s)) ∨
    (conf.pulse = 0 ∧ luatPwmSetup apbclk s conf = luatPwmClose s conf.channel) ∨
    (hwChannel conf.channel ≤ 4 ∧ conf.Accepted ∧ conf.pulse ≠ 0 ∧
      ((conf.pnum = 0 ∧ s.confs (hwChannel conf.channel) = conf ∧
          luatPwmSetup apbclk s conf = (0, s)) ∨
        (conf.pnum = 0 ∧ DutyOnly (s.confs (hwChannel conf.channel)) conf ∧
          luatPwmSetup apbclk s conf = (0, { s with
            regs := applyAll s.regs
              (tlsPwmDutyConfig (hwChannel conf.channel) (BitVec.ofNat 8 (scaledPulse conf))).2
            confs := Function.update s.confs (hwChannel conf.channel)
              { s.confs (hwChannel conf.channel) with pulse := conf.pulse } })) ∨
        (¬ (conf.pnum = 0 ∧ DutyOnly (s.confs (hwChannel conf.channel)) conf) ∧
          luatPwmSetup apbclk s conf = (0, { s with
            regs := fullPath apbclk conf s.regs
            confs := Function.update s.confs (hwChannel conf.channel) conf })))) := by
  simp only [luatPwmSetup]
  split
  · rename_i hperiod
    exact .inl ⟨fun h => h.1 hperiod, rfl⟩
  · rename_i hperiod
    split
    · rename_i hprec
      exact .inl ⟨fun h => by have := h.2.1; omega, rfl⟩
    · rename_i hprec
      split
      · rename_i hknown
        exact .inl ⟨fun h => hknown h.2.2, rfl⟩
      · rename_i hknown
        split
        · rename_i hch
          exact absurd hch (pwmChannels_hw _ (not_not.mp hknown))
        · rename_i hch
          have hle := hwChannel_le hch
          split
          · rename_i hpulse
            exact .inr (.inl ⟨hpulse, rfl⟩)
          · rename_i hpulse
            have hacc : conf.Accepted := ⟨hperiod, by omega, not_not.mp hknown⟩
            refine .inr (.inr ⟨hle, hacc, hpulse, ?_⟩)
            split
            · rename_i hsame
              exact .inl ⟨hsame.1, hsame.2, rfl⟩
            · split
              · rename_i hduty
                exact .inr (.inl ⟨hduty.1, hduty.2, rfl⟩)
              · rename_i hnew
                have hok := tlsPwmInit_success hle apbclk conf.period (scaledPulse conf) conf.pnum
                refine .inr (.inr ⟨hnew, ?_⟩)
                unfold hwChannel at hok
                rw [if_neg (fun h => h hok)]
                simp only [fullPath, fullPathWrites, hwChannel, applyAll_append]

/-! ## Coherence of the cache -/

/-- `pwm_confs` has a continuous output for the channel, which a setup may take for configured. -/
def State.Live (s : State) (ch : Nat) : Prop := (s.confs ch).period ≠ 0 ∧ (s.confs ch).pnum = 0

/-- The register fields of a configuration. -/
def confSettings (apbclk ch : Nat) (conf : Conf) : List Write :=
  settings ch (clkdivOf apbclk conf.period) (BitVec.ofNat 8 (scaledPulse conf)) (BitVec.ofNat 8 conf.pnum)

/-- The registers of a live channel are those of its cached configuration. -/
def Coherent (apbclk : Nat) (s : State) : Prop :=
  ∀ ch, ch ≤ 4 → s.Live ch → ∀ f ∈ confSettings apbclk ch (s.confs ch), f.Holds s.regs

/-- The calls that keep the cache coherent: a setup that goes the duty-only way asks for less than the
full duty, and captures start and end on channels that are not live. -/
def Clean (s : State) : Call → Prop
  | .setup conf => conf.Accepted → conf.pnum = 0 → DutyOnly (s.confs (hwChannel conf.channel)) conf →
      conf.pulse < conf.precision
  | .close _ => True
  | .capture channel _ => ∀ ch, ch ≤ 4 → captureChannel channel = some ch → ¬ s.Live ch
  | .captureDone => ∀ ch, ch ≤ 4 → s.dma = some ch → ¬ s.Live ch

theorem coherent_init (apbclk : Nat) (regs : Regs) : Coherent apbclk (State.init regs) := by
  intro ch _ hlive
  exact absurd rfl hlive.1

/-- Writes that no setting of another channel minds keep the cache coherent, if the channel they are
for is not live behind them or has its settings. -/
theorem coherent_of {apbclk ch : Nat} {s : State} {ws : List Write} {confs : Nat → Conf} {dma : Option Nat}
    (hs : Coherent apbclk s) (hother : ∀ c, c ≠ ch → confs c = s.confs c)
    (hcompat : ∀ c, c ≤ 4 → c ≠ ch → ∀ (k : BitVec 16) (d p : BitVec 8),
      ∀ f ∈ allSettings c k d p, ∀ g ∈ ws, f.Compatible g)
    (hhere : ch ≤ 4 → State.Live ⟨applyAll s.regs ws, confs, dma⟩ ch →
      ∀ f ∈ confSettings apbclk ch (confs ch), f.Holds (applyAll s.regs ws)) :
    Coherent apbclk ⟨applyAll s.regs ws, confs, dma⟩ := by
  intro c hc hlive f hf
  by_cases he : c = ch
  · subst he
    exact hhere hc hlive f hf
  · have hsame := hother c he
    simp only [State.Live, hsame] at hlive
    simp only [hsame] at hf
    exact (hs c hc hlive f hf).applyAll (hcompat c hc he _ _ _ f (settings_subset hf))

theorem fullPath_eq (apbclk : Nat) {conf : Conf} (h : hwChannel conf.channel ≤ 4) (regs : Regs) :
    fullPath apbclk conf regs = applyAll regs (confSettings apbclk (hwChannel conf.channel) conf) :=
  fullPathWrites_run h regs _ _ _ _

theorem confSettings_holds (apbclk : Nat) {ch : Nat} (h : ch ≤ 4) (conf : Conf) (regs : Regs) :
    ∀ f ∈ confSettings apbclk ch conf, f.Holds (applyAll regs (confSettings apbclk ch conf)) := by
  apply holds_applyAll
  intro f hf g hg
  exact allSettings_compatible h _ _ _ f (settings_subset hf) g (settings_subset hg)

/-- A pulse below the full duty is not cut to 0. -/
theorem scaledPulse_duty {conf : Conf} (hprec : conf.precision = 100 ∨ conf.precision = 256)
    (hpulse : conf.pulse ≠ 0) (hlt : conf.pulse < conf.precision) :
    BitVec.ofNat 8 (scaledPulse conf) ≠ 0 := by
  have hbounds : 0 < scaledPulse conf ∧ scaledPulse conf < 256 := by
    unfold scaledPulse
    rw [if_neg (show ¬ conf.precision ≤ conf.pulse by omega)]
    simp only []
    split <;> omega
  intro h
  have hval := congrArg BitVec.toNat h
  rw [BitVec.toNat_ofNat, Nat.mod_eq_of_lt hbounds.2] at hval
  exact absurd hval (by simp; omega)

/-- On the duty-only way the full path has nothing to write but the duty. -/
theorem dutyOnly_fullPath {apbclk ch : Nat} {s : State} {conf : Conf} (hs : Coherent apbclk s)
    (hch : ch ≤ 4) (hperiod : conf.period ≠ 0) (hpnum : conf.pnum = 0) (hduty : DutyOnly (s.confs ch) conf)
    (hne : BitVec.ofNat 8 (scaledPulse conf) ≠ 0) :
    applyAll s.regs (confSettings apbclk ch conf) =
      applyAll s.regs (tlsPwmDutyConfig ch (BitVec.ofNat 8 (scaledPulse conf))).2 := by
  obtain ⟨hper, hnum, _, _⟩ := hduty
  have hlive : s.Live ch := ⟨by rw [hper]; exact hperiod, by rw [hnum]; exact hpnum⟩
  have hold := hs ch hch hlive
  generalize hd : BitVec.ofNat 8 (scaledPulse conf) = d at hne
  -- the settings before and behind the duty are in place, and the duty leaves them there
  have hbefore : applyAll s.regs (modeSettings ch ++ beforeDuty ch (clkdivOf apbclk conf.period)) = s.regs := by
    apply applyAll_of_holds
    intro f hf
    apply hold
    simp only [confSettings, settings, hper]
    exact List.mem_append_left _ (List.mem_append_left _ hf)
  have hafter : ∀ f ∈ afterDuty ch (BitVec.ofNat 8 conf.pnum), f.Holds ((dutyField ch d).apply s.regs) := by
    intro f hf
    refine (hold f ?_).apply ?_
    · simp only [confSettings, settings, hnum]
      exact List.mem_append_right _ hf
    · refine allSettings_compatible hch (clkdivOf apbclk conf.period) d (BitVec.ofNat 8 conf.pnum) f ?_ _ ?_
      · exact List.mem_append_right _ (List.mem_append_right _ (List.mem_cons_of_mem _ hf))
      · exact List.mem_append_right _ (List.mem_append_right _ List.mem_cons_self)
  rw [confSettings, settings, dutySettings, hd, if_neg hne, applyAll_append, applyAll_append, hbefore,
    tlsPwmDutyConfig_ne hch hne, applyAll_cons, applyAll_nil, applyAll_of_holds hafter]

/-- A successful setup from a coherent state leaves what the full path would. -/
theorem setup_fullPath {apbclk : Nat} {s : State} {conf : Conf} (hs : Coherent apbclk s)
    (hclean : Clean s (.setup conf)) (hpulse : 0 < conf.pulse) (hret : (luatPwmSetup apbclk s conf).1 = 0) :
    (luatPwmSetup apbclk s conf).2.regs = fullPath apbclk conf s.regs := by
  rcases luatPwmSetup_cases apbclk s conf with ⟨_, h⟩ | ⟨h, _⟩ | ⟨hch, hacc, hne, h⟩
  · rw [h] at hret
    exact absurd hret (by simp)
  · omega
  · rcases h with ⟨hpnum, hsame, h⟩ | ⟨hpnum, hduty, h⟩ | ⟨_, h⟩
    · have hlive : s.Live (hwChannel conf.channel) := ⟨by rw [hsame]; exact hacc.1, by rw [hsame]; exact hpnum⟩
      have hold := hs _ hch hlive
      rw [hsame] at hold
      rw [h, fullPath_eq apbclk hch, applyAll_of_holds hold]
    · have hlt := hclean hacc hpnum hduty
      rw [h, fullPath_eq apbclk hch,
        dutyOnly_fullPath hs hch hacc.1 hpnum hduty (scaledPulse_duty hacc.2.1 hne hlt)]
    · rw [h]

theorem confSettings_congr {apbclk ch : Nat} {conf conf' : Conf} (hper : conf.period = conf'.period)
    (hpulse : conf.pulse = conf'.pulse) (hprec : conf.precision = conf'.precision)
    (hnum : conf.pnum = conf'.pnum) : confSettings apbclk ch conf = confSettings apbclk ch conf' := by
  simp only [confSettings, scaledPulse, hper, hpulse, hprec, hnum]

theorem close_coherent {apbclk : Nat} {s : State} (hs : Coherent apbclk s) (channel : Int) :
    Coherent apbclk (luatPwmClose s channel).2 := by
  rcases luatPwmClose_cases s channel with h | ⟨hch, h⟩
  · rw [h]
    exact hs
  · rw [h]
    refine @coherent_of _ (hwChannel channel) _ _ _ _ hs ?_ ?_ ?_
    · intro c hc
      exact Function.update_of_ne hc _ _
    · intro c hc hne k d p
      exact settings_stop hc hch hne k d p
    · intro _ hlive
      simp [State.Live] at hlive

theorem setup_coherent {apbclk : Nat} {s : State} {conf : Conf} (hs : Coherent apbclk s)
    (hclean : Clean s (.setup conf)) : Coherent apbclk (luatPwmSetup apbclk s conf).2 := by
  rcases luatPwmSetup_cases apbclk s conf with ⟨_, h⟩ | ⟨_, h⟩ | ⟨hch, hacc, hne, h⟩
  · rw [h]
    exact hs
  · rw [h]
    exact close_coherent hs _
  · -- where the registers become those of the full path, the other channels keep their settings
    have hput : ∀ confs : Nat → Conf, (∀ c, c ≠ hwChannel conf.channel → confs c = s.confs c) →
        confSettings apbclk (hwChannel conf.channel) (confs (hwChannel conf.channel)) =
          confSettings apbclk (hwChannel conf.channel) conf →
        Coherent apbclk ⟨fullPath apbclk conf s.regs, confs, s.dma⟩ := by
      intro confs hother hconf
      rw [fullPath_eq apbclk hch]
      refine coherent_of hs hother ?_ ?_
      · intro c hc hcne k d p f hf g hg
        exact settings_foreign hc hch hcne k _ d p _ _ f hf g (settings_subset hg)
      · intro _ _
        rw [hconf]
        exact confSettings_holds apbclk hch conf s.regs
    rcases h with ⟨_, _, h⟩ | ⟨hpnum, hduty, h⟩ | ⟨_, h⟩
    · rw [h]
      exact hs
    · have hlt := hclean hacc hpnum hduty
      obtain ⟨hper, hnum, hprec', _⟩ := id hduty
      have hsame := dutyOnly_fullPath hs hch hacc.1 hpnum hduty (scaledPulse_duty hacc.2.1 hne hlt)
      rw [h, ← hsame, ← fullPath_eq apbclk hch]
      refine hput _ (fun c hc => Function.update_of_ne hc _ _) ?_
      rw [Function.update_self]
      exact confSettings_congr hper rfl hprec' hnum
    · rw [h]
      refine hput _ (fun c hc => Function.update_of_ne hc _ _) ?_
      rw [Function.update_self]

theorem capture_coherent {apbclk : Nat} {s : State} (hs : Coherent apbclk s) {channel freq : Int}
    (hclean : Clean s (.capture channel freq)) : Coherent apbclk (luatPwmCapture apbclk s channel freq).2 := by
  unfold luatPwmCapture
  split
  · exact hs
  · rename_i ch hcap
    by_cases hch : ch = 0 ∨ ch = 4
    · refine @coherent_of _ ch _ _ _ _ hs (fun _ _ => rfl) ?_ ?_
      · intro c hc hne k d p
        exact settings_capture hc hch hne k _ d p
      · intro hle hlive
        exact absurd hlive (hclean ch hle hcap)
    · -- channel 20 is passed on as it is, and the driver does not know it
      have h20 : ch = 20 := by
        unfold captureChannel at hcap
        split at hcap
        · exact absurd (Option.some.inj hcap).symm (fun h => hch (.inl h))
        · split at hcap
          · exact (Option.some.inj hcap).symm
          · split at hcap
            · exact absurd (Option.some.inj hcap).symm (fun h => hch (.inr h))
            · exact absurd hcap (by simp)
      subst h20
      exact hs

theorem captureDone_coherent {apbclk : Nat} {s : State} (hs : Coherent apbclk s)
    (hclean : Clean s .captureDone) : Coherent apbclk (pwmDmaCallback s) := by
  unfold pwmDmaCallback
  split
  · exact hs
  · rename_i ch hdma
    by_cases hch : ch ≤ 4
    · refine @coherent_of _ ch _ _ _ _ hs (fun _ _ => rfl) ?_ ?_
      · intro c hc hne k d p
        exact settings_stop hc hch hne k d p
      · intro hle hlive
        exact absurd hlive (hclean ch hle hdma)
    · rw [tlsPwmStop, if_pos (by omega)]
      exact hs

theorem step_coherent (apbclk : Nat) (s : State) (c : Call) (hclean : Clean s c) (hs : Coherent apbclk s) :
    Coherent apbclk (step apbclk s c) := by
  cases c with
  | setup conf => exact setup_coherent hs hclean
  | close channel => exact close_coherent hs channel
  | capture channel freq => exact capture_coherent hs hclean
  | captureDone => exact captureDone_coherent hs hclean

/-! ## The calls that break it -/

theorem start_mem_settings {ch : Nat} (h : ch ≤ 4) (apbclk : Nat) (conf : Conf) :
    setBit .ctl (27 + ch) ∈ confSettings apbclk ch conf :=
  List.mem_append_right _ (start_mem_afterDuty h _)

/-- A bit that is clear is not set. -/
theorem not_holds_setBit {m : Regs} {r : Reg} {i : Nat} (hi : i < 32)
    (h : (clearBit r i).Holds m) : ¬ (setBit r i).Holds m := by
  intro hset
  have hcov : (setBit r i).Covers r i := ⟨rfl, Nat.le_refl _, Nat.lt_succ_self _⟩
  have hone := hset i hi hcov
  rw [show (m (setBit r i).reg).getLsbD i = _ from h i hi hcov] at hone
  simp [setBit, clearBit] at hone

theorem stop_incoherent {apbclk ch : Nat} {m : Regs} {s : State} (hch : ch ≤ 4) (hlive : s.Live ch)
    (hregs : s.regs = applyAll m (tlsPwmStop ch).2) : ¬ Coherent apbclk s := by
  intro hs
  have hstart := hs ch hch hlive _ (start_mem_settings hch apbclk _)
  rw [hregs, tlsPwmStop, if_neg (by omega)] at hstart
  exact not_holds_setBit (by omega) (RegField.holds_apply m _) hstart

/-- The full duty is cut to 0, for which the duty-only way stops the counter. -/
theorem scaledPulse_full {conf : Conf} (hprec : conf.precision = 100 ∨ conf.precision = 256)
    (hge : conf.precision ≤ conf.pulse) : BitVec.ofNat 8 (scaledPulse conf) = 0 := by
  have hfull : scaledPulse conf = 256 := by
    unfold scaledPulse
    rw [if_pos hge]
    simp only []
    split <;> omega
  rw [hfull]
  rfl

/-- The bit that says whether a channel counts edges or puts out edge-aligned periods. -/
def edgeBit (ch : Nat) : Reg × Nat := if ch = 4 then (.ch4Reg2, 3) else (.ctl, 16)

theorem captureWrites_edge (ch : Nat) (h : ch = 0 ∨ ch = 4) (clkdiv : BitVec 16) :
    ∃ fs gs, captureWrites ch clkdiv = fs ++ clearBit (edgeBit ch).1 (edgeBit ch).2 :: gs ∧
      ∀ g ∈ gs, (clearBit (edgeBit ch).1 (edgeBit ch).2).Compatible g := by
  rcases h with rfl | rfl
  · exact ⟨(captureWrites 0 clkdiv).take 6, (captureWrites 0 0).drop 7, rfl, by decide⟩
  · exact ⟨(captureWrites 4 clkdiv).take 6, (captureWrites 4 0).drop 7, rfl, by decide⟩

theorem edgeBit_mem_settings {ch : Nat} (h : ch = 0 ∨ ch = 4) (apbclk : Nat) (conf : Conf) :
    setBit (edgeBit ch).1 (edgeBit ch).2 ∈ confSettings apbclk ch conf := by
  rcases h with rfl | rfl <;>
    simp [confSettings, settings, beforeDuty, tlsPwmCntTypeConfig, edgeBit]

theorem capture_incoherent {apbclk ch : Nat} {m : Regs} {s : State} (clkdiv : BitVec 16)
    (hch : ch = 0 ∨ ch = 4) (hlive : s.Live ch) (hregs : s.regs = applyAll m (captureWrites ch clkdiv)) :
    ¬ Coherent apbclk s := by
  intro hs
  have hout := hs ch (by omega) hlive _ (edgeBit_mem_settings hch apbclk _)
  obtain ⟨fs, gs, hsplit, hlast⟩ := captureWrites_edge ch hch clkdiv
  rw [hregs, hsplit] at hout
  refine not_holds_setBit ?_ (holds_applyAll_last hlast) hout
  unfold edgeBit
  split <;> decide

theorem captureChannel_hw {channel : Int} {ch : Nat} (h : captureChannel channel = some ch) (hch : ch ≤ 4) :
    ch = 0 ∨ ch = 4 := by
  unfold captureChannel at h
  split at h
  · exact .inl (Option.some.inj h).symm
  · split at h
    · have h20 := Option.some.inj h
      omega
    · split at h
      · exact .inr (Option.some.inj h).symm
      · exact absurd h (by simp)

/-- A coherent cache stays coherent over a call exactly if the call is clean. -/
theorem step_coherent_iff {apbclk : Nat} {s : State} (hs : Coherent apbclk s) (c : Call) :
    Coherent apbclk (step apbclk s c) ↔ Clean s c := by
  refine ⟨fun h => ?_, fun h => step_coherent apbclk s c h hs⟩
  cases c with
  | setup conf =>
    intro hacc hpnum hduty
    by_contra hge
    rcases luatPwmSetup_cases apbclk s conf with ⟨hno, _⟩ | ⟨hz, _⟩ | ⟨hch, _, _, hway⟩
    · exact hno hacc
    · have hprec := hacc.2.1
      omega
    · rcases hway with ⟨_, hsame, _⟩ | ⟨_, _, hway⟩ | ⟨hfull, _⟩
      · exact hduty.2.2.2 (by rw [hsame])
      · refine stop_incoherent (m := s.regs) hch ?_ ?_ h
        · simp only [step, hway, State.Live, Function.update_self]
          exact ⟨by rw [hduty.1]; exact hacc.1, by rw [hduty.2.1]; exact hpnum⟩
        · simp only [step, hway]
          rw [scaledPulse_full hacc.2.1 (by omega), tlsPwmDutyConfig_zero hch, tlsPwmStop, if_neg (by omega)]
      · exact hfull ⟨hpnum, hduty⟩
  | close channel => trivial
  | capture channel freq =>
    intro ch hch hcap hlive
    refine capture_incoherent (m := s.regs) (clkdivOf apbclk (freq % 2 ^ 32).toNat)
      (captureChannel_hw hcap hch) ?_ ?_ h
    · simp only [step, luatPwmCapture, hcap]
      exact hlive
    · simp only [step, luatPwmCapture, hcap]
  | captureDone =>
    intro ch hch hdma hlive
    refine stop_incoherent (m := s.regs) hch ?_ ?_ h
    · simp only [step, pwmDmaCallback, hdma]
      exact hlive
    · simp only [step, pwmDmaCallback, hdma]

/-- In every run from power on whose calls keep the cache coherent, a setup that asks for an output and
returns 0 leaves the registers as stopping, initialising and starting the channel would at that point. -/
theorem setup_shortcuts_coherent (apbclk : Nat) (regs : Regs) (cs : List Call)
    (hclean : ∀ p ∈ trace (step apbclk) (State.init regs) cs, Clean p.1 p.2) :
    ∀ p ∈ trace (step apbclk) (State.init regs) cs, ∀ conf, p.2 = .setup conf → 0 < conf.pulse →
      (luatPwmSetup apbclk p.1 conf).1 = 0 →
      (step apbclk p.1 p.2).regs = fullPath apbclk conf p.1.regs := by
  intro p hp conf hcall hpulse hret
  have hinv := (trace_inv (Coherent apbclk) Clean (step_coherent apbclk) hclean
    (coherent_init apbclk regs)).1 p hp
  have hok := hclean p hp
  rw [hcall] at hok ⊢
  exact setup_fullPath hinv hok hpulse hret

/-- Half the duty, then three quarters of it. -/
theorem setup_shortcuts_coherent_duty :
    let s := step 40 (State.init fun _ => 0) (.setup ⟨0, 1000, 50, 0, 100, 0⟩)
    (step 40 s (.setup ⟨0, 1000, 75, 0, 100, 0⟩)).regs = fullPath 40 ⟨0, 1000, 75, 0, 100, 0⟩ s.regs := by
  refine setup_shortcuts_coherent 40 (fun _ => 0)
    [.setup ⟨0, 1000, 50, 0, 100, 0⟩, .setup ⟨0, 1000, 75, 0, 100, 0⟩] ?_ _
    (List.mem_cons_of_mem _ List.mem_cons_self) _ rfl (by decide) (by decide)
  intro p hp
  simp only [trace, List.mem_cons, List.not_mem_nil, or_false] at hp
  rcases hp with rfl | rfl
  · exact fun _ _ _ => by decide
  · exact fun _ _ _ => by decide

/-- Half the duty, then all of it: the second setup returns 0 and the counter stands still. -/
theorem setup_shortcuts_full_duty : ¬ ∀ (apbclk : Nat) (regs : Regs) (cs : List Call),
    ∀ p ∈ trace (step apbclk) (State.init regs) cs, ∀ conf, p.2 = .setup conf → 0 < conf.pulse →
      (luatPwmSetup apbclk p.1 conf).1 = 0 →
      (step apbclk p.1 p.2).regs = fullPath apbclk conf p.1.regs := by
  intro h
  have hrun := h 40 (fun _ => 0) [.setup ⟨0, 1000, 50, 0, 100, 0⟩, .setup ⟨0, 1000, 100, 0, 100, 0⟩]
    _ (List.mem_cons_of_mem _ List.mem_cons_self) ⟨0, 1000, 100, 0, 100, 0⟩ rfl (by decide) (by decide)
  have hctl := congrFun hrun .ctl
  revert hctl
  decide

end Pwm
end Air101
