import Air101.Param.Saves

/-!
# Param.Durable

What a reboot finds of the last value that was persisted. `param_to_flash` writes to the two
partitions in turn and gives every record the same `modify_count` of 1, and `tls_param_init` takes
the first partition unless the second one has a higher count. So of the records that alternate
between the partitions, a reboot finds those in the first one.

* `persist_spec`: what a call that persists leaves in RAM and in the partitions.
* `reboot_params`: what `tls_param_init` loads from two complete partitions.
* `param_durable_iff`: a reboot finds the last persisted values exactly when `Lands` holds.
-/

namespace Air101
namespace Param

open Storage
open Crypto
open Fls

variable {hw : Engine} {c : Chip}

/-- The parameters in a partition. -/
def Chip.params (c : Chip) (m : Nat → Byte) (b : Bool) : Params :=
  (ParamFlash.ofBytes (c.part m b)).parameters

/-- The `modify_count` of a partition. -/
def Chip.count (c : Chip) (m : Nat → Byte) (b : Bool) : BitVec 16 :=
  (ParamFlash.ofBytes (c.part m b)).modifyCount

/-- `tls_param_set` and `tls_param_to_flash`. -/
def Call.isAccess : Call → Bool
  | .set _ _ _ _ => true
  | .toFlash _ _ => true
  | .toDefault _ => false

/-- The calls that write the record in RAM to flash. -/
def Call.persists : Call → Bool
  | .set _ _ persist _ => persist
  | .toFlash _ _ => true
  | .toDefault _ => true

/-- The parameters in RAM when a call comes to persist them. -/
def Call.values (s : State) : Call → Params
  | .set id argv _ _ => (argv.bind (s.flashParam.parameters.set id)).getD s.flashParam.parameters
  | .toFlash _ _ => s.flashParam.parameters
  | .toDefault _ => factoryParams

/-- `tls_param_to_flash` for all parameters writes nothing when the last partition has them. -/
def Call.skips (c : Chip) (s : State) : Call → Bool
  | .toFlash id heap => decide (id = -1) && upToDate c (heap 0) s
  | _ => false

/-- The condition on the state before a call that persists: the partition it writes is the one that
a reboot loads, or the one that a reboot loads has the same parameters already. -/
def Lands (c : Chip) (s : State) (x : Call) : Prop :=
  if x.skips c s then c.params s.dev.mem (c.chosen s.dev.mem) = x.values s
  else if isSecond (s.target (-1)) then
    c.count s.dev.mem false < 1#16 ∨ c.params s.dev.mem false = x.values s
  else ¬ 1#16 < c.count s.dev.mem true ∨ c.params s.dev.mem true = x.values s

/-! ## One call -/

theorem next_quiet {s : State} (h : Ready c s) {x : Call} (hx : x.persists = false) :
    (next c s x).dev = s.dev := by
  cases x with
  | set id argv toFlash heap =>
    have hno : toFlash = false := hx
    rcases tlsParamSet_cases (c := c) h.updp heap id argv toFlash with
      ⟨st, _, e⟩ | ⟨a, p, _, _, _, e⟩
    · rw [next, call, e]
    · rw [next, call, e, hno]
      rfl
  | toFlash id heap => simp [Call.persists] at hx
  | toDefault heap => simp [Call.persists] at hx

theorem paramToFlash_lands {s : State} (h : Ready c s) (heap : Nat → Bool) {id : Int}
    (hid : ¬ (id < -1 ∨ 66 ≤ id)) :
    let s' := (paramToFlash c heap id (-1) s).2
    let b := isSecond (s.target (-1))
    s'.flashParam.parameters = s.flashParam.parameters ∧
      c.params s'.dev.mem b = s.flashParam.parameters ∧ c.count s'.dev.mem b = 1#16 ∧
      c.part s'.dev.mem (!b) = c.part s.dev.mem (!b) := by
  obtain ⟨d', e, hwrote, _⟩ := paramToFlash_spec h.installed heap hid (-1)
  rw [e]
  have hpart := hwrote.part_eq (stamp_valid _ _).1
  simp only [Chip.params, Chip.count, hpart, ParamFlash.ofBytes_bytes]
  exact ⟨rfl, rfl, rfl, hwrote.part_other⟩

/-- What a successful call that persists leaves. -/
theorem persist_spec {s : State} (h : Ready c s) {x : Call} (hacc : x.isAccess = true)
    (hper : x.persists = true) (hok : (call c s x).1 = .ok) :
    (next c s x).flashParam.parameters = x.values s ∧
      (x.skips c s = true → (next c s x).dev = s.dev) ∧
      (x.skips c s = false →
        let b := isSecond (s.target (-1))
        c.params (next c s x).dev.mem b = x.values s ∧ c.count (next c s x).dev.mem b = 1#16 ∧
          c.part (next c s x).dev.mem (!b) = c.part s.dev.mem (!b)) := by
  cases x with
  | set id argv toFlash heap =>
    have hto : toFlash = true := hper
    subst hto
    rcases tlsParamSet_cases (c := c) h.updp heap id argv true with
      ⟨st, hst, e⟩ | ⟨a, p, rfl, hid, hp, e⟩
    · rw [call, e] at hok
      exact absurd hok hst
    · have hvalues : (Call.set id (some a) true heap).values s = p := by
        simp [Call.values, hp]
      obtain ⟨h1, h2, h3, h4⟩ := paramToFlash_lands (h.withParams p) (later heap 1) hid
      rw [hvalues, next, call, e, if_pos rfl]
      exact ⟨h1, by simp [Call.skips], fun _ => ⟨h2, h3, h4⟩⟩
  | toFlash id heap =>
    simp only [next, call, tlsParamToFlash, Call.values, Call.skips] at hok ⊢
    by_cases hskip : id = -1 ∧ upToDate c (heap 0) s = true
    · rw [if_pos hskip]
      simp [hskip.1, hskip.2]
    · rw [if_neg hskip] at hok ⊢
      have hid : ¬ (id < -1 ∨ 66 ≤ id) := by
        intro hbad
        rw [paramToFlash, if_pos hbad] at hok
        simp at hok
      obtain ⟨h1, h2, h3, h4⟩ := paramToFlash_lands h (later heap 1) hid
      refine ⟨h1, ?_, fun _ => ⟨h2, h3, h4⟩⟩
      intro hs
      rw [Bool.and_eq_true, decide_eq_true_iff] at hs
      exact absurd hs hskip
  | toDefault heap => simp [Call.isAccess] at hacc

/-! ## The reboot -/

/-- What `tls_param_init` loads from two complete partitions. -/
theorem reboot_params (hr : Reflected hw) {d : Dev} (hd : d.insideFls = some c.density)
    (hboth : Both c d) {env : InitEnv} (hok : (tlsParamInit hw c env (State.reset d)).1 = .ok) :
    (tlsParamInit hw c env (State.reset d)).2.flashParam.parameters =
      c.params d.mem (c.chosen d.mem) := by
  obtain ⟨hsem, hheap⟩ := init_ok_env hok
  rw [init_both hr hd hsem hheap hboth]
  rfl

/-- Two states answer every `tls_param_get` from RAM alike exactly when they have the same
parameters. -/
theorem get_iff {s t : State} :
    (∀ heap id, tlsParamGet c heap id false s = tlsParamGet c heap id false t) ↔
      s.flashParam.parameters = t.flashParam.parameters := by
  constructor
  · intro h
    have hall := h true (-1)
    unfold tlsParamGet at hall
    rw [if_neg (by decide), if_neg (by decide)] at hall
    apply Params.eq_of_get
    cases hs : s.flashParam.parameters.get (-1) <;> cases ht : t.flashParam.parameters.get (-1) <;>
      simp_all
  · intro h heap id
    unfold tlsParamGet
    simp only [h, Bool.false_eq_true, false_and, if_false]

theorem persist_lands_iff {s : State} (h : Ready c s) {x : Call} (hacc : x.isAccess = true)
    (hper : x.persists = true) (hok : (call c s x).1 = .ok) :
    c.params (next c s x).dev.mem (c.chosen (next c s x).dev.mem) = x.values s ↔ Lands c s x := by
  obtain ⟨_, hskip, hwrite⟩ := persist_spec h hacc hper hok
  unfold Lands
  cases hs : x.skips c s with
  | true => rw [if_pos rfl, hskip hs]
  | false =>
    rw [if_neg (by decide)]
    obtain ⟨hval, hcount, hother⟩ := hwrite hs
    generalize (next c s x).dev.mem = m at hval hcount hother ⊢
    have hchosen : c.chosen m = decide (c.count m false < c.count m true) := rfl
    cases hb : isSecond (s.target (-1)) with
    | true =>
      rw [hb] at hval hcount hother
      have hsame : c.count m false = c.count s.dev.mem false ∧
          c.params m false = c.params s.dev.mem false := by
        simp only [Chip.count, Chip.params]
        rw [show c.part m false = c.part s.dev.mem false from hother]
        exact ⟨rfl, rfl⟩
      rw [if_pos rfl, hchosen, hcount, hsame.1]
      by_cases hlt : c.count s.dev.mem false < 1#16
      · simp [hlt, hval]
      · simp [hlt, hsame.2]
    | false =>
      rw [hb] at hval hcount hother
      have hsame : c.count m true = c.count s.dev.mem true ∧
          c.params m true = c.params s.dev.mem true := by
        simp only [Chip.count, Chip.params]
        rw [show c.part m true = c.part s.dev.mem true from hother]
        exact ⟨rfl, rfl⟩
      rw [if_neg (by decide), hchosen, hcount, hsame.1]
      by_cases hlt : 1#16 < c.count s.dev.mem true
      · simp [hlt, hsame.2]
      · simp [hlt, hval]

/-! ## Runs -/

theorem runs_ready {s : State} (h : Ready c s) (cs : List Call) : Ready c (runs (next c) s cs) :=
  runs_inv (Ready c) (fun _ _ => True) (fun _ x _ hs => (next_saves hs x).2) (fun _ _ => trivial) h

theorem runs_quiet {s : State} (h : Ready c s) {cs : List Call} (hcs : ∀ y ∈ cs, y.persists = false) :
    (runs (next c) s cs).dev = s.dev := by
  induction cs generalizing s with
  | nil => rfl
  | cons x cs ih =>
    rw [List.forall_mem_cons] at hcs
    rw [runs_cons, ih (next_saves h x).2 hcs.2, next_quiet h hcs.1]

/-- For every run after a completed `tls_param_init` whose calls all succeed, with `x` the last one
that persists: after a reboot every `tls_param_get` returns what it returned right after `x` if and
only if `x` lands in the partition that a reboot loads, or that partition has the same parameters
already. -/
theorem param_durable_iff (hw : Engine) (hr : Reflected hw) (c : Chip) {d : Dev}
    (hd : d.insideFls = some c.density)
    (hparts : ∀ b, Valid (c.part d.mem b) ∨ Damaged hw (c.part d.mem b)) {env env' : InitEnv}
    (hinit : (tlsParamInit hw c env (State.reset d)).1 = .ok) {cs cs' : List Call} {x : Call}
    (hacc : ∀ y ∈ cs ++ x :: cs', y.isAccess = true) (hper : x.persists = true)
    (hlast : ∀ y ∈ cs', y.persists = false)
    (hok : ∀ p ∈ trace (next c) (tlsParamInit hw c env (State.reset d)).2 (cs ++ x :: cs'),
      (call c p.1 p.2).1 = .ok) :
    let s0 := (tlsParamInit hw c env (State.reset d)).2
    let reboot := tlsParamInit hw c env' (State.reset (runs (next c) s0 (cs ++ x :: cs')).dev)
    reboot.1 = .ok →
    ((∀ heap id, tlsParamGet c heap id false reboot.2 =
        tlsParamGet c heap id false (runs (next c) s0 (cs ++ [x]))) ↔
      Lands c (runs (next c) s0 cs) x) := by
  intro s0 reboot hreboot
  have h0 : Ready c s0 := init_ok_both hr hd hparts hinit
  have h1 := runs_ready h0 cs
  have hx : (call c (runs (next c) s0 cs) x).1 = .ok := by
    apply hok (runs (next c) s0 cs, x)
    rw [trace_append]
    exact List.mem_append_right _ List.mem_cons_self
  have haccx := hacc x (List.mem_append_right _ List.mem_cons_self)
  have hend : (runs (next c) s0 (cs ++ x :: cs')).dev = (next c (runs (next c) s0 cs) x).dev := by
    rw [runs_append, runs_cons, runs_quiet (next_saves h1 x).2 hlast]
  have h2 := (next_saves h1 x).2
  have hparams : reboot.2.flashParam.parameters =
      c.params (next c (runs (next c) s0 cs) x).dev.mem
        (c.chosen (next c (runs (next c) s0 cs) x).dev.mem) := by
    have heq : reboot = tlsParamInit hw c env'
        (State.reset (next c (runs (next c) s0 cs) x).dev) := by rw [← hend]
    rw [heq] at hreboot ⊢
    exact reboot_params hr h2.installed h2.both hreboot
  rw [get_iff, hparams, runs_append, runs_cons, runs_nil, (persist_spec h1 haccx hper hx).1]
  exact persist_lands_iff h1 haccx hper hx

/-! ## A value that a reboot loses -/

theorem air101_density_le : 0x200000 ≤ 2 ^ 24 := by decide

/-- The chip of the AIR101 board. -/
def air101Chip : Chip :=
  { density := 0x200000, aligned := chip2M.aligned, system_le := by decide,
    density_le := air101_density_le }

/-- Nothing is short. -/
def plenty : InitEnv := { sem := true, heap := fun _ => true, around := fun _ => 0#8 }

/-- A chip with the same parameters in both partitions, as `tls_param_init` leaves it. -/
def Chip.filled (c : Chip) (p : ParamFlash) : Dev :=
  { insideFls := some c.density
    mem := overlay (overlay (fun _ => 0xFF#8) (c.base false) (p.stamp 0#16).bytes)
      (c.base true) (p.stamp 1#16).bytes
    log := [] }

theorem overlay_parts (c : Chip) (m : Nat → Byte) {r0 r1 : List Byte} (h0 : r0.length = 2036)
    (h1 : r1.length = 2036) :
    c.part (overlay (overlay m (c.base false) r0) (c.base true) r1) false = r0 ∧
      c.part (overlay (overlay m (c.base false) r0) (c.base true) r1) true = r1 := by
  have hapart : c.base false + 4096 ≤ c.base true ∨ c.base true + 4096 ≤ c.base false :=
    c.base_apart false
  have hs0 := slice_overlay m (c.base false) r0
  have hs1 := slice_overlay (overlay m (c.base false) r0) (c.base true) r1
  rw [h0] at hs0
  rw [h1] at hs1
  rw [Chip.part, slice_overlay_out (by omega)]
  exact ⟨hs0, hs1⟩

section Filled

variable (c) (p : ParamFlash)

theorem filled_part (b : Bool) :
    c.part (c.filled p).mem b = (p.stamp (if b then 1#16 else 0#16)).bytes := by
  obtain ⟨h0, h1⟩ := overlay_parts c (fun _ => 0xFF#8) (p.stamp 0#16).bytes_length
    (p.stamp 1#16).bytes_length
  rw [Chip.filled]
  cases b with
  | true => rw [h1, if_pos rfl]
  | false => rw [h0, if_neg (by decide)]

theorem filled_both : Both c (c.filled p) := by
  intro b
  rw [filled_part]
  exact stamp_valid _ _

theorem filled_chosen : c.chosen (c.filled p).mem = false := by
  rw [Chip.chosen, filled_part, filled_part, ParamFlash.ofBytes_bytes, ParamFlash.ofBytes_bytes]
  rfl

theorem filled_init (hr : Reflected hw) :
    tlsParamInit hw c plenty (State.reset (c.filled p)) =
      (.ok, { State.reset (c.filled p) with flashParam := p.stamp 0#16 }) := by
  rw [init_both hr rfl rfl rfl (filled_both c p), filled_chosen, filled_part,
    ParamFlash.ofBytes_bytes]
  rfl

theorem filled_dev (hr : Reflected hw) :
    (tlsParamInit hw c plenty (State.reset (c.filled p))).2.dev = c.filled p := by
  rw [filled_init c p hr]
  rfl

theorem filled_ready (hr : Reflected hw) :
    Ready c (tlsParamInit hw c plenty (State.reset (c.filled p))).2 := by
  rw [filled_init c p hr]
  exact ⟨rfl, rfl, filled_both c p⟩

end Filled

/-- `tls_param_set` of `TLS_PARAM_ID_ENCRY`, persisted. -/
def setEncry (v : Byte) : Call := .set 1 (some [v]) true fun _ => true

theorem set_encry (p : Params) (v : Byte) : p.set 1 [v] = some (p.write 55 [v]) := rfl

theorem get_encry (p : Params) : p.get 1 = some ((p.bytes.drop 55).take 1) := rfl

theorem setEncry_ok {s : State} (h : Ready c s) (v : Byte) : (call c s (setEncry v)).1 = .ok := by
  rw [setEncry, call, tlsParamSet, if_neg (by omega)]
  simp only [h.updp, Bool.false_eq_true, if_false, set_encry, if_true]
  exact (paramToFlash_spec (h.withParams _).installed _ (by omega) _).choose_spec.2.2 rfl

theorem setEncry_trace {s : State} (h : Ready c s) (v : Byte) :
    ∀ q ∈ trace (next c) s ([] ++ setEncry v :: []), (call c q.1 q.2).1 = .ok := by
  intro q hq
  rw [List.mem_singleton.mp hq]
  exact setEncry_ok h v

theorem setEncry_reboot (hr : Reflected hw) {s : State} (h : Ready c s) (v : Byte) :
    (tlsParamInit hw c plenty
      (State.reset (runs (next c) s ([] ++ setEncry v :: [])).dev)).1 = .ok := by
  have hnext : Ready c (runs (next c) s ([] ++ setEncry v :: [])) := runs_ready h _
  rw [init_both hr hnext.installed rfl rfl hnext.both]

theorem get_ram {s : State} {id : Int} {bs : List Byte} (hid : ¬ (id < -1 ∨ 66 ≤ id))
    (h : s.flashParam.parameters.get id = some bs) : tlsParamGet c true id false s = (.ok, some bs) := by
  simp [tlsParamGet, hid, h]

/-- The first write after boot goes to the second partition, and a reboot loads the first. -/
theorem filled_lost (hr : Reflected hw) (c : Chip) (p : ParamFlash) (v : Byte) :
    let s0 := (tlsParamInit hw c plenty (State.reset (c.filled p))).2
    let s1 := next c s0 (setEncry v)
    let reboot := tlsParamInit hw c plenty (State.reset s1.dev)
    (call c s0 (setEncry v)).1 = .ok ∧ reboot.1 = .ok ∧
      tlsParamGet c true 1 false s1 = (.ok, some [v]) ∧
      tlsParamGet c true 1 false reboot.2 = (.ok, some ((p.parameters.bytes.drop 55).take 1)) := by
  intro s0 s1 reboot
  have hready : Ready c s0 := filled_ready c p hr
  have hs0 : s0 = { State.reset (c.filled p) with flashParam := p.stamp 0#16 } := by
    rw [show s0 = (tlsParamInit hw c plenty (State.reset (c.filled p))).2 from rfl,
      filled_init c p hr]
  have hnext : Ready c s1 := (next_saves hready (setEncry v)).2
  have hboot : reboot.1 = .ok :=
    congrArg Prod.fst (init_both hr hnext.installed (show plenty.sem = true from rfl) rfl hnext.both)
  obtain ⟨hram, _, hwrite⟩ := persist_spec hready (x := setEncry v) rfl rfl (setEncry_ok hready v)
  obtain ⟨_, hcount, hother⟩ := hwrite rfl
  have htarget : isSecond (s0.target (-1)) = true := by
    apply target_next
    rw [hs0]
    rfl
  have hdev : s0.dev.mem = (c.filled p).mem := by
    rw [hs0]
    rfl
  rw [htarget] at hcount hother
  have hfirst : c.part s1.dev.mem false = (p.stamp 0#16).bytes := by
    rw [hdev] at hother
    exact hother.trans (filled_part c p false)
  have hchosen : c.chosen s1.dev.mem = false := by
    have hc : (ParamFlash.ofBytes (c.part s1.dev.mem true)).modifyCount = 1#16 := hcount
    rw [Chip.chosen, hc, hfirst, ParamFlash.ofBytes_bytes]
    rfl
  have hs1 : s1.flashParam.parameters = p.parameters.write 55 [v] := by
    refine hram.trans ?_
    rw [hs0]
    rfl
  have hloaded : reboot.2.flashParam.parameters = p.parameters := by
    rw [reboot_params hr hnext.installed hnext.both hboot, hchosen, Chip.params, hfirst,
      ParamFlash.ofBytes_bytes]
    rfl
  refine ⟨setEncry_ok hready v, hboot, get_ram (by omega) ?_, get_ram (by omega) ?_⟩
  · rw [hs1, get_encry, Params.write_read (n := 1) _ rfl (by omega)]
  · rw [hloaded, get_encry]

theorem param_durable_encry :
    let s0 := (tlsParamInit softEngine air101Chip plenty
      (State.reset (air101Chip.filled .zero))).2
    let reboot := tlsParamInit softEngine air101Chip plenty
      (State.reset (runs (next air101Chip) s0 ([] ++ setEncry 1#8 :: [])).dev)
    (∀ heap id, tlsParamGet air101Chip heap id false reboot.2 =
        tlsParamGet air101Chip heap id false (runs (next air101Chip) s0 ([] ++ [setEncry 1#8]))) ↔
      Lands air101Chip (runs (next air101Chip) s0 []) (setEncry 1#8) := by
  generalize ParamFlash.zero = p
  have hready := filled_ready air101Chip p softEngine_reflected
  have hinit := congrArg Prod.fst (filled_init air101Chip p softEngine_reflected)
  exact param_durable_iff softEngine softEngine_reflected air101Chip rfl
    (fun b => .inl (filled_both _ p b)) hinit (by simp [Call.isAccess, setEncry]) rfl (by simp)
    (setEncry_trace hready 1#8) (setEncry_reboot softEngine_reflected hready 1#8)

/-- One persisted `tls_param_set` after boot: it returns OK, the value is in RAM and in the second
partition, and a reboot loads the old one from the first. -/
theorem param_lost_after_reboot :
    let s0 := (tlsParamInit softEngine air101Chip plenty
      (State.reset (air101Chip.filled .zero))).2
    let s1 := next air101Chip s0 (setEncry 1#8)
    let reboot := tlsParamInit softEngine air101Chip plenty (State.reset s1.dev)
    (call air101Chip s0 (setEncry 1#8)).1 = .ok ∧ reboot.1 = .ok ∧
      tlsParamGet air101Chip true 1 false s1 = (.ok, some [1#8]) ∧
      tlsParamGet air101Chip true 1 false reboot.2 = (.ok, some [0#8]) := by
  have hzero : (ParamFlash.zero.parameters.bytes.drop 55).take 1 = [0#8] := by decide +kernel
  rw [← hzero]
  exact filled_lost softEngine_reflected air101Chip .zero 1#8

end Param
end Air101
