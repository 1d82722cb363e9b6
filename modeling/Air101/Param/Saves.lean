import Air101.Param.Steps

/-!
# Param.Saves

Sequences of partition writes. A partition is only rewritten while the other one holds a complete
record (`Saves`), and once `tls_param_init` is done both do (`Both`).

* `paramToFlash_saves`: one write of the record in RAM.
* `init_saves`: `tls_param_init` on a flash with at least one complete partition.
* `init_ok_both`: whatever it found, both partitions are complete when it returns OK.
* `next_saves`: every call after it keeps that.
-/

namespace Air101
namespace Param

open Storage
open Crypto
open Fls

variable {hw : Engine} {c : Chip}

/-- `d'` comes from `d` by writing complete records to the partitions one after the other. -/
inductive Writes (c : Chip) : Dev → Dev → Prop where
  | refl (d : Dev) : Writes c d d
  | step {d d' d'' : Dev} {b : Bool} {buf : List Byte} (hbuf : Valid buf)
      (hwrote : Wrote c d b buf d') (rest : Writes c d' d'') : Writes c d d''

/-- The same, with each write next to a complete partition. -/
inductive Saves (c : Chip) : Dev → Dev → Prop where
  | refl (d : Dev) : Saves c d d
  | step {d d' d'' : Dev} {b : Bool} {buf : List Byte} (hother : Valid (c.part d.mem (!b)))
      (hbuf : Valid buf) (hwrote : Wrote c d b buf d') (rest : Saves c d' d'') : Saves c d d''

/-- Both partitions are complete. -/
def Both (c : Chip) (d : Dev) : Prop := ∀ b, Valid (c.part d.mem b)

theorem Writes.trans {d d' d'' : Dev} (h : Writes c d d') (h' : Writes c d' d'') :
    Writes c d d'' := by
  induction h with
  | refl _ => exact h'
  | step hbuf hwrote _ ih => exact .step hbuf hwrote (ih h')

theorem Saves.trans {d d' d'' : Dev} (h : Saves c d d') (h' : Saves c d' d'') : Saves c d d'' := by
  induction h with
  | refl _ => exact h'
  | step hother hbuf hwrote _ ih => exact .step hother hbuf hwrote (ih h')

theorem Saves.writes {d d' : Dev} (h : Saves c d d') : Writes c d d' := by
  induction h with
  | refl _ => exact .refl _
  | step _ hbuf hwrote _ ih => exact .step hbuf hwrote ih

theorem Wrote.both {d d' : Dev} {b : Bool} {buf : List Byte} (h : Wrote c d b buf d')
    (hother : Valid (c.part d.mem (!b))) (hbuf : Valid buf) : Both c d' := by
  intro b'
  by_cases hb : b' = b
  · rw [hb, h.part_eq hbuf.1]
    exact hbuf
  · have hnot : b' = !b := by cases b <;> cases b' <;> simp_all
    rw [hnot, h.part_other]
    exact hother

theorem Writes.saves {d d' : Dev} (h : Writes c d d') (hboth : Both c d) :
    Saves c d d' ∧ Both c d' := by
  induction h with
  | refl _ => exact ⟨.refl _, hboth⟩
  | step hbuf hwrote _ ih =>
    obtain ⟨hsaves, hend⟩ := ih (hwrote.both (hboth _) hbuf)
    exact ⟨.step (hboth _) hbuf hwrote hsaves, hend⟩

/-- The store between two calls: the driver is installed, and the defaults are not being updated. -/
structure Live (c : Chip) (s : State) : Prop where
  installed : s.dev.insideFls = some c.density
  updp : s.updpMode = false

/-- The same with both partitions complete. -/
structure Ready (c : Chip) (s : State) : Prop where
  installed : s.dev.insideFls = some c.density
  updp : s.updpMode = false
  both : Both c s.dev

theorem Ready.live {s : State} (h : Ready c s) : Live c s := ⟨h.installed, h.updp⟩

/-! ## One write -/

/-- `param_to_flash` next to a complete partition. -/
theorem paramToFlash_saves {s : State} (hd : s.dev.insideFls = some c.density) (heap : Nat → Bool)
    (id : Int) (hid : ¬ (id < -1 ∨ 66 ≤ id)) {partitionNum : Int} {b : Bool}
    (hb : isSecond (s.target partitionNum) = b) (hother : Valid (c.part s.dev.mem (!b))) :
    let s' := (paramToFlash c heap id partitionNum s).2
    Saves c s.dev s'.dev ∧ Both c s'.dev ∧ s'.dev.insideFls = some c.density ∧
      s'.updpMode = s.updpMode ∧ s'.flashParam.parameters = s.flashParam.parameters := by
  obtain ⟨d', hs, hwrote, _⟩ := paramToFlash_spec hd heap hid partitionNum
  rw [hb] at hwrote
  have hvalid := stamp_valid s.flashParam (s.target partitionNum)
  rw [hs]
  exact ⟨.step hother hvalid hwrote (.refl _), hwrote.both hother hvalid, hwrote.installed.trans hd,
    rfl, rfl⟩

/-- `param_to_flash` in every state. Only an identifier out of range keeps it from writing. -/
theorem Live.paramToFlash {s : State} (h : Live c s) (heap : Nat → Bool) (id partitionNum : Int) :
    Writes c s.dev (Param.paramToFlash c heap id partitionNum s).2.dev ∧
      Live c (Param.paramToFlash c heap id partitionNum s).2 := by
  by_cases hid : id < -1 ∨ 66 ≤ id
  · rw [Param.paramToFlash, if_pos hid]
    exact ⟨.refl _, h⟩
  · obtain ⟨d', hs, hwrote, _⟩ := paramToFlash_spec h.installed heap hid partitionNum
    rw [hs]
    exact ⟨.step (stamp_valid _ _) hwrote (.refl _), hwrote.installed.trans h.installed, h.updp⟩

/-! ## Calls -/

theorem Live.withParams {s : State} (h : Live c s) (p : Params) : Live c (s.withParams p) :=
  ⟨h.installed, h.updp⟩

theorem Ready.withParams {s : State} (h : Ready c s) (p : Params) : Ready c (s.withParams p) :=
  ⟨h.installed, h.updp, h.both⟩

theorem loadFactoryDefault_dev (s : State) : (loadFactoryDefault s).dev = s.dev := rfl

theorem loadFactoryDefault_updp (s : State) : (loadFactoryDefault s).updpMode = s.updpMode := rfl

/-- `tls_param_set` outside an update of the defaults: it refuses, or it sets the member in RAM and
persists it when asked to. -/
theorem tlsParamSet_cases {s : State} (hupdp : s.updpMode = false) (heap : Nat → Bool) (id : Int)
    (argv : Option (List Byte)) (toFlash : Bool) :
    (∃ st, st ≠ .ok ∧ tlsParamSet c heap id argv toFlash s = (st, s)) ∨
      ∃ a p, argv = some a ∧ ¬ (id < -1 ∨ 66 ≤ id) ∧ s.flashParam.parameters.set id a = some p ∧
        tlsParamSet c heap id argv toFlash s =
          if toFlash then paramToFlash c (later heap 1) id (-1) (s.withParams p)
          else (.ok, s.withParams p) := by
  unfold tlsParamSet
  split
  · exact .inl ⟨_, by decide, rfl⟩
  · rename_i hid
    split
    · exact .inl ⟨_, by decide, rfl⟩
    · rename_i a
      rw [if_neg (by simp [hupdp])]
      split
      · exact .inl ⟨_, by decide, rfl⟩
      · rename_i p hp
        exact .inr ⟨a, p, rfl, hid, hp, rfl⟩

/-- The two writes of the factory defaults, as `tls_param_init` and `tls_param_to_default` do
them. -/
theorem Live.writeDefaults {s : State} (h : Live c s) (heap : Nat → Bool) :
    Writes c s.dev (Param.writeDefaults c heap s).2.dev ∧
      Live c (Param.writeDefaults c heap s).2 := by
  obtain ⟨hwrites1, h1⟩ := (h.withParams factoryParams).paramToFlash heap (-1) 0
  rw [← show loadFactoryDefault s = s.withParams factoryParams from rfl, loadFactoryDefault_dev]
    at hwrites1
  unfold Param.writeDefaults
  split
  · rename_i s1 e
    rw [← show loadFactoryDefault s = s.withParams factoryParams from rfl, e] at h1
    rw [e] at hwrites1
    obtain ⟨hwrites2, h2⟩ := h1.paramToFlash (later heap 2) (-1) 1
    exact ⟨hwrites1.trans hwrites2, h2⟩
  · exact ⟨hwrites1, h1⟩

theorem toDefault_eq (heap : Nat → Bool) (s : State) :
    (tlsParamToDefault c heap s).2.dev = (writeDefaults c heap s).2.dev ∧
      (tlsParamToDefault c heap s).2.updpMode = (writeDefaults c heap s).2.updpMode := by
  unfold tlsParamToDefault writeDefaults
  split
  · exact ⟨rfl, rfl⟩
  · exact ⟨rfl, rfl⟩

theorem next_writes {s : State} (h : Live c s) (x : Call) :
    Writes c s.dev (next c s x).dev ∧ Live c (next c s x) := by
  cases x with
  | set id argv toFlash heap =>
    rcases tlsParamSet_cases (c := c) h.updp heap id argv toFlash with
      ⟨st, _, e⟩ | ⟨a, p, _, _, _, e⟩
    · rw [next, call, e]
      exact ⟨.refl _, h⟩
    · rw [next, call, e]
      split
      · exact (h.withParams p).paramToFlash _ _ _
      · exact ⟨.refl _, h.withParams p⟩
  | toFlash id heap =>
    simp only [next, call, tlsParamToFlash]
    split
    · exact ⟨.refl _, h⟩
    · exact h.paramToFlash _ _ _
  | toDefault heap =>
    obtain ⟨hdev, hupdp⟩ := toDefault_eq (c := c) heap s
    obtain ⟨hwrites, h1⟩ := h.writeDefaults heap
    refine ⟨?_, ?_, ?_⟩
    · rw [next, call, hdev]
      exact hwrites
    · rw [next, call, hdev]
      exact h1.installed
    · rw [next, call, hupdp]
      exact h1.updp

/-- Next to complete partitions every call writes only beside a complete one, and leaves both
complete. -/
theorem next_saves {s : State} (h : Ready c s) (x : Call) :
    Saves c s.dev (next c s x).dev ∧ Ready c (next c s x) := by
  obtain ⟨hwrites, hlive⟩ := next_writes h.live x
  obtain ⟨hsaves, hboth⟩ := hwrites.saves h.both
  exact ⟨hsaves, hlive.installed, hlive.updp, hboth⟩

/-! ## Loading -/

theorem target_zero (s : State) : isSecond (s.target 0) = false := rfl

theorem target_one (s : State) : isSecond (s.target 1) = true := rfl

theorem target_next {s : State} (h : s.flashParam.partitionNum = 0#16) :
    isSecond (s.target (-1)) = true := by
  rw [State.target, if_pos (by omega), h]
  rfl

theorem repair_saves {s : State} (hd : s.dev.insideFls = some c.density) (hupdp : s.updpMode = false)
    {ok : Bool → Bool} (hvalid : ∀ b, ok b = true → Valid (c.part s.dev.mem b))
    (hone : ok false = true ∨ ok true = true) {isDamage : Nat → Bool}
    (hfirst : isDamage 0 = !ok false) (hsecond : isDamage 1 = !ok true) (heap : Nat → Bool) :
    let s' := (repair c heap isDamage s).2
    Saves c s.dev s'.dev ∧ Ready c s' ∧ s'.flashParam.parameters = s.flashParam.parameters := by
  unfold repair
  rw [hfirst, hsecond]
  cases ok0 : ok false with
  | true =>
    simp only [Bool.not_true, Bool.false_eq_true, if_false]
    cases ok1 : ok true with
    | true =>
      refine ⟨.refl _, ⟨hd, hupdp, ?_⟩, rfl⟩
      intro b
      cases b
      · exact hvalid _ ok0
      · exact hvalid _ ok1
    | false =>
      obtain ⟨hsaves, hboth, hins, hupdp', hpar⟩ := paramToFlash_saves hd (later heap 2)
        (-1) (by omega) (target_one s) (hvalid _ ok0)
      exact ⟨hsaves, ⟨hins, hupdp'.trans hupdp, hboth⟩, hpar⟩
  | false =>
    have ok1 : ok true = true := by simpa [ok0] using hone
    obtain ⟨hsaves, hboth, hins, hupdp', hpar⟩ := paramToFlash_saves hd heap
      (-1) (by omega) (target_zero s) (hvalid _ ok1)
    simp only [ok1, Bool.not_true, Bool.not_false, Bool.false_eq_true, if_true, if_false]
    split
    · rename_i s1 e
      rw [e] at hsaves hboth hins hupdp' hpar
      exact ⟨hsaves, ⟨hins, hupdp'.trans hupdp, hboth⟩, hpar⟩
    · rename_i s1 e
      rw [e] at hsaves hboth hins hupdp' hpar
      exact ⟨hsaves, ⟨hins, hupdp'.trans hupdp, hboth⟩, hpar⟩

theorem asEio_snd (r : Status × State) : (asEio r).2 = r.2 := by
  obtain ⟨st, s⟩ := r
  cases st <;> rfl

theorem init_eq {d : Dev} {env : InitEnv} (hsem : env.sem = true) (hheap : env.heap 0 = true) :
    tlsParamInit hw c env (State.reset d) =
      let r := scan hw c env.around d
      let s := { State.reset d with dev := r.dev, flashParam := r.flashParam }
      if 2 ≤ r.damaged then asEio (writeDefaults c (later env.heap 1) s)
      else asEio (repair c (later env.heap 1) r.isDamage s) := by
  have hmagic : (State.reset d).flashParam.magic ≠ paramMagic := by
    rw [show (State.reset d).flashParam.magic = 0#32 from rfl]
    decide
  unfold tlsParamInit
  rw [if_neg hmagic, if_neg (by simp [hsem])]
  simp only [hheap, Bool.true_eq_false, if_false]
  rfl

theorem init_ok_env {d : Dev} {env : InitEnv} (h : (tlsParamInit hw c env (State.reset d)).1 = .ok) :
    env.sem = true ∧ env.heap 0 = true := by
  have hmagic : (State.reset d).flashParam.magic ≠ paramMagic := by
    rw [show (State.reset d).flashParam.magic = 0#32 from rfl]
    decide
  have hsem : env.sem = true := by
    by_contra hno
    rw [tlsParamInit, if_neg hmagic, if_pos (by simpa using hno)] at h
    simp at h
  refine ⟨hsem, ?_⟩
  by_contra hno
  rw [tlsParamInit, if_neg hmagic, if_neg (by simp [hsem])] at h
  simp [hno] at h

theorem Live.repair {s : State} (h : Live c s) (heap : Nat → Bool) (isDamage : Nat → Bool) :
    Writes c s.dev (Param.repair c heap isDamage s).2.dev ∧
      Live c (Param.repair c heap isDamage s).2 := by
  have hfirst : ∀ r, r = (if isDamage 0 then Param.paramToFlash c heap (-1) 0 s else (.ok, s)) →
      Writes c s.dev r.2.dev ∧ Live c r.2 := by
    rintro r rfl
    split
    · exact h.paramToFlash _ _ _
    · exact ⟨.refl _, h⟩
  unfold Param.repair
  simp only []
  split
  · rename_i s1 e
    obtain ⟨hwrites1, h1⟩ := hfirst _ e.symm
    split
    · obtain ⟨hwrites2, h2⟩ := h1.paramToFlash (later heap 2) (-1) 1
      exact ⟨hwrites1.trans hwrites2, h2⟩
    · exact ⟨hwrites1, h1⟩
  · rename_i e
    have h1 := hfirst _ e.symm
    exact h1

theorem init_writes (hw : Engine) {d : Dev} (hd : d.insideFls = some c.density) (env : InitEnv) :
    Writes c d (tlsParamInit hw c env (State.reset d)).2.dev ∧
      Live c (tlsParamInit hw c env (State.reset d)).2 := by
  have hmagic : (State.reset d).flashParam.magic ≠ paramMagic := by
    rw [show (State.reset d).flashParam.magic = 0#32 from rfl]
    decide
  have hlive : Live c (State.reset d) := ⟨hd, rfl⟩
  by_cases henv : env.sem = true ∧ env.heap 0 = true
  · have hs : ∀ p, Live c { State.reset d with dev := d, flashParam := p } := fun _ => ⟨hd, rfl⟩
    rw [init_eq henv.1 henv.2]
    simp only [scan_dev]
    split
    · rw [asEio_snd]
      exact (hs _).writeDefaults _
    · rw [asEio_snd]
      exact (hs _).repair _ _
  · unfold tlsParamInit
    rw [if_neg hmagic]
    split
    · exact ⟨.refl _, hlive⟩
    · rename_i hsem
      have hheap : env.heap 0 = false := by
        cases h : env.heap 0 with
        | false => rfl
        | true => exact absurd ⟨by simpa using hsem, h⟩ henv
      simp only [hheap, if_true]
      exact ⟨.refl _, hd, rfl⟩

/-- On a flash with at least one complete partition it loads a complete one, and repairs the other
one if it is damaged. -/
theorem init_saves (hr : Reflected hw) {d : Dev} (hd : d.insideFls = some c.density) {env : InitEnv}
    (hsem : env.sem = true) (hheap : env.heap 0 = true) {ok : Bool → Bool}
    (hok : ∀ b, if ok b then Valid (c.part d.mem b) else Damaged hw (c.part d.mem b))
    (hone : ok false = true ∨ ok true = true) :
    let s := (tlsParamInit hw c env (State.reset d)).2
    Saves c d s.dev ∧ Ready c s ∧ s.flashParam.parameters = (c.loaded d.mem ok).parameters := by
  obtain ⟨hdev, hpar, hfirst, hsecond, hall⟩ := scan_spec hr hd env.around ok hok
  have hnot : ¬ 2 ≤ (scan hw c env.around d).damaged := by
    rw [hall]
    rintro ⟨h0, h1⟩
    simp [h0, h1] at hone
  rw [init_eq hsem hheap]
  simp only [hdev, hpar, if_neg hnot, asEio_snd]
  refine repair_saves (s := { State.reset d with dev := d, flashParam := c.loaded d.mem ok }) hd rfl
    ?_ hone hfirst hsecond _
  intro b hb
  have h := hok b
  rwa [if_pos hb] at h

theorem init_both (hr : Reflected hw) {d : Dev} (hd : d.insideFls = some c.density) {env : InitEnv}
    (hsem : env.sem = true) (hheap : env.heap 0 = true) (hboth : Both c d) :
    tlsParamInit hw c env (State.reset d) =
      (.ok, { State.reset d with flashParam := ParamFlash.ofBytes (c.part d.mem (c.chosen d.mem)) }) := by
  have hok : ∀ b, if (fun _ => true : Bool → Bool) b then Valid (c.part d.mem b)
      else Damaged hw (c.part d.mem b) := by
    intro b
    rw [if_pos rfl]
    exact hboth b
  obtain ⟨hdev, hpar, hfirst, hsecond, hall⟩ := scan_spec hr hd env.around _ hok
  have hnot : ¬ 2 ≤ (scan hw c env.around d).damaged := by
    rw [hall]
    decide
  have hloaded : c.loaded d.mem (fun _ => true) = ParamFlash.ofBytes (c.part d.mem (c.chosen d.mem)) := rfl
  rw [init_eq hsem hheap]
  simp only [hdev, hpar, if_neg hnot, repair, hfirst, hsecond, hloaded]
  rfl

theorem writeDefaults_both {s : State} (hd : s.dev.insideFls = some c.density)
    (hupdp : s.updpMode = false) {heap : Nat → Bool} (h : (writeDefaults c heap s).1 = .ok) :
    Ready c (writeDefaults c heap s).2 := by
  unfold writeDefaults at h ⊢
  rw [← loadFactoryDefault_dev] at hd
  rw [← loadFactoryDefault_updp] at hupdp
  generalize loadFactoryDefault s = s0 at h hd hupdp ⊢
  obtain ⟨d1, e, hwrote, _⟩ := paramToFlash_spec hd heap (show ¬ ((-1 : Int) < -1 ∨ 66 ≤ -1) by decide) 0
  have hpart := hwrote.part_eq (stamp_valid _ _).1
  generalize paramToFlash c heap (-1) 0 s0 = r at e h ⊢
  obtain ⟨st, s1⟩ := r
  simp only [] at e
  cases st with
  | ok =>
    -- the first partition is complete when the second one is written
    have hfirst : Valid (c.part s1.dev.mem false) := by
      rw [e]
      simp only []
      rw [target_zero] at hpart
      rw [hpart]
      exact stamp_valid _ _
    have hins : s1.dev.insideFls = some c.density := by
      rw [e]
      exact hwrote.installed.trans hd
    obtain ⟨_, hboth, hins', hupdp', _⟩ := paramToFlash_saves hins (later heap 2) (-1)
      (by omega) (target_one s1) hfirst
    exact ⟨hins', hupdp'.trans (by rw [e]; exact hupdp), hboth⟩
  | einvalid => simp at h
  | emem => simp at h
  | eio => simp at h
  | eperm => simp at h
  | einvalidid => simp at h

theorem exists_ok {m : Nat → Byte} (hparts : ∀ b, Valid (c.part m b) ∨ Damaged hw (c.part m b)) :
    ∃ ok : Bool → Bool, ∀ b, if ok b then Valid (c.part m b) else Damaged hw (c.part m b) := by
  have h : ∀ b, ∃ o : Bool, if o then Valid (c.part m b) else Damaged hw (c.part m b) := by
    intro b
    rcases hparts b with hv | hdam
    · exact ⟨true, by rw [if_pos rfl]; exact hv⟩
    · exact ⟨false, by rw [if_neg (by decide)]; exact hdam⟩
  exact ⟨fun b => (h b).choose, fun b => (h b).choose_spec⟩

/-- Whatever it found: when `tls_param_init` returns OK, both partitions are complete. -/
theorem init_ok_both (hr : Reflected hw) {d : Dev} (hd : d.insideFls = some c.density) {env : InitEnv}
    (hparts : ∀ b, Valid (c.part d.mem b) ∨ Damaged hw (c.part d.mem b))
    (h : (tlsParamInit hw c env (State.reset d)).1 = .ok) :
    Ready c (tlsParamInit hw c env (State.reset d)).2 := by
  obtain ⟨hsem, hheap⟩ := init_ok_env h
  obtain ⟨ok, hok⟩ := exists_ok hparts
  by_cases hone : ok false = true ∨ ok true = true
  · exact (init_saves hr hd hsem hheap hok hone).2.1
  · obtain ⟨hdev, _, _, _, hall⟩ := scan_spec hr hd env.around ok hok
    have htwo : 2 ≤ (scan hw c env.around d).damaged := hall.mpr (by simpa using not_or.mp hone)
    rw [init_eq hsem hheap] at h ⊢
    simp only [if_pos htwo, asEio_snd] at h ⊢
    apply writeDefaults_both
    · simp only [hdev]
      exact hd
    · rfl
    · unfold asEio at h
      split at h
      · rename_i e
        rw [e]
      · simp at h

end Param
end Air101
