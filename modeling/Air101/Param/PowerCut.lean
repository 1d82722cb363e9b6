import Air101.Param.Durable

/-!
# Param.PowerCut

Power cuts. A boot is `tls_param_init` and any calls after it; it ends after any number of the erase
and program commands it sends, and what is in the flash then is what the next boot finds.

* `Chain.one_valid_after`: once both partitions are complete, one of them is at every later command
  of the boot.
* `Chain.part_at`: what a partition holds when the power is cut.
* `Recoverable.boot`: the invariant that one boot after the other keeps.
* `param_power_cut_safe`: the invariant over every history of boots.
* `loadRecord_mixes`: `tls_param_init` takes a record of another length for a valid one, and copies only a part
  of it over the record it has loaded.
-/

namespace Air101
namespace Param

open Storage
open Crypto
open Fls
open Utils

variable {hw : Engine} {c : Chip}

/-! ## The calls of one boot -/

/-- Driver calls that write complete records to the partitions. -/
inductive Chain (c : Chip) : (Nat → Byte) → List Ev → Prop where
  | nil (m : Nat → Byte) : Chain c m []
  | cons {m : Nat → Byte} {b : Bool} {addr : Nat} {buf : List Byte} {ops : List Op} {es : List Ev}
      (haddr : addr % 0x8000000 = c.base b) (hbuf : Valid buf) (hops : Rewrites c m b buf ops)
      (rest : Chain c (run m ops) es) : Chain c m (.write addr buf ops :: es)

/-- The cells after the first `k` commands of the calls `es`. -/
def cutAt (m : Nat → Byte) (es : List Ev) (k : Nat) : Nat → Byte := run m ((commands es).take k)

/-- The records that the calls `es` have begun to write with their first `k` commands. -/
def begun : List Ev → Nat → List (List Byte)
  | [], _ => []
  | .write _ buf ops :: es, k => if k = 0 then [] else buf :: begun es (k - ops.length)
  | .erase _ ops :: es, k => begun es (k - ops.length)

/-- Command `k` falls inside the writing of `buf` to partition `b`. -/
def Torn (c : Chip) (es : List Ev) (k : Nat) (b : Bool) (buf : List Byte) : Prop :=
  ∃ pre addr ops post, es = pre ++ .write addr buf ops :: post ∧ addr % 0x8000000 = c.base b ∧
    (commands pre).length < k ∧ k < (commands pre).length + ops.length

theorem commands_write (addr : Nat) (buf : List Byte) (ops : List Op) (es : List Ev) :
    commands (.write addr buf ops :: es) = ops ++ commands es := rfl

theorem cutAt_write (m : Nat → Byte) (addr : Nat) (buf : List Byte) (ops : List Op) (es : List Ev)
    (k : Nat) :
    (k < ops.length ∧ cutAt m (.write addr buf ops :: es) k = run m (ops.take k)) ∨
      (ops.length ≤ k ∧
        cutAt m (.write addr buf ops :: es) k = cutAt (run m ops) es (k - ops.length)) :=
  run_take_append m ops (commands es) k

theorem cutAt_zero (m : Nat → Byte) (es : List Ev) : cutAt m es 0 = m := by
  rw [cutAt, List.take_zero, run_nil]

theorem Torn.cons {es : List Ev} {k : Nat} {b : Bool} {buf : List Byte} (h : Torn c es k b buf)
    (addr : Nat) (buf' : List Byte) (ops : List Op) :
    Torn c (.write addr buf' ops :: es) (ops.length + k) b buf := by
  obtain ⟨pre, addr', ops', post, rfl, haddr, hlo, hhi⟩ := h
  refine ⟨.write addr buf' ops :: pre, addr', ops', post, rfl, haddr, ?_, ?_⟩
  · rw [commands_write, List.length_append]
    omega
  · rw [commands_write, List.length_append]
    omega

/-- Once both partitions are complete, one of them is after every later command. -/
theorem Chain.one_valid_after {m : Nat → Byte} {es : List Ev} (h : Chain c m es) {k : Nat}
    (hboth : ∀ b, Valid (c.part (cutAt m es k) b)) {j : Nat} (hkj : k ≤ j) :
    ∃ b, Valid (c.part (cutAt m es j) b) := by
  induction h generalizing k j with
  | nil m =>
    have hsame : ∀ n, cutAt m [] n = m := fun n => by simp [cutAt, commands]
    rw [hsame] at hboth ⊢
    exact ⟨false, hboth false⟩
  | @cons m b addr buf ops es _ hbuf hops _ ih =>
    rcases cutAt_write m addr buf ops es k with ⟨hk, ek⟩ | ⟨hk, ek⟩
    · -- the other partition is complete until this write is done, and then both are
      have hother : Valid (c.part m (!b)) := by
        have h := hboth (!b)
        rwa [ek, hops.part_other] at h
      rcases cutAt_write m addr buf ops es j with ⟨_, ej⟩ | ⟨_, ej⟩
      · refine ⟨!b, ?_⟩
        rw [ej, hops.part_other]
        exact hother
      · rw [ej]
        apply ih (k := 0) _ (Nat.zero_le _)
        rw [cutAt_zero]
        exact (Wrote.write (d := ⟨none, m, []⟩) addr ops ‹_› hops).both hother hbuf
    · rcases cutAt_write m addr buf ops es j with ⟨hj, _⟩ | ⟨_, ej⟩
      · omega
      · rw [ek] at hboth
        rw [ej]
        exact ih hboth (by omega)

/-- What a partition holds after a command: what it held after any earlier one, or a record whose
writing has begun, complete or torn. -/
theorem Chain.part_at {m : Nat → Byte} {es : List Ev} (h : Chain c m es) {k j : Nat} (hkj : k ≤ j)
    (b : Bool) :
    c.part (cutAt m es j) b = c.part (cutAt m es k) b ∨
      ∃ buf, Valid buf ∧ buf ∈ begun es j ∧ (c.part (cutAt m es j) b = buf ∨ Torn c es j b buf) := by
  induction h generalizing k j with
  | nil m => exact .inl (by simp [cutAt, commands])
  | @cons m b' addr buf ops es haddr hbuf hops _ ih =>
    rcases cutAt_write m addr buf ops es j with ⟨hj, ej⟩ | ⟨hj, ej⟩
    · rcases cutAt_write m addr buf ops es k with ⟨_, ek⟩ | ⟨hk, _⟩
      · by_cases hb : b = b'
        · subst hb
          by_cases hzero : j = 0
          · have hk : k = 0 := by omega
            exact .inl (by rw [hzero, hk])
          · exact .inr ⟨buf, hbuf, by simp [begun, hzero], .inr ⟨[], addr, ops, es, rfl, haddr,
              by simp [commands]; omega, by simpa [commands] using hj⟩⟩
        · have hnot : b = !b' := by cases b <;> cases b' <;> simp_all
          left
          rw [ej, ek, hnot, hops.part_other, hops.part_other]
      · omega
    · -- the record is in its partition; the calls behind it are cut
      have hpos : j ≠ 0 := by
        obtain ⟨pages, hhead⟩ := hops.head_eq
        rw [hhead] at hj
        simp at hj
        omega
      have hmem : ∀ r, r ∈ begun es (j - ops.length) → r ∈ begun (.write addr buf ops :: es) j := by
        intro r hr
        simp [begun, hpos, hr]
      have hlift : ∀ k', k' ≤ j - ops.length →
          c.part (cutAt (run m ops) es (j - ops.length)) b = c.part (cutAt (run m ops) es k') b ∨
          ∃ r, Valid r ∧ r ∈ begun (.write addr buf ops :: es) j ∧
            (c.part (cutAt m (.write addr buf ops :: es) j) b = r ∨
              Torn c (.write addr buf ops :: es) j b r) := by
        intro k' hk'
        rcases ih hk' with heq | ⟨r, hr, hin, hcase⟩
        · exact .inl heq
        · refine .inr ⟨r, hr, hmem r hin, ?_⟩
          rcases hcase with heq | htorn
          · exact .inl (by rw [ej]; exact heq)
          · have h := htorn.cons addr buf ops
            rw [show ops.length + (j - ops.length) = j by omega] at h
            exact .inr h
      rcases cutAt_write m addr buf ops es k with ⟨_, ek⟩ | ⟨hk, ek⟩
      · rcases hlift 0 (Nat.zero_le _) with heq | h
        · rw [cutAt_zero] at heq
          by_cases hb : b = b'
          · subst hb
            rw [hops.part_eq hbuf.1] at heq
            exact .inr ⟨buf, hbuf, by simp [begun, hpos], .inl (by rw [ej]; exact heq)⟩
          · have hnot : b = !b' := by cases b <;> cases b' <;> simp_all
            left
            have hall := hops.part_other ops.length
            rw [List.take_length] at hall
            rw [ej, heq, ek, hnot, hops.part_other, hall]
        · exact .inr h
      · rcases hlift (k - ops.length) (by omega) with heq | h
        · exact .inl (by rw [ej, ek]; exact heq)
        · exact .inr h

theorem Writes.chain {d d' : Dev} (h : Writes c d d') :
    ∃ es, d'.log = d.log ++ es ∧ Chain c d.mem es := by
  induction h with
  | refl d => exact ⟨[], by simp, .nil _⟩
  | step hbuf hwrote _ ih =>
    obtain ⟨es, hlog, hchain⟩ := ih
    cases hwrote with
    | same _ => exact ⟨es, hlog, hchain⟩
    | write addr ops haddr hops =>
      refine ⟨.write addr _ ops :: es, ?_, .cons haddr hbuf hops hchain⟩
      rw [hlog, Dev.issue_log, List.append_assoc]
      rfl

/-- When each call writes next to a complete partition, one is complete after every command. -/
theorem Saves.one_valid {d d' : Dev} (h : Saves c d d') (hone : ∃ b, Valid (c.part d.mem b)) :
    ∃ es, d'.log = d.log ++ es ∧ ∀ k, ∃ b, Valid (c.part (cutAt d.mem es k) b) := by
  cases h with
  | refl d => exact ⟨[], by simp, fun k => by simpa [cutAt, commands] using hone⟩
  | @step _ d1 _ b buf hother hbuf hwrote rest =>
    obtain ⟨es, hlog, hchain⟩ := rest.writes.chain
    have hboth := hwrote.both hother hbuf
    cases hwrote with
    | same hsame =>
      refine ⟨es, hlog, fun k => hchain.one_valid_after (k := 0) ?_ (Nat.zero_le k)⟩
      rw [cutAt_zero]
      exact hboth
    | write addr ops haddr hops =>
      refine ⟨.write addr buf ops :: es, ?_, fun k => ?_⟩
      · rw [hlog, Dev.issue_log, List.append_assoc]
        rfl
      · rcases cutAt_write d.mem addr buf ops es k with ⟨_, e⟩ | ⟨_, e⟩
        · refine ⟨!b, ?_⟩
          rw [e, hops.part_other]
          exact hother
        · rw [e]
          refine hchain.one_valid_after (k := 0) ?_ (Nat.zero_le _)
          rw [cutAt_zero]
          exact hboth

/-! ## Boots -/

/-- A boot: what surrounds `tls_param_init`, the calls after it, and the number of commands after
which the power is cut. -/
structure Boot where
  env : InitEnv
  calls : List Call
  cut : Nat

/-- The flash that a boot finds. -/
def Chip.device (c : Chip) (m : Nat → Byte) : Dev := ⟨some c.density, m, []⟩

@[simp] theorem Chip.device_mem (c : Chip) (m : Nat → Byte) : (c.device m).mem = m := rfl

section Boots

variable (hw : Engine) (c : Chip)

/-- The store after the calls of a boot, if the power stayed on. -/
def Boot.state (x : Boot) (m : Nat → Byte) : State :=
  runs (next c) (tlsParamInit hw c x.env (State.reset (c.device m))).2 x.calls

/-- The driver calls of a boot. -/
def Boot.log (x : Boot) (m : Nat → Byte) : List Ev := (x.state hw c m).dev.log

/-- The cells after the first `k` commands of a boot. -/
def Boot.flash (x : Boot) (m : Nat → Byte) (k : Nat) : Nat → Byte := cutAt m (x.log hw c m) k

/-- The cells that the next boot finds. -/
def powerCut (m : Nat → Byte) (x : Boot) : Nat → Byte := x.flash hw c m x.cut

/-- A sector whose writing is cut off has the whole record already, or fails the test of
`tls_param_init`. -/
def TornFails (m : Nat → Byte) (x : Boot) : Prop :=
  ∀ b buf, Torn c (x.log hw c m) x.cut b buf →
    c.part (powerCut hw c m x) b = buf ∨ Damaged hw (c.part (powerCut hw c m x) b)

/-- The records whose writing has begun in a history of boots. -/
def written : (Nat → Byte) → List Boot → List (List Byte)
  | _, [] => []
  | m, x :: xs => begun (x.log hw c m) x.cut ++ written (powerCut hw c m x) xs

end Boots

theorem runs_writes {s : State} (h : Live c s) (cs : List Call) :
    Writes c s.dev (runs (next c) s cs).dev := by
  induction cs generalizing s with
  | nil => exact .refl _
  | cons x cs ih =>
    obtain ⟨hwrites, hlive⟩ := next_writes h x
    exact hwrites.trans (ih hlive)

theorem Boot.chain (hw : Engine) (c : Chip) (x : Boot) (m : Nat → Byte) : Chain c m (x.log hw c m) := by
  obtain ⟨hinit, hlive⟩ := init_writes hw (c := c) (d := c.device m) rfl x.env
  obtain ⟨es, hlog, hchain⟩ := (hinit.trans (runs_writes hlive x.calls)).chain
  rw [Boot.log, Boot.state, hlog]
  exact hchain

/-- What a partition holds when the power is cut: what it held at an earlier command, a complete
record whose writing had begun, or something damaged. -/
theorem Boot.part_cut {x : Boot} {m : Nat → Byte} (htorn : TornFails hw c m x) {k : Nat}
    (hk : k ≤ x.cut) (b : Bool) :
    let now := c.part (powerCut hw c m x) b
    now = c.part (x.flash hw c m k) b ∨ (Valid now ∧ now ∈ begun (x.log hw c m) x.cut) ∨
      Damaged hw now := by
  rcases (x.chain hw c m).part_at hk b with heq | ⟨buf, hbuf, hin, hcase⟩
  · exact .inl heq
  · have hend : c.part (powerCut hw c m x) b = buf ∨ Damaged hw (c.part (powerCut hw c m x) b) := by
      rcases hcase with heq | ht
      · exact .inl heq
      · exact htorn b buf ht
    rcases hend with heq | hdam
    · refine .inr (.inl ⟨?_, ?_⟩)
      · rw [heq]
        exact hbuf
      · rw [heq]
        exact hin
    · exact .inr (.inr hdam)

/-! ## The invariant between boots -/

/-- What a boot may rely on: each partition is one of the complete records `rs` or fails the test,
and at least one is complete. -/
structure Recoverable (hw : Engine) (c : Chip) (rs : List (List Byte)) (m : Nat → Byte) : Prop where
  parts : ∀ b, (Valid (c.part m b) ∧ c.part m b ∈ rs) ∨ Damaged hw (c.part m b)
  one : ∃ b, Valid (c.part m b)

/-- A boot that finds such a flash: the scan does not find both partitions damaged, RAM gets one of
the records, and one partition is complete after every command. -/
theorem Recoverable.init (hr : Reflected hw) {rs : List (List Byte)} {m : Nat → Byte}
    (h : Recoverable hw c rs m) {x : Boot} (hsem : x.env.sem = true) (hheap : x.env.heap 0 = true) :
    (scan hw c x.env.around (c.device m)).damaged < 2 ∧
      (∃ r ∈ rs, Valid r ∧
        (tlsParamInit hw c x.env (State.reset (c.device m))).2.flashParam.parameters =
          (ParamFlash.ofBytes r).parameters) ∧
      ∀ k, ∃ b, Valid (c.part (x.flash hw c m k) b) := by
  have hparts : ∀ b, Valid (c.part m b) ∨ Damaged hw (c.part m b) := fun b =>
    (h.parts b).imp And.left id
  obtain ⟨ok, hok⟩ := exists_ok hparts
  have hrs : ∀ b, ok b = true → Valid (c.part m b) ∧ c.part m b ∈ rs := by
    intro b hb
    have hv := hok b
    rw [if_pos hb] at hv
    rcases h.parts b with hin | hdam
    · exact hin
    · exact absurd hv (hdam.not_valid hr)
  have hone : ok false = true ∨ ok true = true := by
    obtain ⟨b, hb⟩ := h.one
    have hokb : ok b = true := by
      by_contra hno
      have hdam := hok b
      rw [if_neg hno] at hdam
      exact hdam.not_valid hr hb
    cases b
    · exact .inl hokb
    · exact .inr hokb
  obtain ⟨_, _, _, _, hall⟩ := scan_spec hr (d := c.device m) rfl x.env.around ok hok
  obtain ⟨hsaves, hready, hpar⟩ := init_saves hr (d := c.device m) rfl hsem hheap hok hone
  refine ⟨?_, ?_, ?_⟩
  · by_contra hno
    obtain ⟨h0, h1⟩ := hall.mp (by omega)
    simp [h0, h1] at hone
  · have hloaded : ∃ b, ok b = true ∧ c.loaded m ok = ParamFlash.ofBytes (c.part m b) := by
      unfold Chip.loaded
      cases ok0 : ok false with
      | true =>
        cases ok1 : ok true with
        | true => exact ⟨c.chosen m, by cases c.chosen m <;> assumption, rfl⟩
        | false => exact ⟨false, ok0, rfl⟩
      | false =>
        have ok1 : ok true = true := by simpa [ok0] using hone
        exact ⟨true, ok1, by simp [ok1]⟩
    obtain ⟨b, hb, e⟩ := hloaded
    obtain ⟨hv, hin⟩ := hrs b hb
    exact ⟨_, hin, hv, by rw [hpar, ← e]; rfl⟩
  · obtain ⟨hrest, _⟩ := (runs_writes hready.live x.calls).saves hready.both
    obtain ⟨es, hlog, hvalid⟩ := (hsaves.trans hrest).one_valid h.one
    intro k
    have hes : x.log hw c m = es := hlog
    rw [Boot.flash, hes]
    exact hvalid k

theorem Recoverable.of_point {rs : List (List Byte)} {m : Nat → Byte} {x : Boot}
    (htorn : TornFails hw c m x) {k : Nat} (hk : k ≤ x.cut)
    (hparts : ∀ b, (Valid (c.part (x.flash hw c m k) b) ∧ c.part (x.flash hw c m k) b ∈ rs) ∨
      Damaged hw (c.part (x.flash hw c m k) b))
    (hone : ∃ b, Valid (c.part (powerCut hw c m x) b)) :
    Recoverable hw c (rs ++ begun (x.log hw c m) x.cut) (powerCut hw c m x) := by
  refine ⟨fun b => ?_, hone⟩
  rcases Boot.part_cut htorn hk b with heq | ⟨hv, hin⟩ | hdam
  · rcases hparts b with ⟨hv, hin⟩ | hdam
    · exact .inl (by rw [heq]; exact ⟨hv, List.mem_append_left _ hin⟩)
    · exact .inr (by rw [heq]; exact hdam)
  · exact .inl ⟨hv, List.mem_append_right _ hin⟩
  · exact .inr hdam

theorem Recoverable.boot (hr : Reflected hw) {rs : List (List Byte)} {m : Nat → Byte}
    (h : Recoverable hw c rs m) {x : Boot} (hsem : x.env.sem = true) (hheap : x.env.heap 0 = true)
    (htorn : TornFails hw c m x) :
    Recoverable hw c (rs ++ begun (x.log hw c m) x.cut) (powerCut hw c m x) := by
  obtain ⟨_, _, hvalid⟩ := h.init hr hsem hheap
  refine .of_point htorn (Nat.zero_le _) ?_ (hvalid x.cut)
  intro b
  rw [Boot.flash, cutAt_zero]
  exact h.parts b

theorem Recoverable.boots (hr : Reflected hw) {rs : List (List Byte)} {m : Nat → Byte}
    (h : Recoverable hw c rs m) (xs : List Boot)
    (hgot : ∀ x ∈ xs, x.env.sem = true ∧ x.env.heap 0 = true)
    (htorn : ∀ p ∈ trace (powerCut hw c) m xs, TornFails hw c p.1 p.2) :
    Recoverable hw c (rs ++ written hw c m xs) (runs (powerCut hw c) m xs) := by
  induction xs generalizing rs m with
  | nil => simpa [written] using h
  | cons x xs ih =>
    rw [trace, List.forall_mem_cons] at htorn
    rw [List.forall_mem_cons] at hgot
    have hnext := ih (h.boot hr hgot.1.1 hgot.1.2 htorn.1) hgot.2 htorn.2
    rw [List.append_assoc] at hnext
    exact hnext

/-- For every boot `x` on any flash with both partitions complete at its command `k`, and every
history of boots after it whose `tls_param_init` gets the semaphore and its buffer: at every later
command one of the partitions is complete, and every later `tls_param_init` finds at most one of
them damaged and loads one complete record, one that was there at command `k` or one whose writing
has begun since `x`. -/
theorem param_power_cut_safe (hw : Engine) (hr : Reflected hw) (c : Chip) (m : Nat → Byte) (x : Boot)
    (xs : List Boot) {k : Nat} (hk : k ≤ x.cut) (hboth : ∀ b, Valid (c.part (x.flash hw c m k) b))
    (hgot : ∀ y ∈ xs, y.env.sem = true ∧ y.env.heap 0 = true)
    (htorn : ∀ p ∈ trace (powerCut hw c) m (x :: xs), TornFails hw c p.1 p.2) :
    (∀ j, k ≤ j → ∃ b, Valid (c.part (x.flash hw c m j) b)) ∧
      ∀ pre y post, xs = pre ++ y :: post →
        let m' := runs (powerCut hw c) m (x :: pre)
        (∀ j, ∃ b, Valid (c.part (y.flash hw c m' j) b)) ∧
          (scan hw c y.env.around (c.device m')).damaged < 2 ∧
          ∃ r, Valid r ∧ (r = c.part (x.flash hw c m k) false ∨ r = c.part (x.flash hw c m k) true ∨
              r ∈ written hw c m (x :: pre)) ∧
            (tlsParamInit hw c y.env (State.reset (c.device m'))).2.flashParam.parameters =
              (ParamFlash.ofBytes r).parameters := by
  have hsame : ∀ j, k ≤ j → ∃ b, Valid (c.part (x.flash hw c m j) b) := fun j hj =>
    (x.chain hw c m).one_valid_after hboth hj
  refine ⟨hsame, ?_⟩
  rintro pre y post rfl
  rw [trace, List.forall_mem_cons] at htorn
  have hfirst : Recoverable hw c ([c.part (x.flash hw c m k) false, c.part (x.flash hw c m k) true] ++
      begun (x.log hw c m) x.cut) (powerCut hw c m x) := by
    refine .of_point htorn.1 hk (fun b => .inl ⟨hboth b, ?_⟩) (hsame x.cut hk)
    cases b <;> simp
  have hpre := hfirst.boots hr pre (fun z hz => hgot z (List.mem_append_left _ hz)) (by
    intro p hp
    apply htorn.2
    rw [trace_append]
    exact List.mem_append_left _ hp)
  obtain ⟨hsem, hheap⟩ := hgot y (List.mem_append_right _ List.mem_cons_self)
  obtain ⟨hdam, ⟨r, hin, hv, hpar⟩, hvalid⟩ := hpre.init hr hsem hheap
  refine ⟨hvalid, hdam, r, hv, ?_, hpar⟩
  rw [List.append_assoc, List.mem_append, List.mem_cons, List.mem_singleton] at hin
  rcases hin with (h | h) | h
  · exact .inl h
  · exact .inr (.inl h)
  · exact .inr (.inr h)

/-! ## The first command of a write -/

theorem erased_damaged {m : Nat → Byte} {b : Bool} (h : ∀ i, i < 4 → m (c.base b + i) = 0xFF#8) :
    Damaged hw (c.part m b) := by
  apply damaged_of_magic
  have hcells : ((c.part m b).drop 0).take 4 = List.replicate 4 0xFF#8 := by
    rw [Chip.part, slice_slice _ _ _ _ _ (by omega), Nat.add_zero]
    apply List.ext_getElem
    · simp
    · intro i h1 h2
      rw [slice_length] at h1
      rw [slice_getElem, h i h1, List.getElem_replicate]
  have hfield : field (c.part m b) 0 4 = leNat (List.replicate 4 0xFF#8) := by
    rw [field, hcells]
  simp only [ParamFlash.ofBytes, hfield]
  decide

theorem cut_one (hw : Engine) {m : Nat → Byte} {b : Bool} {buf : List Byte} {ops : List Op}
    (hops : Rewrites c m b buf ops) (addr : Nat) (es : List Ev) :
    Damaged hw (c.part (cutAt m (.write addr buf ops :: es) 1) b) ∧
      c.part (cutAt m (.write addr buf ops :: es) 1) (!b) = c.part m (!b) := by
  obtain ⟨pages, hhead⟩ := hops.head_eq
  have hcut : cutAt m (.write addr buf ops :: es) 1 = run m (ops.take 1) := by
    rw [cutAt, commands_write, hhead]
    rfl
  rw [hcut]
  refine ⟨erased_damaged ?_, hops.part_other 1⟩
  intro i hi
  rw [hhead]
  simp only [List.take_succ_cons, List.take_zero, run_cons, run_nil, Op.apply]
  rw [if_pos (by omega)]

theorem tornFails_one {m : Nat → Byte} {x : Boot} (hcut : x.cut ≤ 1) : TornFails hw c m x := by
  rintro b buf ⟨pre, addr, ops, post, hlog, haddr, hlo, _⟩
  have hchain := x.chain hw c m
  have hone : x.cut = 1 := by omega
  rw [powerCut, Boot.flash, hone]
  rw [hlog] at hchain ⊢
  cases pre with
  | nil =>
    cases hchain with
    | @cons _ b' _ _ _ _ haddr' _ hops _ =>
      have hb : b' = b := by
        have hapart := c.base_apart b
        by_contra hne
        have hnot : b' = !b := by cases b <;> cases b' <;> simp_all
        rw [hnot] at haddr'
        omega
      subst hb
      exact .inr (cut_one hw hops addr post).1
  | cons e pre =>
    -- the writes before it have sent commands already
    exfalso
    cases hchain with
    | cons _ _ hops _ =>
      obtain ⟨pages, hhead⟩ := hops.head_eq
      rw [commands_write, hhead] at hlo
      simp at hlo
      omega

theorem param_power_cut_safe_encry :
    let m := (air101Chip.filled .zero).mem
    let x : Boot := ⟨plenty, [], 0⟩
    let y : Boot := ⟨plenty, [setEncry 1#8], 1⟩
    let m' := runs (powerCut softEngine air101Chip) m [x, y]
    (∃ b, Valid (air101Chip.part m' b)) ∧
      (scan softEngine air101Chip plenty.around (air101Chip.device m')).damaged < 2 := by
  generalize ParamFlash.zero = p
  intro m x y m'
  have hboth : ∀ b, Valid (air101Chip.part (x.flash softEngine air101Chip m 0) b) := by
    intro b
    rw [Boot.flash, cutAt_zero]
    exact filled_both air101Chip p b
  obtain ⟨_, hlater⟩ := param_power_cut_safe softEngine softEngine_reflected air101Chip m x [y, x]
    (Nat.zero_le _) hboth (by simp [x, y, plenty]) (by
      intro q hq
      apply tornFails_one
      have hmem := mem_of_mem_trace hq
      simp only [List.mem_cons, List.not_mem_nil, or_false] at hmem
      rcases hmem with h | h | h <;> rw [h] <;> decide)
  obtain ⟨hvalid, hdam, _⟩ := hlater [y] x [] rfl
  refine ⟨?_, hdam⟩
  have h := hvalid 0
  rw [Boot.flash, cutAt_zero] at h
  exact h

/-! ## A boot without a buffer -/

theorem paramToFlash_write {s : State} (h : Live c s) (heap : Nat → Bool) (id : Int)
    (hid : ¬ (id < -1 ∨ 66 ≤ id)) {partitionNum : Int} {b : Bool}
    (hb : isSecond (s.target partitionNum) = b)
    (hne : c.part s.dev.mem b ≠ (s.flashParam.stamp (s.target partitionNum)).bytes) :
    ∃ addr buf ops, (paramToFlash c heap id partitionNum s).2.dev = s.dev.issue (.write addr buf ops) ∧
      Rewrites c s.dev.mem b buf ops := by
  obtain ⟨d', e, hwrote, _⟩ := paramToFlash_spec h.installed heap hid partitionNum
  rw [hb] at hwrote
  rw [e]
  cases hwrote with
  | same hsame => exact absurd hsame hne
  | write addr ops haddr hops => exact ⟨addr, _, ops, rfl, hops⟩

theorem toDefault_log {s : State} (h : Live c s) (heap : Nat → Bool)
    (hne : (ParamFlash.ofBytes (c.part s.dev.mem false)).parameters ≠ factoryParams) :
    ∃ addr buf ops es, (next c s (.toDefault heap)).dev.log = s.dev.log ++ .write addr buf ops :: es ∧
      Rewrites c s.dev.mem false buf ops := by
  have hother : c.part (s.withParams factoryParams).dev.mem false ≠
      ((s.withParams factoryParams).flashParam.stamp
        ((s.withParams factoryParams).target 0)).bytes := by
    intro heq
    apply hne
    rw [show c.part s.dev.mem false = _ from heq, ParamFlash.ofBytes_bytes]
    rfl
  obtain ⟨addr, buf, ops, hdev, hops⟩ := paramToFlash_write (h.withParams factoryParams) heap
    (-1) (by omega) (target_zero _) hother
  have hlive := ((h.withParams factoryParams).paramToFlash heap (-1) 0).2
  refine ⟨addr, buf, ops, ?_⟩
  rw [next, call, (toDefault_eq heap s).1, writeDefaults,
    show loadFactoryDefault s = s.withParams factoryParams from rfl]
  split
  · rename_i s1 e
    rw [e] at hdev hlive
    obtain ⟨es, hlog, _⟩ := (hlive.paramToFlash (later heap 2) (-1) 1).1.chain
    refine ⟨es, ?_, hops⟩
    rw [hlog, hdev, Dev.issue_log, List.append_assoc]
    rfl
  · exact ⟨[], by rw [hdev]; rfl, hops⟩

/-- `tls_param_set` of `TLS_PARAM_ID_ENCRY` from a record in RAM that was never loaded begins with
the second partition. -/
theorem setEncry_log {d : Dev} (hd : d.insideFls = some c.density) (v : Byte)
    (hne : (ParamFlash.ofBytes (c.part d.mem true)).parameters ≠ Params.zero.write 55 [v]) :
    ∃ addr buf ops, (next c (State.reset d) (setEncry v)).dev = d.issue (.write addr buf ops) ∧
      Rewrites c d.mem true buf ops := by
  have hlive : Live c (State.reset d) := ⟨hd, rfl⟩
  have hset : next c (State.reset d) (setEncry v) = (paramToFlash c (later (fun _ => true) 1) 1 (-1)
      ((State.reset d).withParams (Params.zero.write 55 [v]))).2 := rfl
  rw [hset]
  refine paramToFlash_write (hlive.withParams (Params.zero.write 55 [v])) _ 1 (by omega)
    (target_next rfl) ?_
  intro heq
  apply hne
  rw [show c.part d.mem true = _ from heq, ParamFlash.ofBytes_bytes]
  rfl

theorem init_no_buffer {d : Dev} {env : InitEnv} (hheap : env.heap 0 = false) :
    (tlsParamInit hw c env (State.reset d)).2 = State.reset d := by
  have hmagic : (State.reset d).flashParam.magic ≠ paramMagic := by
    rw [show (State.reset d).flashParam.magic = 0#32 from rfl]
    decide
  unfold tlsParamInit
  rw [if_neg hmagic]
  split
  · rfl
  · rfl

theorem Boot.log_one (env : InitEnv) (x : Call) (cut : Nat) (m : Nat → Byte) :
    (Boot.mk env [x] cut).log hw c m =
      (next c (tlsParamInit hw c env (State.reset (c.device m))).2 x).dev.log := rfl

/-- The power is cut while `tls_param_to_default` rewrites the first partition. The next
`tls_param_init` does not get its buffer, so it repairs nothing, and a cut in the first
`tls_param_set` then takes the second partition too. -/
theorem both_lost (hr : Reflected hw) (c : Chip) {p : ParamFlash}
    (hfactory : p.parameters ≠ factoryParams) (hencry : p.parameters ≠ Params.zero.write 55 [1#8]) :
    let x : Boot := ⟨plenty, [.toDefault fun _ => true], 1⟩
    let y : Boot := ⟨{ plenty with heap := fun k => k ≠ 0 }, [setEncry 1#8], 1⟩
    ∀ b, ¬ Valid (c.part (runs (powerCut hw c) (c.filled p).mem [x, y]) b) := by
  intro x y
  have hready := filled_ready c p hr
  have hdev := filled_dev c p hr
  -- the first boot erases the first partition
  have hfirst : Damaged hw (c.part (powerCut hw c (c.filled p).mem x) false) ∧
      c.part (powerCut hw c (c.filled p).mem x) true = (p.stamp 1#16).bytes := by
    have hdevice : c.device (c.filled p).mem = c.filled p := by simp only [Chip.device, Chip.filled]
    rw [powerCut, Boot.flash, Boot.log_one, hdevice]
    generalize (tlsParamInit hw c plenty (State.reset (c.filled p))).2 = s0 at hready hdev ⊢
    obtain ⟨addr, buf, ops, es, hlog, hops⟩ := toDefault_log hready.live (fun _ => true) (by
      rw [hdev, filled_part, ParamFlash.ofBytes_bytes]
      exact hfactory)
    rw [hdev] at hlog hops
    obtain ⟨hdam, hother⟩ := cut_one hw hops addr es
    rw [hlog]
    exact ⟨hdam, hother.trans (filled_part c p true)⟩
  rw [runs_cons, runs_cons, runs_nil]
  generalize powerCut hw c (c.filled p).mem x = m at hfirst ⊢
  -- the second one finds no buffer, and erases the second partition
  obtain ⟨addr, buf, ops, hissue, hops⟩ := setEncry_log (c := c) (d := c.device m) rfl 1#8 (by
    rw [show c.part (c.device m).mem true = _ from hfirst.2, ParamFlash.ofBytes_bytes]
    exact hencry)
  obtain ⟨hdam, hother⟩ := cut_one hw hops addr []
  rw [powerCut, Boot.flash, Boot.log_one, init_no_buffer rfl, hissue]
  intro b
  cases b with
  | true => exact hdam.not_valid hr
  | false =>
    have hsame : c.part (cutAt m [.write addr buf ops] 1) false = c.part m false := hother
    have hgone := hfirst.1.not_valid hr
    rw [← hsame] at hgone
    exact hgone

/-! ## A record of another length -/

/-- A pass over a partition that is accepted and loaded, whatever its length. -/
theorem pass_accepted {around : Int → Byte} {s : Scan} {i : Nat} {b : Bool}
    (hd : s.dev.insideFls = some c.density) (hb : isSecond (BitVec.ofNat 16 i) = b)
    (hok : partitionOk hw around (c.part s.dev.mem b) = true)
    (hload : s.flashParam.magic = 0#32 ∨
      s.flashParam.modifyCount < (ParamFlash.ofBytes (c.part s.dev.mem b)).modifyCount) :
    s.pass hw c around i =
      ({ s with
          flashParam := loadRecord around (c.part s.dev.mem b) s.flashParam
          flash := List.replicate 2036 0#8 }, true) := by
  unfold Scan.pass
  rw [read_part hd, hb]
  simp only [hok, Bool.true_eq_false, if_false, if_pos hload]

/-- A second partition with a higher count is loaded over the record of the first one. -/
theorem init_second (hr : Reflected hw) {d : Dev} (hd : d.insideFls = some c.density) {env : InitEnv}
    (hsem : env.sem = true) (hheap : env.heap 0 = true) (hfirst : Valid (c.part d.mem false))
    (hok : partitionOk hw env.around (c.part d.mem true) = true)
    (hcount : c.count d.mem false < c.count d.mem true) :
    (tlsParamInit hw c env (State.reset d)).2.flashParam =
      loadRecord env.around (c.part d.mem true) (ParamFlash.ofBytes (c.part d.mem false)) := by
  have e0 : isSecond (BitVec.ofNat 16 0) = false := by decide
  have e1 : isSecond (BitVec.ofNat 16 1) = true := by decide
  -- the state behind the first partition
  obtain ⟨s1, hpass0, hdev1, hpar1, hdam1, hgood1⟩ : ∃ s1,
      (Scan.start d).pass hw c env.around 0 = (s1, true) ∧ s1.dev = d ∧
        s1.flashParam = ParamFlash.ofBytes (c.part d.mem false) ∧ s1.damaged = 0 ∧
        ∀ j, s1.isDamage j = false := by
    have hpass := pass_accepted (s := Scan.start d) hd e0 (partitionOk_valid hr hfirst env.around) (.inl rfl)
    have hstart : (Scan.start d).dev = d := rfl
    rw [hstart, loadRecord_valid hfirst] at hpass
    exact ⟨_, hpass, rfl, rfl, rfl, fun _ => rfl⟩
  have hpass1 : s1.pass hw c env.around 1 = _ := pass_accepted (by rw [hdev1]; exact hd) e1
    (by rw [hdev1]; exact hok) (.inr (by rw [hdev1, hpar1]; exact hcount))
  rw [hdev1, hpar1] at hpass1
  have hless : s1.damaged < 2 := by omega
  have hscan := scan_eq hpass0 hpass1 (fun _ => hless) (fun _ => hless)
  rw [init_eq hsem hheap, hscan]
  simp only [if_neg (Nat.not_le.mpr hless), repair, hgood1, Bool.false_eq_true, if_false, asEio]

theorem params_bytes {bs : List Byte} (h : bs.length = 2036) :
    (ParamFlash.ofBytes bs).parameters.bytes = (bs.drop 16).take 2016 := by
  apply ParamFlash.write_all
  rw [List.length_take, List.length_drop]
  omega

/-- A shorter record takes the front of the parameters in RAM and leaves the rest of them. -/
theorem loadRecord_mixes {bs : List Byte} {n : Nat} (hbs : bs.length = 2036)
    (hlen : (ParamFlash.ofBytes bs).length.toNat = 16 + n + 4) (hn : n < 2016) (around : Int → Byte)
    (old : ParamFlash) :
    (loadRecord around bs old).parameters.bytes =
      (ParamFlash.ofBytes bs).parameters.bytes.take n ++ old.parameters.bytes.drop n := by
  have hne : (ParamFlash.ofBytes bs).length ≠ 2036#16 := by
    intro heq
    rw [heq] at hlen
    have : (2036#16).toNat = 2036 := rfl
    omega
  have hfront : bufferSlice around bs 0 (16 + n) = bs.take (16 + n) := by
    have h : bufferSlice around bs ((0 : Nat) : Int) (16 + n) = (bs.drop 0).take (16 + n) :=
      bufferSlice_in (by omega)
    rwa [List.drop_zero] at h
  have hold := ParamFlash.bytes_length old
  have hjoin : (bs.take (16 + n) ++ old.bytes.drop (16 + n)).length = 2036 := by
    rw [List.length_append, List.length_take, List.length_drop]
    omega
  have hload : loadRecord around bs old =
      ParamFlash.ofBytes (bs.take (16 + n) ++ old.bytes.drop (16 + n)) := by
    unfold loadRecord
    simp only [ne_eq, hne, not_false_eq_true, if_true, ofInt_length hlen, hfront]
    rw [List.take_of_length_le (Nat.le_of_eq hjoin)]
  have hnew : (bs.take (16 + n)).drop 16 = (bs.drop 16).take n := by
    rw [List.drop_take, Nat.add_sub_cancel_left]
  have hrest : old.bytes.drop (16 + n) = (old.bytes.drop 16).drop n := (List.drop_drop).symm
  have htake : (bs.drop 16).length = 2020 ∧ (old.bytes.drop 16).length = 2020 := by
    rw [List.length_drop, List.length_drop]
    omega
  rw [hload, params_bytes hjoin, params_bytes hbs, ← ParamFlash.bytes_params old,
    List.drop_append_of_le_length (by rw [List.length_take]; omega), hnew, hrest]
  generalize bs.drop 16 = new at htake ⊢
  generalize old.bytes.drop 16 = rest at htake ⊢
  rw [List.take_append, List.take_take, List.take_take, List.length_take, List.drop_take,
    Nat.min_eq_left (show n ≤ new.length by omega), Nat.min_eq_right (show n ≤ 2016 by omega),
    Nat.min_eq_left (show n ≤ 2016 by omega)]

/-- A record with the first eight bytes of the parameters and a count of 2. -/
def shortBody : List Byte :=
  leBytes 4 paramMagic.toNat ++ leBytes 2 1 ++ leBytes 2 2 ++ leBytes 4 0 ++ leBytes 2 0 ++ leBytes 2 28 ++
    List.replicate 8 1#8

/-- The record in a sector that was erased before. -/
def shortRecord : List Byte :=
  shortBody ++ leBytes 4 (getCrc32 shortBody).toNat ++ List.replicate 2008 0xFF#8

theorem shortRecord_length : shortRecord.length = 2036 := by
  rw [shortRecord, List.length_append, List.length_append, leBytes_length, List.length_replicate]
  rfl

theorem shortRecord_ok (hr : Reflected hw) (around : Int → Byte) :
    partitionOk hw around shortRecord = true := by
  have hbody : shortRecord.take 24 = shortBody := by
    rw [shortRecord, List.append_assoc]
    rfl
  have hcrc : (shortRecord.drop 24).take 4 = leBytes 4 (getCrc32 shortBody).toNat := by
    rw [shortRecord, List.append_assoc]
    rfl
  refine (partitionOk_inside hr (n := 24) shortRecord_length rfl (by omega) around).mpr ⟨rfl, ?_⟩
  rw [field, hcrc, hbody]
  exact ParamFlash.ofNat_leNat_leBytes _ rfl

/-- The record of eight bytes lies in the second partition, behind a record of this layout in the first
one. -/
def Chip.mixed (c : Chip) (p : ParamFlash) : Nat → Byte :=
  overlay (overlay (fun _ => 0xFF#8) (c.base false) (p.stamp 0#16).bytes) (c.base true) shortRecord

/-- RAM holds the eight bytes of the one and the other parameters of the other. -/
theorem mixed_init (hr : Reflected hw) (c : Chip) (p : ParamFlash) :
    (tlsParamInit hw c plenty (State.reset (c.device (c.mixed p)))).2.flashParam.parameters.bytes =
      List.replicate 8 1#8 ++ p.parameters.bytes.drop 8 := by
  obtain ⟨hpart0, hpart1⟩ := overlay_parts c (fun _ => 0xFF#8) (p.stamp 0#16).bytes_length
    shortRecord_length
  have hfirst : c.part (c.device (c.mixed p)).mem false = (p.stamp 0#16).bytes := by
    rw [Chip.device_mem, Chip.mixed, hpart0]
  have hsecond : c.part (c.device (c.mixed p)).mem true = shortRecord := by
    rw [Chip.device_mem, Chip.mixed, hpart1]
  have hcount : c.count (c.device (c.mixed p)).mem false < c.count (c.device (c.mixed p)).mem true := by
    rw [Chip.count, Chip.count, hfirst, hsecond, ParamFlash.ofBytes_bytes]
    exact (by decide : (1#16 : BitVec 16) < 2#16)
  have hfront : (ParamFlash.ofBytes shortRecord).parameters.bytes.take 8 = List.replicate 8 1#8 := by
    rw [params_bytes shortRecord_length, List.take_take, Nat.min_eq_left (by decide), shortRecord,
      List.append_assoc]
    rfl
  rw [init_second hr rfl rfl rfl (by rw [hfirst]; exact stamp_valid _ _)
    (by rw [hsecond]; exact shortRecord_ok hr _) hcount, hfirst, hsecond, ParamFlash.ofBytes_bytes,
    loadRecord_mixes (n := 8) shortRecord_length rfl (by decide), hfront]
  rfl

/-- Two power cuts, with a `tls_param_init` between them that does not get its buffer, leave no
partition that is valid. And `tls_param_init` accepts a record of another length and loads its front over
the record of the first partition: RAM has neither set. -/
theorem param_power_cut_unsafe :
    (∃ (m : Nat → Byte) (x y : Boot), (∀ b, Valid (air101Chip.part m b)) ∧
      (∀ q ∈ trace (powerCut softEngine air101Chip) m [x, y],
        TornFails softEngine air101Chip q.1 q.2) ∧
      ∀ b, ¬ Valid (air101Chip.part (runs (powerCut softEngine air101Chip) m [x, y]) b)) ∧
    ∃ m : Nat → Byte,
      (∀ b, partitionOk softEngine plenty.around (air101Chip.part m b) = true) ∧
      ∀ b, (tlsParamInit softEngine air101Chip plenty
        (State.reset (air101Chip.device m))).2.flashParam.parameters ≠ air101Chip.params m b := by
  constructor
  · have hfactory : ParamFlash.zero.parameters ≠ factoryParams := by
      intro h
      have hhead := congrArg (fun q : Params => q.bytes.head?) h
      revert hhead
      decide +kernel
    have hencry : ParamFlash.zero.parameters ≠ Params.zero.write 55 [1#8] := by
      intro h
      have hcell := congrArg (fun q : Params => (q.bytes.drop 55).head?) h
      revert hcell
      decide +kernel
    generalize ParamFlash.zero = p at hfactory hencry
    refine ⟨_, _, _, filled_both air101Chip p, ?_, both_lost softEngine_reflected _ hfactory hencry⟩
    intro q hq
    apply tornFails_one
    have hmem := mem_of_mem_trace hq
    simp only [List.mem_cons, List.not_mem_nil, or_false] at hmem
    rcases hmem with h | h
    · exact h ▸ Nat.le_refl 1
    · exact h ▸ Nat.le_refl 1
  · obtain ⟨hpart0, hpart1⟩ := overlay_parts air101Chip (fun _ => 0xFF#8)
      (ParamFlash.zero.stamp 0#16).bytes_length shortRecord_length
    refine ⟨air101Chip.mixed .zero, fun b => ?_, fun b heq => ?_⟩
    · cases b with
      | false =>
        rw [Chip.mixed, hpart0]
        exact partitionOk_valid softEngine_reflected (stamp_valid _ _) _
      | true =>
        rw [Chip.mixed, hpart1]
        exact shortRecord_ok softEngine_reflected _
    · have hbytes := congrArg Params.bytes heq
      rw [mixed_init softEngine_reflected] at hbytes
      cases b with
      | false =>
        -- the first byte is that of the second partition
        rw [Chip.params, Chip.mixed, hpart0, ParamFlash.ofBytes_bytes] at hbytes
        exact absurd (congrArg List.head? hbytes) (by decide)
      | true =>
        -- the ninth byte is that of the first partition
        rw [Chip.params, Chip.mixed, hpart1, params_bytes shortRecord_length] at hbytes
        have hninth := congrArg (fun l : List Byte => l[2015]?) hbytes
        revert hninth
        decide +kernel

end Param
end Air101
