import Air101.Fota.Steps

/-!
# Fota.Bounds

Where the downloader writes. The copy loop and `luat_fota_done` test the end of the zone before they
flush; the header test of `luat_fota_write` flushes without a test. `Overruns` is the condition,
on the state before a call and the length of its data, under which that flush leaves the zone.

* `next_bounded`: a call that does not overrun keeps the log and the changed cells in the zone.
* `next_escapes`: a call that overruns sends a write that leaves it.
* `runs_inZone_iff`: so a run stays in the zone exactly when none of its calls overruns.
-/

namespace Air101
namespace Fota

open Storage
open Crypto
open Fls

variable {hw : Engine} {z : Zone}

/-- A driver call that, if it is a write, lies inside the zone. -/
def InZone (z : Zone) : Ev → Prop
  | .write addr buf _ => z.addr ≤ addr ∧ addr + buf.length ≤ z.addr + z.size
  | .erase _ _ => True

/-- The copy loop meets a buffer that is full and does not fit any more. -/
def StopsFull (z : Zone) (s : State) (data : List Byte) : Prop :=
  data ≠ [] ∧ 0x8000 ≤ s.buf.length + data.length ∧
    z.size < s.fotaWriteOffset + (s.buf.length + data.length) / 0x8000 * 0x8000

/-- The header is still unchecked, the data reaches past the zone, and the copy loop does not stop
it: the flush before the header test leaves the zone. -/
def Overruns (z : Zone) (s : State) (data : List Byte) : Prop :=
  s.fotaState = .ongo ∧ s.fotaBuffer = true ∧ s.fotaHeadCheck = false ∧
    z.size < s.total + data.length ∧ ¬ StopsFull z s data

/-- A call that does not overrun the zone. -/
def Safe (z : Zone) (s : State) : Call → Prop
  | .write data => ¬ Overruns z s data
  | _ => True

/-- The calls of a download; `luat_fota_end`, which writes the OTA flag, is not one. -/
def Call.isDownload : Call → Bool
  | .fin _ => false
  | _ => true

/-- The invariant of a run inside the zone, from the cells `m0` on. -/
structure Bounded (z : Zone) (m0 : Nat → Byte) (s : State) : Prop where
  installed : s.dev.insideFls = some z.density
  offset_le : s.fotaWriteOffset ≤ z.size
  buf_le : s.buf.length ≤ 0x8000
  log_in : ∀ e ∈ s.dev.log, InZone z e
  frame : ∀ x, x < z.base ∨ z.base + z.size ≤ x → s.dev.mem x = m0 x

variable {m0 : Nat → Byte} {s : State}

/-! ## The pieces -/

theorem Bounded.stage (h : Bounded z m0 s) {bs : List Byte} (hl : s.buf.length + bs.length ≤ 0x8000) :
    Bounded z m0 (s.stage bs) :=
  { h with buf_le := by simpa [State.stage] using hl }

theorem Bounded.flush (h : Bounded z m0 s) (ht : s.total ≤ z.size) : Bounded z m0 (s.flush z) := by
  have hz := z.density_le
  have he := z.end_le
  have hoff := h.offset_le
  unfold State.total at ht
  refine ⟨by simp [h.installed], ?_, by simp, ?_, ?_⟩
  · rw [flush_offset, Nat.mod_eq_of_lt (by omega)]
    exact ht
  · obtain ⟨ops, hlog⟩ := flush_log z s
    intro e hmem
    rw [hlog] at hmem
    rcases List.mem_append.mp hmem with hmem | hmem
    · exact h.log_in e hmem
    · rw [List.mem_singleton.mp hmem]
      simp only [InZone, Zone.addr]
      omega
  · intro x hx
    rw [flush_overlay h.installed h.buf_le (by omega), overlay_out (by omega)]
    exact h.frame x hx

theorem flush_escapes (h : Bounded z m0 s) (ht : z.size < s.total) :
    ∃ e ∈ (s.flush z).dev.log, ¬ InZone z e := by
  have hz := z.density_le
  have he := z.end_le
  have hoff := h.offset_le
  unfold State.total at ht
  obtain ⟨ops, hlog⟩ := flush_log z s
  refine ⟨_, by rw [hlog]; exact List.mem_append_right _ (List.mem_singleton_self _), ?_⟩
  simp only [InZone, Zone.addr]
  omega

theorem Bounded.copyLoop (h : Bounded z m0 s) (data : List Byte) :
    Bounded z m0 (copyLoop z (data.length + 1) s data).1 ∧
      (copyLoop z (data.length + 1) s data).1.fotaHeadCheck = s.fotaHeadCheck ∧
      ((copyLoop z (data.length + 1) s data).2 = false →
        (copyLoop z (data.length + 1) s data).1.total = s.total + data.length) := by
  have hz := z.density_le
  have he := z.end_le
  have hbuf := h.buf_le
  obtain ⟨k, ⟨hb, hc, ht⟩, _, hall⟩ := copyLoop_inv (z := z)
    (P := fun t pre => Bounded z m0 t ∧ t.fotaHeadCheck = s.fotaHeadCheck ∧
      t.total = s.total + pre.length)
    (by
      rintro t pre bs ⟨hb, hc, ht⟩ hl
      refine ⟨hb.stage hl, hc, ?_⟩
      simp only [State.total, State.stage, List.length_append] at ht ⊢
      omega)
    (by
      rintro t pre ⟨hb, hc, ht⟩ hl hguard
      have hoff := hb.offset_le
      rw [Nat.mod_eq_of_lt (by omega)] at hguard
      refine ⟨hb.flush hguard, hc, ?_⟩
      rw [← ht]
      simp only [State.total, flush_offset, flush_buf, List.length_nil]
      rw [Nat.mod_eq_of_lt (by omega)]
      omega)
    (data.length + 1) s [] data hbuf (by omega) ⟨h, rfl, by simp⟩
  refine ⟨hb, hc, fun hf => ?_⟩
  rw [ht, List.nil_append, List.take_of_length_le (hall hf)]

theorem Bounded.flushRest (h : Bounded z m0 s) (ht : s.total ≤ z.size) :
    Bounded z m0 (s.flushRest z) := by
  rcases flushRest_cases z s with ⟨_, e⟩ | ⟨_, e⟩
  · rw [e]; exact h
  · rw [e]; exact h.flush ht

theorem Bounded.headCheck (h : Bounded z m0 s) (ht : s.fotaHeadCheck = false → s.total ≤ z.size) :
    Bounded z m0 (headCheck hw z s).2 := by
  rcases headCheck_cases hw z s with ⟨_, e⟩ | ⟨hc, ⟨_, e⟩ | ⟨_, _, e⟩⟩
  · rw [e]; exact h
  · rw [e]; exact { h.flushRest (ht hc.1) with }
  · rw [e]; exact h.flushRest (ht hc.1)

theorem headCheck_escapes (h : Bounded z m0 s) (hc : s.fotaHeadCheck = false) (ht : z.size < s.total) :
    ∃ e ∈ (headCheck hw z s).2.dev.log, ¬ InZone z e := by
  have hz := z.density_le
  have he := z.end_le
  have hhead := z.head_le
  have hoff := h.offset_le
  have hbuf := h.buf_le
  have hne : s.buf ≠ [] := by
    intro h0
    simp only [State.total, h0, List.length_nil] at ht
    omega
  have hcond : 64 ≤ (s.fotaWriteOffset + s.buf.length) % 2 ^ 32 := by
    unfold State.total at ht
    rw [Nat.mod_eq_of_lt (by omega)]
    omega
  have hflushed : ∃ e ∈ (s.flushRest z).dev.log, ¬ InZone z e := by
    rcases flushRest_cases z s with ⟨h0, _⟩ | ⟨_, e⟩
    · exact absurd h0 hne
    · rw [e]; exact flush_escapes h ht
  rcases headCheck_cases hw z s with ⟨hno, _⟩ | ⟨_, ⟨_, e⟩ | ⟨_, _, e⟩⟩
  · exact absurd ⟨hc, hcond⟩ hno
  · rw [e]; exact hflushed
  · rw [e]; exact hflushed

/-! ## The calls -/

theorem Bounded.write (h : Bounded z m0 s) {data : List Byte} (hsafe : ¬ Overruns z s data) :
    Bounded z m0 (luatFotaWrite hw z s data).2 := by
  have hbuf := h.buf_le
  obtain ⟨hb, hc, ht⟩ := h.copyLoop data
  have hfull := copyLoop_full_iff (z := z) (data.length + 1) s data hbuf (by omega) h.offset_le
  unfold luatFotaWrite
  split
  · exact h
  · rename_i hongo
    split
    · exact h
    · rename_i halloc
      generalize hrun : Fota.copyLoop z (data.length + 1) s data = r at hb hc ht hfull ⊢
      obtain ⟨t, full⟩ := r
      cases full with
      | true => exact hb
      | false =>
        apply hb.headCheck
        intro hhc
        rw [ht rfl]
        by_contra hlt
        refine hsafe ⟨not_not.mp hongo, by simpa using halloc, by rw [← hhc, hc], by omega, ?_⟩
        intro hstop
        exact absurd (hfull.mpr hstop) (by simp)

theorem write_escapes (hw : Engine) (h : Bounded z m0 s) {data : List Byte} (hover : Overruns z s data) :
    ∃ e ∈ (luatFotaWrite hw z s data).2.dev.log, ¬ InZone z e := by
  have hbuf := h.buf_le
  obtain ⟨hongo, halloc, hhc, hlt, hstop⟩ := hover
  obtain ⟨hb, hc, ht⟩ := h.copyLoop data
  have hfull := copyLoop_full_iff (z := z) (data.length + 1) s data hbuf (by omega) h.offset_le
  unfold luatFotaWrite
  rw [if_neg (not_not.mpr hongo), if_neg (by simp [halloc])]
  generalize hrun : Fota.copyLoop z (data.length + 1) s data = r at hb hc ht hfull ⊢
  obtain ⟨t, full⟩ := r
  cases full with
  | true => exact absurd (hfull.mp rfl) hstop
  | false => exact headCheck_escapes hb (by rw [← hhc, hc]) (by rw [ht rfl]; exact hlt)

theorem Bounded.doneCheck (h : Bounded z m0 s) : Bounded z m0 (doneCheck hw z s).2 := by
  rcases doneCheck_cases hw z s with ⟨_, e⟩ | ⟨e, _⟩
  · rw [e]; exact h
  · rw [e]; exact { h with }

theorem Bounded.done (h : Bounded z m0 s) : Bounded z m0 (luatFotaDone hw z s).2 := by
  have hz := z.density_le
  have he := z.end_le
  have hoff := h.offset_le
  have hbuf := h.buf_le
  unfold luatFotaDone
  split
  · split
    · exact h
    · rename_i hguard
      rw [Nat.mod_eq_of_lt (by omega)] at hguard
      exact (h.flush (Nat.le_of_not_lt hguard)).doneCheck
  · exact h.doneCheck

theorem Bounded.init (h : Bounded z m0 s) (heap : Bool) : Bounded z m0 (luatFotaInit z heap s).2 := by
  unfold luatFotaInit
  simp only []
  split
  · exact { h with offset_le := Nat.zero_le _, buf_le := by simp }
  · refine ⟨by simp [h.installed], Nat.zero_le _, by simp, ?_, ?_⟩
    · obtain ⟨es, hlog, hes⟩ := eraseZone_log z s.dev (z.size / 4096)
      intro e hmem
      rw [hlog] at hmem
      rcases List.mem_append.mp hmem with hmem | hmem
      · exact h.log_in e hmem
      · obtain ⟨sec, ops, rfl⟩ := hes e hmem
        trivial
    · intro x hx
      rw [eraseZone_mem h.installed _ (Nat.le_refl _), if_neg (by omega)]
      exact h.frame x hx

/-- A call that does not overrun keeps a download inside the zone. -/
theorem next_bounded {c : Call} (hc : c.isDownload = true) (hsafe : Safe z s c) (h : Bounded z m0 s) :
    Bounded z m0 (next hw z s c) := by
  cases c with
  | init heap => exact h.init heap
  | write data => exact h.write hsafe
  | done => exact h.done
  | fin isOk => simp [Call.isDownload] at hc

/-- The state `t` has come from `s` by driver calls, with no more than 32 KB staged. -/
def Grows (s t : State) : Prop := s.dev.Reaches t.dev ∧ t.buf.length ≤ 0x8000

theorem Grows.refl (h : s.buf.length ≤ 0x8000) : Grows s s := ⟨.refl _, h⟩

theorem Grows.flush {t : State} (h : Grows s t) : Grows s (t.flush z) :=
  ⟨h.1.trans (flush_reaches z t), by simp⟩

theorem Grows.headCheck {t : State} (h : Grows s t) (hw : Engine) (z : Zone) :
    Grows s (headCheck hw z t).2 := by
  have hflushed : Grows s (t.flushRest z) := by
    rcases flushRest_cases z t with ⟨_, e⟩ | ⟨_, e⟩
    · rw [e]; exact h
    · rw [e]; exact h.flush
  rcases headCheck_cases hw z t with ⟨_, e⟩ | ⟨_, ⟨_, e⟩ | ⟨_, _, e⟩⟩
  · rw [e]; exact h
  · rw [e]; exact hflushed
  · rw [e]; exact hflushed

theorem Grows.doneCheck {t : State} (h : Grows s t) : Grows s (doneCheck hw z t).2 := by
  rcases doneCheck_cases hw z t with ⟨_, e⟩ | ⟨e, _⟩
  · rw [e]; exact h
  · rw [e]; exact h

theorem next_grows (hw : Engine) (z : Zone) (hbuf : s.buf.length ≤ 0x8000) (c : Call) :
    Grows s (next hw z s c) := by
  cases c with
  | init heap =>
    simp only [next, call, luatFotaInit]
    split
    · exact ⟨.refl _, by simp⟩
    · exact ⟨eraseZone_reaches z s.dev _, by simp⟩
  | write data =>
    simp only [next, call, luatFotaWrite]
    split
    · exact .refl hbuf
    · split
      · exact .refl hbuf
      · obtain ⟨_, hdev, hlen, _⟩ := copyLoop_inv (z := z) (P := fun t _ => s.dev.Reaches t.dev)
          (fun _ _ _ h _ => h) (fun t _ h _ _ => h.trans (flush_reaches z t))
          (data.length + 1) s [] data hbuf (by omega) (.refl _)
        generalize copyLoop z (data.length + 1) s data = r at hdev hlen ⊢
        obtain ⟨t, full⟩ := r
        have ht : Grows s t := ⟨hdev, hlen⟩
        cases full with
        | true => exact ht
        | false => exact ht.headCheck hw z
  | done =>
    simp only [next, call, luatFotaDone]
    split
    · split
      · exact .refl hbuf
      · exact (Grows.refl hbuf).flush.doneCheck
    · exact (Grows.refl hbuf).doneCheck
  | fin isOk =>
    simp only [next, call, luatFotaEnd]
    split
    · split
      · exact ⟨tlsFlsWrite_reaches _ _ _, hbuf⟩
      · exact .refl hbuf
    · exact .refl hbuf

/-! ## Runs -/

theorem reset_bounded {d : Dev} (hd : d.insideFls = some z.density) (hlog : d.log = []) :
    Bounded z d.mem (State.reset d) :=
  { installed := hd
    offset_le := Nat.zero_le _
    buf_le := by simp [State.reset]
    log_in := by simp [State.reset, hlog]
    frame := fun _ _ => rfl }

theorem runs_bounded {cs : List Call} (hcs : ∀ c ∈ cs, c.isDownload = true)
    (hsafe : ∀ p ∈ trace (next hw z) s cs, Safe z p.1 p.2) (h : Bounded z m0 s) :
    Bounded z m0 (runs (next hw z) s cs) := by
  apply runs_inv (Bounded z m0) (fun t c => c.isDownload = true ∧ Safe z t c) _ _ h
  · intro t c hok ht
    exact next_bounded hok.1 hok.2 ht
  · intro p hp
    exact ⟨hcs p.2 (mem_of_mem_trace hp), hsafe p hp⟩

theorem runs_reaches (hw : Engine) (z : Zone) (hbuf : s.buf.length ≤ 0x8000) (cs : List Call) :
    s.dev.Reaches (runs (next hw z) s cs).dev := by
  induction cs generalizing s with
  | nil => exact .refl _
  | cons c cs ih =>
    have h := next_grows hw z hbuf c
    exact h.1.trans (ih h.2)

/-- A run keeps its writes in the zone exactly when none of its calls overruns. -/
theorem runs_inZone_iff {cs : List Call} (hcs : ∀ c ∈ cs, c.isDownload = true) (h : Bounded z m0 s) :
    (∀ e ∈ (runs (next hw z) s cs).dev.log, InZone z e) ↔
      ∀ p ∈ trace (next hw z) s cs, Safe z p.1 p.2 := by
  constructor
  · intro hlog
    induction cs generalizing s with
    | nil => simp [trace]
    | cons c cs ih =>
      simp only [trace, List.mem_cons, forall_eq_or_imp] at hcs ⊢
      have hsafe : Safe z s c := by
        cases c with
        | write data =>
          -- the write that leaves the zone stays in the log to the end of the run
          intro hover
          obtain ⟨e, hmem, hout⟩ := write_escapes hw h hover
          have hbuf := (next_grows hw z h.buf_le (.write data)).2
          exact hout (hlog e ((runs_reaches hw z hbuf cs).log_grows.subset hmem))
        | init heap => trivial
        | done => trivial
        | fin isOk => trivial
      exact ⟨hsafe, ih hcs.2 (next_bounded hcs.1 hsafe h) hlog⟩
  · intro hsafe
    exact (runs_bounded hcs hsafe h).log_in

/-- For every sequence of `luat_fota_init`, `luat_fota_write` and `luat_fota_done` after reset, with
any data and whatever the calls return: all writes lie in the OTA zone exactly when no
`luat_fota_write` overruns it, and then no byte outside the zone changes. -/
theorem fota_writes_stay_in_zone (hw : Engine) (z : Zone) {d : Dev}
    (hd : d.insideFls = some z.density) (hlog : d.log = []) {cs : List Call}
    (hcs : ∀ c ∈ cs, c.isDownload = true) :
    ((∀ e ∈ (runs (next hw z) (State.reset d) cs).dev.log, InZone z e) ↔
      ∀ p ∈ trace (next hw z) (State.reset d) cs, Safe z p.1 p.2) ∧
    ((∀ p ∈ trace (next hw z) (State.reset d) cs, Safe z p.1 p.2) →
      ∀ x, x < z.base ∨ z.base + z.size ≤ x →
        (runs (next hw z) (State.reset d) cs).dev.mem x = d.mem x) := by
  have h := reset_bounded hd hlog
  exact ⟨runs_inZone_iff hcs h, fun hsafe => (runs_bounded hcs hsafe h).frame⟩

theorem fota_writes_stay_in_zone_header :
    (∀ e ∈ (runs (next softEngine air101) (State.reset air101Dev)
      [.init true, .write (List.replicate 64 0#8), .done]).dev.log, InZone air101 e) ↔
      ∀ p ∈ trace (next softEngine air101) (State.reset air101Dev)
        [.init true, .write (List.replicate 64 0#8), .done], Safe air101 p.1 p.2 :=
  (fota_writes_stay_in_zone softEngine air101 (d := air101Dev) rfl rfl (by decide)).1

/-- One write of 5000 bytes into the 4 KB zone of the AIR101 board ends in the running image. -/
theorem fota_write_5000_leaves_zone :
    ¬ ∀ e ∈ (runs (next softEngine air101) (State.reset air101Dev)
      [.init true, .write (List.replicate 5000 0#8)]).dev.log, InZone air101 e := by
  have hlen : (List.replicate 5000 0#8).length = 5000 := List.length_replicate
  generalize List.replicate 5000 0#8 = data at hlen ⊢
  rw [runs_inZone_iff (by simp [Call.isDownload])
    (reset_bounded (z := air101) (d := air101Dev) rfl rfl)]
  intro hsafe
  apply hsafe (next softEngine air101 (State.reset air101Dev) (.init true), .write data)
    (by simp [trace])
  refine ⟨rfl, rfl, rfl, ?_, ?_⟩
  · simp [State.total, next, call, luatFotaInit, State.reset, air101, hlen]
  · simp [StopsFull, next, call, luatFotaInit, State.reset, air101, hlen]

end Fota
end Air101
