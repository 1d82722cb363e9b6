import Air101.Fota.Progress
import Air101.Fota.Steps

/-!
# Fota.Tracks

The downloader follows its data: the calls that take in data make of the flash what `Progress` says,
command by command.

* `flush_tracks`, `copyLoop_tracks`, `headCheck_tracks`: the pieces of `luat_fota_write`.
* `feed_tracks`, `run_tracks`: a call, and a run of them.
* `init_tracks`: the run starts behind `luat_fota_init`, on a clear zone.
* `Tracks.left_eq`: a reset anywhere in the run leaves what the data says.
-/

namespace Air101
namespace Fota

open Storage
open Crypto
open Fls

section Tracks

/-- The downloader `s` has come as far as the data `p`. Its flash was `m` after the commands `ops₀` of
`luat_fota_init`. -/
structure Tracks (z : Zone) (m : Nat → Byte) (ops₀ : List Op) (s : State) (p : Progress) : Prop where
  ongo : s.fotaState = .ongo
  buffer : s.fotaBuffer = true
  installed : s.dev.insideFls = some z.density
  offset : s.fotaWriteOffset = p.offset
  buf : s.buf = p.staged
  checked : s.fotaHeadCheck = p.checked
  staged_le : p.staged.length ≤ 0x8000
  trail : ∃ ops, commands s.dev.log = ops₀ ++ ops ∧ s.dev.mem = run m ops ∧ Trail m p.pieces ops

variable {hw : Engine} {z : Zone} {m : Nat → Byte} {ops₀ : List Op} {s : State} {p : Progress}

theorem Tracks.mem_eq (h : Tracks z m ops₀ s p) : s.dev.mem = laid m p.pieces := by
  obtain ⟨ops, -, hmem, htrail⟩ := h.trail
  rw [hmem, htrail.run_eq]

theorem Tracks.total_eq (h : Tracks z m ops₀ s p) : (s.fotaWriteOffset + s.buf.length) % 2 ^ 32 = p.total := by
  rw [h.offset, h.buf, Progress.total]

theorem Tracks.head_eq (h : Tracks z m ops₀ s p) : s.imghead z = slice (laid m p.pieces) z.base 64 := by
  rw [State.imghead, h.mem_eq]

theorem flush_taken (hne : p.staged ≠ []) (hin : (z.base + p.offset) % 2 ^ 27 < z.density) :
    p.flush z = { p with
      pieces := p.pieces ++ [⟨(z.base + p.offset) % 2 ^ 27, p.staged⟩], offset := p.total, staged := [] } := by
  rw [Progress.flush, if_neg hne, if_pos hin]

theorem flush_refused (hne : p.staged ≠ []) (hout : ¬ (z.base + p.offset) % 2 ^ 27 < z.density) :
    p.flush z = { p with offset := p.total, staged := [] } := by
  rw [Progress.flush, if_neg hne, if_neg hout]

@[simp] theorem flush_staged_nil (z : Zone) (p : Progress) : (p.flush z).staged = [] := by
  unfold Progress.flush
  split
  · rename_i hnil
    exact hnil
  · rfl

/-- A flush hands the buffer to the flash, or the flash refuses it. -/
theorem flush_tracks (h : Tracks z m ops₀ s p) (hne : p.staged ≠ []) :
    Tracks z m ops₀ (s.flush z) (p.flush z) := by
  have hz := z.density_le
  have hstaged := h.staged_le
  have hpos : 0 < p.staged.length := List.length_pos_iff.mpr hne
  obtain ⟨ops, hlog, hmem, htrail⟩ := h.trail
  have hchip : (z.addr + s.fotaWriteOffset) % 2 ^ 32 % 0x8000000 = (z.base + p.offset) % 2 ^ 27 := by
    rw [flush_chip, h.offset]
  by_cases hin : (z.base + p.offset) % 2 ^ 27 < z.density
  · have hwrite : (s.flush z).dev = s.dev.issue (.write ((z.addr + s.fotaWriteOffset) % 2 ^ 32) s.buf
        (writeSectors p.staged.length s.dev.mem ((z.base + p.offset) % 2 ^ 27 / 4096)
          ((z.base + p.offset) % 2 ^ 27 % 4096) p.staged)) := by
      unfold State.flush tlsFlsWrite
      rw [rangeCheck_ok h.installed (by rw [hchip]; exact hin) (by rw [h.buf]; exact hpos), hchip, h.buf]
    rw [flush_taken hne hin]
    refine ⟨h.ongo, h.buffer, by rw [hwrite]; exact h.installed, h.total_eq, rfl, h.checked, Nat.zero_le _,
      ops ++ writeSectors p.staged.length s.dev.mem ((z.base + p.offset) % 2 ^ 27 / 4096)
        ((z.base + p.offset) % 2 ^ 27 % 4096) p.staged, ?_, ?_, ?_⟩
    · rw [hwrite, Dev.issue_log, commands_append, hlog, List.append_assoc]
      simp [commands, Ev.ops]
    · rw [hwrite, Dev.issue_mem, run_append, ← hmem]
      rfl
    · rw [hmem]
      refine htrail.piece (q := ⟨(z.base + p.offset) % 2 ^ 27, p.staged⟩) hne ?_
      change (z.base + p.offset) % 2 ^ 27 + p.staged.length ≤ 2 ^ 25
      generalize (z.base + p.offset) % 2 ^ 27 = a at hin
      lia
  · have hdev : (s.flush z).dev = s.dev.issue (.write ((z.addr + s.fotaWriteOffset) % 2 ^ 32) s.buf []) := by
      unfold State.flush
      rw [tlsFlsWrite_einval h.installed (by rw [hchip]; exact Nat.le_of_not_lt hin)]
    rw [flush_refused hne hin]
    refine ⟨h.ongo, h.buffer, by rw [hdev]; exact h.installed, h.total_eq, rfl, h.checked, Nat.zero_le _, ops, ?_,
      by rw [hdev]; exact hmem, htrail⟩
    rw [hdev, Dev.issue_log, commands_append, hlog]
    simp [commands, Ev.ops]

theorem stage_tracks (h : Tracks z m ops₀ s p) {bs : List Byte}
    (hlen : p.staged.length + bs.length ≤ 0x8000) : Tracks z m ops₀ (s.stage bs) (p.stage bs) := by
  refine ⟨h.ongo, h.buffer, h.installed, h.offset, ?_, h.checked, ?_, h.trail⟩
  · rw [State.stage, Progress.stage, h.buf]
  · rw [Progress.stage, List.length_append]
    exact hlen

/-! ## The copy loop -/

/-- The data fits into the buffer. -/
theorem copy_few {data : List Byte} (h : p.staged.length + data.length < 0x8000) :
    p.copy z data = (p.stage data, false) := by
  unfold Progress.copy
  split
  · rename_i hnil
    simp [hnil, Progress.stage]
  · rw [Nat.div_eq_of_lt (by rw [List.length_append]; exact h)]
    rfl

theorem take_full {data : List Byte} (hle : p.staged.length ≤ 0x8000) :
    (p.staged ++ data).take 0x8000 = p.staged ++ data.take (0x8000 - p.staged.length) := by
  rw [List.take_append, List.take_of_length_le hle]

theorem drop_full {data : List Byte} (hle : p.staged.length ≤ 0x8000) :
    (p.staged ++ data).drop 0x8000 = data.drop (0x8000 - p.staged.length) := by
  rw [List.drop_append, List.drop_of_length_le hle, List.nil_append]

/-- The buffer is full: it goes out if it ends in the zone. -/
theorem copy_full {data : List Byte} (hne : data ≠ []) (hle : p.staged.length ≤ 0x8000)
    (h : 0x8000 ≤ p.staged.length + data.length) :
    p.copy z data = if z.size < (p.offset + 0x8000) % 2 ^ 32 then
        (p.stage (data.take (0x8000 - p.staged.length)), true)
      else ((p.stage (data.take (0x8000 - p.staged.length))).flush z).copy z
        (data.drop (0x8000 - p.staged.length)) := by
  have hstage : p.stage (data.take (0x8000 - p.staged.length)) =
      { p with staged := (p.staged ++ data).take 0x8000 } := by rw [Progress.stage, take_full hle]
  have hcount : (p.staged ++ data).length / 0x8000 =
      (data.drop (0x8000 - p.staged.length)).length / 0x8000 + 1 := by
    rw [List.length_append, List.length_drop]
    omega
  rw [Progress.copy, if_neg hne, hcount, Progress.buffers, drop_full hle, hstage]
  split
  · rfl
  · generalize hq : Progress.flush z _ = q
    have hempty : q.staged = [] := by rw [← hq, flush_staged_nil]
    generalize data.drop (0x8000 - p.staged.length) = rest
    rw [Progress.copy, hempty, List.nil_append]
    split
    · rename_i hnil
      rw [hnil, List.length_nil, Nat.zero_div, Progress.buffers, ← hempty]
    · rfl

theorem copyLoop_tracks : ∀ (fuel : Nat) (s : State) (p : Progress) (data : List Byte), Tracks z m ops₀ s p →
    data.length + p.staged.length / 0x8000 ≤ fuel →
    Tracks z m ops₀ (copyLoop z fuel s data).1 (p.copy z data).1 ∧
      (copyLoop z fuel s data).2 = (p.copy z data).2 := by
  intro fuel
  induction fuel with
  | zero =>
    intro s p data h hf
    have hnil : data = [] := List.length_eq_zero_iff.mp (by omega)
    rw [hnil, Progress.copy, if_pos rfl]
    exact ⟨h, rfl⟩
  | succ fuel ih =>
    intro s p data h hf
    have hle := h.staged_le
    by_cases hne : data = []
    · rw [hne, Progress.copy, if_pos rfl, copyLoop, if_pos rfl]
      exact ⟨h, rfl⟩
    · have hpos : 0 < data.length := List.length_pos_iff.mpr hne
      by_cases hfew : p.staged.length + data.length < 0x8000
      · rw [copyLoop_stage (by rw [h.buf]; exact hfew), copy_few hfew]
        exact ⟨stage_tracks h (by omega), rfl⟩
      · -- the buffer fills up
        have hmin : min (0x8000 - s.buf.length) data.length = 0x8000 - p.staged.length := by
          rw [h.buf]
          omega
        have htake : (data.take (0x8000 - p.staged.length)).length = 0x8000 - p.staged.length := by
          rw [List.length_take]
          omega
        have hstage : Tracks z m ops₀ (s.stage (data.take (0x8000 - p.staged.length)))
            (p.stage (data.take (0x8000 - p.staged.length))) := stage_tracks h (by omega)
        have hbuf : (s.buf ++ data.take (0x8000 - p.staged.length)).length = 0x8000 := by
          rw [List.length_append, htake, h.buf]
          omega
        have hsum : (s.fotaWriteOffset + 0x8000) % 2 ^ 32 = (p.offset + 0x8000) % 2 ^ 32 := by rw [h.offset]
        rw [copyLoop, if_neg hne, copy_full hne hle (by omega)]
        simp only [hmin, hbuf, Nat.le_refl, if_true, hsum]
        split
        · exact ⟨hstage, rfl⟩
        · have hfull : (p.stage (data.take (0x8000 - p.staged.length))).staged ≠ [] := by
            refine List.ne_nil_of_length_pos ?_
            rw [Progress.stage, List.length_append, htake]
            omega
          refine ih _ _ _ (flush_tracks hstage hfull) ?_
          rw [flush_staged_nil, List.length_drop, List.length_nil]
          omega

/-! ## The header test -/

theorem flushRest_tracks (h : Tracks z m ops₀ s p) : Tracks z m ops₀ (s.flushRest z) (p.flush z) := by
  by_cases hnil : p.staged = []
  · rw [State.flushRest, if_pos (by rw [h.buf]; exact hnil), Progress.flush, if_pos hnil]
    exact h
  · rw [State.flushRest, if_neg (by rw [h.buf]; exact hnil)]
    exact flush_tracks h hnil

theorem flushRest_headCheck (z : Zone) (s : State) : (s.flushRest z).fotaHeadCheck = s.fotaHeadCheck := by
  rcases flushRest_cases z s with ⟨-, e⟩ | ⟨-, e⟩
  · rw [e]
  · rw [e, flush_headCheck]

theorem headCheck_tracks (h : Tracks z m ops₀ s p) :
    Tracks z m ops₀ (headCheck hw z s).2 (p.check hw z m) := by
  have hcases := headCheck_cases hw z s
  rw [h.total_eq, h.checked] at hcases
  unfold Progress.check
  by_cases hcond : p.checked = false ∧ 64 ≤ p.total
  · have hrest := flushRest_tracks h
    rw [hrest.head_eq] at hcases
    rw [if_pos hcond]
    rcases hcases with ⟨hnot, -⟩ | ⟨-, ⟨hok, e⟩ | ⟨hbad, -, e⟩⟩
    · exact absurd hcond hnot
    · rw [e, decide_eq_true hok]
      exact { hrest with checked := rfl }
    · rw [e, decide_eq_false hbad]
      refine { hrest with checked := ?_ }
      rw [flushRest_headCheck, h.checked]
      exact hcond.1
  · rw [if_neg hcond]
    rcases hcases with ⟨-, e⟩ | ⟨hyes, -⟩
    · rw [e]
      exact h
    · exact absurd hyes hcond

/-! ## Calls -/

/-- `luat_fota_write` or `luat_fota_done`. -/
def Call.isData : Call → Bool
  | .write _ => true
  | .done => true
  | _ => false

theorem write_tracks {data : List Byte} (h : Tracks z m ops₀ s p) :
    Tracks z m ops₀ (luatFotaWrite hw z s data).2 (p.feed hw z m (.write data)) := by
  have hle := h.staged_le
  obtain ⟨hloop, hflag⟩ := copyLoop_tracks (data.length + 1) s p data h (by omega)
  rw [Progress.feed]
  rw [luatFotaWrite, if_neg (by rw [h.ongo]; simp), if_neg (by rw [h.buffer]; simp)]
  generalize copyLoop z (data.length + 1) s data = r at hloop hflag ⊢
  generalize p.copy z data = q at hloop hflag ⊢
  obtain ⟨s', full⟩ := r
  obtain ⟨p', full'⟩ := q
  subst hflag
  cases full with
  | true => exact hloop
  | false => exact headCheck_tracks hloop

theorem done_tracks (h : Tracks z m ops₀ s p) (hbad : (luatFotaDone hw z s).1 ≠ 0) :
    Tracks z m ops₀ (luatFotaDone hw z s).2 (p.feed hw z m .done) := by
  -- the tests change nothing when one of them fails
  have hsame : ∀ s' : State, (doneCheck hw z s').1 ≠ 0 → (doneCheck hw z s').2 = s' := by
    intro s' hne
    rcases doneCheck_cases hw z s' with ⟨-, e⟩ | ⟨e, -⟩
    · exact e
    · rw [e] at hne
      exact absurd rfl hne
  unfold luatFotaDone at hbad ⊢
  rw [h.total_eq] at hbad ⊢
  rw [Progress.feed]
  by_cases hnil : p.staged = []
  · have hbuf : s.buf = [] := by rw [h.buf]; exact hnil
    rw [if_neg (not_not.mpr hbuf)] at hbad ⊢
    rw [hsame s hbad, Progress.flush, if_pos hnil, ite_self]
    exact h
  · have hbuf : s.buf ≠ [] := by rw [h.buf]; exact hnil
    rw [if_pos hbuf] at hbad ⊢
    split at hbad
    · rename_i hfull
      rw [if_pos hfull, if_pos hfull]
      exact h
    · rename_i hroom
      rw [if_neg hroom, if_neg hroom, hsame _ hbad]
      exact flush_tracks h hnil

/-- A call that takes in data, or a `luat_fota_done` that is refused. -/
theorem feed_tracks {c : Call} (h : Tracks z m ops₀ s p) (hc : c.isData = true)
    (hdone : c = .done → (luatFotaDone hw z s).1 ≠ 0) : Tracks z m ops₀ (next hw z s c) (p.feed hw z m c) := by
  cases c with
  | init heap => simp [Call.isData] at hc
  | write data => exact write_tracks h
  | done => exact done_tracks h (hdone rfl)
  | fin isOk => simp [Call.isData] at hc

/-- A run of such calls. -/
theorem run_tracks {cs : List Call} : ∀ {s : State} {p : Progress}, Tracks z m ops₀ s p →
    (∀ c ∈ cs, c.isData = true) →
    (∀ q ∈ trace (next hw z) s cs, q.2 = .done → (luatFotaDone hw z q.1).1 ≠ 0) →
    Tracks z m ops₀ (runs (next hw z) s cs) (runs (Progress.feed hw z m) p cs) := by
  induction cs with
  | nil => intro s p h _ _; exact h
  | cons c cs ih =>
    intro s p h hcs hdone
    have hstep := feed_tracks h (hcs c List.mem_cons_self) (hdone (s, c) List.mem_cons_self)
    exact ih hstep (fun d hd => hcs d (List.mem_cons_of_mem _ hd))
      (fun q hq => hdone q (List.mem_cons_of_mem _ hq))

end Tracks

/-! ## The erase loop -/

/-- The flash commands of the erase loop. -/
def eraseOps (z : Zone) (n : Nat) : List Op := (List.range n).map fun i => .erase (z.base + i * 4096) 4096

theorem eraseOps_succ (z : Zone) (n : Nat) :
    eraseOps z (n + 1) = eraseOps z n ++ [.erase (z.base + n * 4096) 4096] := by
  simp [eraseOps, List.range_succ]

@[simp] theorem eraseOps_length (z : Zone) (n : Nat) : (eraseOps z n).length = n := by simp [eraseOps]

theorem eraseOps_take (z : Zone) {k n : Nat} (h : k ≤ n) : (eraseOps z n).take k = eraseOps z k := by
  rw [eraseOps, ← List.map_take, List.take_range, Nat.min_eq_left h, eraseOps]

theorem run_eraseOps (z : Zone) (m : Nat → Byte) (n : Nat) :
    run m (eraseOps z n) = (Op.erase z.base (n * 4096)).apply m := by
  induction n with
  | zero =>
    rw [Nat.zero_mul, erase_none]
    rfl
  | succ n ih =>
    rw [eraseOps_succ, run_append, ih, run_cons, run_nil]
    funext x
    simp only [Op.apply]
    by_cases hlast : z.base + n * 4096 ≤ x ∧ x < z.base + n * 4096 + 4096
    · rw [if_pos hlast, if_pos (by omega)]
    · rw [if_neg hlast]
      refine if_congr ?_ rfl rfl
      omega

theorem eraseZone_commands {z : Zone} {d : Dev} (hd : d.insideFls = some z.density) : ∀ n, n ≤ z.size / 4096 →
    commands (eraseZone z d n).log = commands d.log ++ eraseOps z n := by
  have hz := z.density_le
  have he := z.end_le
  have ha := z.base_aligned
  intro n
  induction n with
  | zero =>
    intro _
    rw [eraseOps, List.range_zero, List.map_nil, List.append_nil]
    rfl
  | succ n ih =>
    intro hn
    have hd' : (eraseZone z d n).insideFls = some z.density := by rw [eraseZone_insideFls, hd]
    have hsec : sectorOf (z.base + n * 4096) = z.base + n * 4096 := by unfold sectorOf; omega
    have hstep := tlsFlsErase_ok hd' (show z.base + n * 4096 + 4096 ≤ z.density by omega) (by omega)
    rw [← Nat.add_assoc, hsec] at hstep
    rw [eraseZone, Zone.addr, hstep, Dev.issue_log, commands_append, ih (by omega), eraseOps_succ,
      List.append_assoc]
    simp [commands, Ev.ops]

/-- `luat_fota_init` with its buffer: the data is empty, and the zone is clear. -/
theorem init_tracks {z : Zone} {s : State} (hd : s.dev.insideFls = some z.density) (hlog : s.dev.log = [])
    {heap : Bool} (hbuffer : ¬ (s.fotaBuffer = false ∧ heap = false)) :
    Tracks z (cleared z s.dev.mem) (eraseOps z (z.size / 4096)) (luatFotaInit z heap s).2 .start := by
  have hcommands := eraseZone_commands hd (z.size / 4096) (Nat.le_refl _)
  obtain ⟨es, hes, hmem⟩ := eraseZone_reaches z s.dev (z.size / 4096)
  have hdev : (luatFotaInit z heap s).2 =
      ⟨eraseZone z s.dev (z.size / 4096), .ongo, 0, false, true, []⟩ := by
    unfold luatFotaInit
    simp only []
    rw [if_neg hbuffer]
  rw [hdev]
  have hnone : commands s.dev.log = [] := by rw [hlog]; rfl
  rw [hnone, List.nil_append] at hcommands
  refine ⟨rfl, rfl, (eraseZone_insideFls z s.dev _).trans hd, rfl, rfl, rfl, Nat.zero_le _, [], ?_, ?_,
    trail_nil _⟩
  · rw [List.append_nil]
    exact hcommands
  · rw [run_nil, hmem, cleared, ← run_eraseOps, ← hcommands, hes, hlog, List.nil_append]

theorem Tracks.left_eq {z : Zone} {m : Nat → Byte} {s : State} {p : Progress}
    (h : Tracks z (cleared z m) (eraseOps z (z.size / 4096)) s p) (k : Nat) :
    run m ((commands s.dev.log).take k) = leftAt z m p.pieces k := by
  obtain ⟨ops, hlog, -, htrail⟩ := h.trail
  rw [hlog, leftAt]
  rcases run_take_append m (eraseOps z (z.size / 4096)) ops k with ⟨hlt, e⟩ | ⟨hge, e⟩
  · rw [eraseOps_length] at hlt
    rw [e, eraseOps_take z (by omega), run_eraseOps, if_pos hlt]
  · rw [eraseOps_length] at hge e
    rw [e, run_eraseOps, ← cleared, htrail.torn_eq, if_neg (by omega)]

end Fota
end Air101
