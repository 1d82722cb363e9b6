import Air101.Fota.Stream

/-!
# Fota.Boot

The check at boot (`app/port/luat_fota_air101.c`): `check_ota_zone` looks at the header in the OTA
zone and, for a full image, decompresses what is behind it through `ota_gzcb` into the script
partition. At the end it erases the sector of the header.

The decompressor (`tinfl_decompress` of miniz) is not part of the sources. It is a parameter: a
state machine that takes the input left and the room in the dictionary and gives the bytes it put
there. The input is read where it is, in the mapped flash, so a script that is written over it
would show.

* `tinflLoop_quiet`, `tinflLoop_writes`: the loop writes to the flash exactly when the decompressed
  stream has a script byte.
* `checkOtaZone_script_iff`: when the check at boot leaves the script partition alone. The checksum
  of the body and the length that came in have no part in it.
-/

namespace Air101
namespace Fota

open Storage
open Crypto
open Fls

/-- `tinfl_status`, as far as the loop looks at it. -/
inductive TinflStatus where
  | done
  | hasMoreOutput
  | stopped
  deriving DecidableEq, Repr

/-- What one call of `tinfl_decompress` returns: its new state, the input it used, the output. -/
structure TinflOut (σ : Type) where
  state : σ
  used : Nat
  out : List Byte
  status : TinflStatus

/-- The decompressor with its dictionary. It never puts out more than there is room for. -/
structure Tinfl where
  σ : Type
  init : σ
  decompress : σ → List Byte → Nat → TinflOut σ
  out_le : ∀ s inp room, (decompress s inp room).out.length ≤ room

section Loop

variable (luadbAddr : Nat) (t : Tinfl) (ptr inSize : Nat)

/-- The loop of `my_tinfl_decompress_mem_to_callback` with `ota_gzcb`, which never stops it. The
dictionary has 32 KB. `none` while it has not ended after `fuel` rounds. -/
def tinflLoop : Nat → Script → t.σ → Nat → Nat → Script × Option Bool
  | 0, g, _, _, _ => (g, none)
  | fuel + 1, g, decomp, inBufOfs, dictOfs =>
    let r := t.decompress decomp (slice g.dev.mem (ptr + inBufOfs) (inSize - inBufOfs))
      (0x8000 - dictOfs)
    let g := if r.out = [] then g else otaGzcb luadbAddr g r.out
    if r.status = .hasMoreOutput then
      tinflLoop fuel g r.state (inBufOfs + r.used) ((dictOfs + r.out.length) % 0x8000)
    else (g, some (r.status = .done))

/-- The output of the first rounds over a flash `m` that does not change. -/
def rounds (m : Nat → Byte) : Nat → t.σ → Nat → Nat → List (List Byte)
  | 0, _, _, _ => []
  | fuel + 1, decomp, inBufOfs, dictOfs =>
    let r := t.decompress decomp (slice m (ptr + inBufOfs) (inSize - inBufOfs)) (0x8000 - dictOfs)
    r.out :: if r.status = .hasMoreOutput then
      rounds m fuel r.state (inBufOfs + r.used) ((dictOfs + r.out.length) % 0x8000)
    else []

end Loop

section Check

variable (hw : Engine) (bd : Board) (t : Tinfl)

/-- `clean:` erases the sector of the header. -/
def clean (d : Dev) : Dev := (tlsFlsErase d (bd.addr / 4096)).2

/-- The decompression in `check_ota_zone`: the parser is reset, ten bytes of the gzip header are
skipped, and `heap` says whether the decompressor and its dictionary can be allocated. -/
def inflateScripts (heap : Bool) (fuel : Nat) (d : Dev) (inSize : Nat) : Script × Option Bool :=
  let g : Script := ⟨d, Parser.reset⟩
  if heap = false then (g, some false)
  else tinflLoop bd.luadbAddr t (bd.base + 64 + 10) inSize fuel g t.init 0 0

/-- `check_ota_zone`; `true` when it has come to its end after `fuel` rounds of decompression. -/
def checkOtaZone (heap : Bool) (fuel : Nat) (d : Dev) : Dev × Bool :=
  let imghead := slice d.mem bd.base 64
  if Header.magic imghead = 0xFFFFFFFF then (d, true)
  else if Header.magic imghead ≠ magicNo then (clean bd d, true)
  else if imgChecksum hw (imghead.take 60) ≠ Header.hdChecksum imghead then (clean bd d, true)
  else if Header.imgType imghead = 1 then
    match inflateScripts bd t heap fuel d (Header.imgLen imghead) with
    | (g, some _) => (clean bd g.dev, true)
    | (g, none) => (g.dev, false)
  else (clean bd d, true)

end Check

/-! ## When the callback writes -/

section Callback

variable {luadbAddr : Nat}

/-- A chunk without a script byte leaves the flash alone; a chunk with one writes the first of them
where it belongs. -/
theorem otaGzcb_first (luadbAddr : Nat) {g : Script} (hwf : g.parser.Wf) (chunk : List Byte) :
    (g.parser.script chunk = [] → (otaGzcb luadbAddr g chunk).dev = g.dev) ∧
      (∀ w ws, g.parser.script chunk = w :: ws →
        ∃ buf ops, .write ((luadbAddr + w.2) % 2 ^ 32) buf ops ∈
          (otaGzcb luadbAddr g chunk).dev.log) := by
  refine (gzLoop_inv (P := fun _ ws d d' => d.Reaches d' ∧ (ws = [] → d' = d) ∧
    ∀ w vs, ws = w :: vs → ∃ buf ops, .write ((luadbAddr + w.2) % 2 ^ 32) buf ops ∈ d'.log)
    ?_ ?_ _ g chunk hwf (Nat.lt_succ_self _)).2.2
  · intro _ d
    exact ⟨.refl d, fun _ => rfl, fun w vs h => by simp at h⟩
  · rintro g u v d' _ hu hscript ⟨ihm, ihq, ihw⟩
    refine ⟨(pass_reaches g u).trans ihm, ?_⟩
    rw [hscript]
    unfold Script.pass at ihm ihq
    split
    · -- the part is script: it is written
      rename_i hin
      rw [if_pos hin] at ihm
      obtain ⟨ops, hissue⟩ := tlsFlsWrite_issue g.dev ((luadbAddr + g.parser.pos) % 2 ^ 32) u
      have hlog := ihm.log_grows
      rw [hissue, Dev.issue_log] at hlog
      obtain ⟨b, bs, rfl⟩ := List.exists_cons_of_ne_nil hu
      rw [List.zipIdx_cons, List.cons_append]
      refine ⟨fun h => by simp at h, ?_⟩
      intro w vs h
      obtain ⟨rfl, _⟩ := List.cons.inj h
      exact ⟨b :: bs, ops,
        hlog.subset (List.mem_append_right _ (List.mem_singleton_self _))⟩
    · rename_i hin
      rw [if_neg hin] at ihm ihq
      rw [List.nil_append]
      exact ⟨ihq, ihw⟩

theorem script_first {p : Parser} (hwf : p.Wf) (hp : p.inScript → p.pos = 0) :
    ∀ {s : List Byte} {w : Byte × Nat} {ws : List (Byte × Nat)}, p.script s = w :: ws → w.2 = 0 := by
  intro s
  induction s generalizing p with
  | nil => intro w ws h; simp [Parser.script] at h
  | cons b s ih =>
    intro w ws h
    rw [Parser.script, Parser.emits] at h
    split at h
    · rename_i hin
      obtain ⟨rfl, _⟩ := List.cons.inj h
      exact hp hin
    · rename_i hin
      refine ih (hwf.step b) ?_ h
      intro hstep
      -- a body is entered at its first byte
      have hle := (hwf.step b).skip_le
      have hnew : ¬ (p.step b).imageSkipRemain < Header.imgLen (p.step b).tmphead := by
        intro hlt
        obtain ⟨hskip, hhead⟩ := step_prev hstep.1 hlt
        exact hin ⟨by omega, by rw [hhead]; exact hstep.2⟩
      unfold Parser.pos
      omega

/-! ## The decompression loop -/

theorem round_eq (g : Script) (out : List Byte) :
    (if out = [] then g else otaGzcb luadbAddr g out) = otaGzcb luadbAddr g out := by
  split
  · rename_i h0
    rw [h0]
    exact (gzLoop_nil _ g).symm
  · rfl

theorem otaGzcb_wf {g : Script} (hwf : g.parser.Wf) (out : List Byte) :
    (otaGzcb luadbAddr g out).parser.Wf := by
  rw [(otaGzcb_tracks luadbAddr 0 hwf out).1]
  exact hwf.feed out

theorem tinflLoop_reaches (luadbAddr : Nat) (t : Tinfl) (ptr inSize : Nat) : ∀ (fuel : Nat) (g : Script) (decomp : t.σ)
    (inBufOfs dictOfs : Nat), g.parser.Wf →
    g.dev.Reaches (tinflLoop luadbAddr t ptr inSize fuel g decomp inBufOfs dictOfs).1.dev := by
  intro fuel
  induction fuel with
  | zero => intro g decomp inBufOfs dictOfs _; exact .refl _
  | succ fuel ih =>
    intro g decomp inBufOfs dictOfs hwf
    simp only [tinflLoop, round_eq]
    generalize t.decompress decomp _ _ = o
    have hround := otaGzcb_reaches luadbAddr hwf o.out
    split
    · exact hround.trans (ih _ _ _ _ (otaGzcb_wf hwf _))
    · exact hround

/-- As long as the decompressed stream has no script byte the loop leaves the flash alone, so it
sees the input the stream is made from; the first script byte is written. -/
theorem tinflLoop_first (luadbAddr : Nat) (t : Tinfl) (ptr inSize : Nat) (m : Nat → Byte) : ∀ (fuel : Nat) (g : Script)
    (decomp : t.σ) (inBufOfs dictOfs : Nat), g.parser.Wf → g.dev.mem = m →
    let r := tinflLoop luadbAddr t ptr inSize fuel g decomp inBufOfs dictOfs
    let str := (rounds t ptr inSize m fuel decomp inBufOfs dictOfs).flatten
    (g.parser.script str = [] → r.1.dev = g.dev) ∧
      (∀ w ws, g.parser.script str = w :: ws →
        ∃ buf ops, .write ((luadbAddr + w.2) % 2 ^ 32) buf ops ∈ r.1.dev.log) := by
  intro fuel
  induction fuel with
  | zero =>
    intro g decomp inBufOfs dictOfs _ _
    exact ⟨fun _ => rfl, fun w ws h => by simp [rounds, Parser.script] at h⟩
  | succ fuel ih =>
    intro g decomp inBufOfs dictOfs hwf hm
    simp only [tinflLoop, rounds, hm]
    generalize t.decompress decomp (slice m (ptr + inBufOfs) (inSize - inBufOfs))
      (0x8000 - dictOfs) = o
    rw [round_eq]
    obtain ⟨hquiet, hwrite⟩ := otaGzcb_first luadbAddr hwf o.out
    have hp := (otaGzcb_tracks luadbAddr 0 hwf o.out).1
    rw [List.flatten_cons, script_append]
    split
    · have hrest := tinflLoop_reaches luadbAddr t ptr inSize fuel
        (otaGzcb luadbAddr g o.out) o.state (inBufOfs + o.used) ((dictOfs + o.out.length) % 0x8000)
        (otaGzcb_wf hwf _)
      cases hs : g.parser.script o.out with
      | nil =>
        obtain ⟨ihq, ihw⟩ := ih (otaGzcb luadbAddr g o.out) o.state (inBufOfs + o.used)
          ((dictOfs + o.out.length) % 0x8000) (otaGzcb_wf hwf _) (by rw [hquiet hs, hm])
        rw [hp] at ihq ihw
        rw [List.nil_append]
        exact ⟨fun h => (ihq h).trans (hquiet hs), ihw⟩
      | cons v vs =>
        -- the flash may have changed now, but the write stays in the log
        refine ⟨fun h => by simp at h, ?_⟩
        intro w ws h
        obtain ⟨rfl, _⟩ := List.cons.inj h
        obtain ⟨buf, ops, hmem⟩ := hwrite v vs hs
        exact ⟨buf, ops, hrest.log_grows.subset hmem⟩
    · rw [List.flatten_nil]
      simp only [Parser.script, List.append_nil]
      exact ⟨hquiet, hwrite⟩

end Callback

/-! ## The check at boot -/

/-- The log has no write into the script partition, which goes from `luadb_addr` on. -/
def NoScriptWrite (bd : Board) (es : List Ev) : Prop :=
  ∀ addr buf ops, .write addr buf ops ∈ es → addr % 0x8000000 < bd.luadbAddr

/-- The flash `m` holds a valid header of a full image, and what is behind it decompresses to a
stream with a script in it. -/
def CarriesScript (hw : Engine) (bd : Board) (t : Tinfl) (m : Nat → Byte) : Prop :=
  HeadOk hw (slice m bd.base 64) ∧ Header.imgType (slice m bd.base 64) = 1 ∧
    ∃ n, Parser.reset.script (rounds t (bd.base + 64 + 10) (Header.imgLen (slice m bd.base 64)) m n
      t.init 0 0).flatten ≠ []

theorem clean_noScriptWrite {bd : Board} {d : Dev} (h : NoScriptWrite bd d.log) :
    NoScriptWrite bd (clean bd d).log := by
  obtain ⟨ops, e⟩ := tlsFlsErase_issue d (bd.addr / 4096)
  intro addr buf ops' hmem
  rw [clean, e, Dev.issue_log] at hmem
  rcases List.mem_append.mp hmem with hmem | hmem
  · exact h addr buf ops' hmem
  · simp at hmem

theorem clean_reaches (bd : Board) (d : Dev) : d.Reaches (clean bd d) := tlsFlsErase_reaches _ _

/-- The check at boot leaves the script partition alone exactly when the flash carries no script. -/
theorem checkOtaZone_script_iff (hw : Engine) (bd : Board) (t : Tinfl) (m : Nat → Byte) :
    (∀ heap fuel, NoScriptWrite bd
      (checkOtaZone hw bd t heap fuel ⟨some bd.density, m, []⟩).1.log) ↔
      ¬ CarriesScript hw bd t m := by
  have hdens := bd.density_le
  have hle := bd.script_le
  have hempty : NoScriptWrite bd ([] : List Ev) := fun _ _ _ h => by simp at h
  constructor
  · rintro hno ⟨⟨hmagic, hsum⟩, htype, n, hscript⟩
    obtain ⟨w, ws, hw'⟩ := List.exists_cons_of_ne_nil hscript
    -- the first script byte goes to `luadb_addr`
    have hzero : w.2 = 0 := script_first reset_ready.wf (fun h => absurd h.1 (by decide)) hw'
    obtain ⟨-, hwrite⟩ := tinflLoop_first bd.luadbAddr t (bd.base + 64 + 10)
      (Header.imgLen (slice m bd.base 64)) m n ⟨⟨some bd.density, m, []⟩, Parser.reset⟩ t.init 0 0
      reset_ready.wf rfl
    obtain ⟨buf, ops, hmem⟩ := hwrite w ws hw'
    have hlog := hno true n
    simp only [checkOtaZone, hmagic, hsum, htype, inflateScripts, Bool.true_eq_false, if_false,
      if_true, ne_eq, not_true_eq_false, show ¬ magicNo = 0xFFFFFFFF by decide] at hlog
    generalize tinflLoop bd.luadbAddr t (bd.base + 64 + 10) (Header.imgLen (slice m bd.base 64)) n
      ⟨⟨some bd.density, m, []⟩, Parser.reset⟩ t.init 0 0 = r at hmem hlog
    have haddr : ¬ (bd.luadbAddr + w.2) % 2 ^ 32 % 0x8000000 < bd.luadbAddr := by
      rw [hzero]
      omega
    obtain ⟨g, fin⟩ := r
    cases fin with
    | none => exact haddr (hlog _ buf ops hmem)
    | some ret => exact haddr (hlog _ buf ops ((clean_reaches bd g.dev).log_grows.subset hmem))
  · intro hno heap fuel
    unfold checkOtaZone
    simp only []
    split
    · exact hempty
    · split
      · exact clean_noScriptWrite hempty
      · rename_i hmagic
        split
        · exact clean_noScriptWrite hempty
        · rename_i hsum
          split
          · rename_i htype
            -- a full image: its stream has no script byte
            have hquiet : (inflateScripts bd t heap fuel ⟨some bd.density, m, []⟩
                (Header.imgLen (slice m bd.base 64))).1.dev = ⟨some bd.density, m, []⟩ := by
              unfold inflateScripts
              simp only []
              split
              · rfl
              · refine (tinflLoop_first bd.luadbAddr t _ _ m fuel ⟨⟨some bd.density, m, []⟩, Parser.reset⟩ _ 0 0
                  reset_ready.wf rfl).1 ?_
                by_contra hscript
                exact hno ⟨⟨not_not.mp hmagic, not_not.mp hsum⟩, htype, fuel, hscript⟩
            generalize inflateScripts bd t heap fuel ⟨some bd.density, m, []⟩
              (Header.imgLen (slice m bd.base 64)) = r at hquiet ⊢
            obtain ⟨g, fin⟩ := r
            have hg : NoScriptWrite bd g.dev.log := by
              rw [show g.dev = ⟨some bd.density, m, []⟩ from hquiet]
              exact hempty
            cases fin with
            | none => exact hg
            | some ret => exact clean_noScriptWrite hg
          · exact clean_noScriptWrite hempty

end Fota
end Air101
