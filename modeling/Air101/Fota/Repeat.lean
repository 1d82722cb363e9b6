import Air101.Fota.Boot

/-!
# Fota.Repeat

The same update decompressed twice. The driver calls depend on the parser and the stream alone, not
on the flash they go to, so two runs over flashes that differ in script sectors make the same calls.

* `otaGzcb_frame`, `tinflLoop_frame`: cut at any command, a run has touched script sectors only.
* `gzLoop_agree`, `tinflLoop_agree`: two runs of the same calls end with the same script bytes.
* `tinflLoop_more`: a loop that has come to its end does not need more rounds.
-/

namespace Air101
namespace Fota

open Storage
open Fls

/-- The sectors that the script bytes `ws` are addressed to. -/
def InSectors (luadbAddr : Nat) (ws : List (Byte × Nat)) (x : Nat) : Prop :=
  ∃ w ∈ ws, (luadbAddr + w.2) % 0x8000000 / 4096 = x / 4096

/-- `d'` comes from `d` by driver calls whose commands stay in the sectors `S`. -/
def Within (S : Nat → Prop) (d d' : Dev) : Prop :=
  ∃ es, d'.log = d.log ++ es ∧ d'.mem = run d.mem (commands es) ∧
    ∀ o ∈ commands es, ∀ x, o.Touches x → S x

theorem Within.refl (S : Nat → Prop) (d : Dev) : Within S d d :=
  ⟨[], by simp, rfl, fun o ho => by simp [commands] at ho⟩

theorem Within.trans {S : Nat → Prop} {d d' d'' : Dev} (h : Within S d d')
    (h' : Within S d' d'') : Within S d d'' := by
  obtain ⟨es, hl, hm, hs⟩ := h
  obtain ⟨fs, hl', hm', hs'⟩ := h'
  refine ⟨es ++ fs, by rw [hl', hl, List.append_assoc], ?_, ?_⟩
  · rw [hm', hm, commands_append, run_append]
  · intro o ho
    rw [commands_append] at ho
    rcases List.mem_append.mp ho with ho | ho
    · exact hs o ho
    · exact hs' o ho

theorem Within.mono {S T : Nat → Prop} {d d' : Dev} (h : Within S d d')
    (hST : ∀ x, S x → T x) : Within T d d' := by
  obtain ⟨es, hl, hm, hs⟩ := h
  exact ⟨es, hl, hm, fun o ho x hx => hST x (hs o ho x hx)⟩

theorem Within.mem_out {S : Nat → Prop} {d d' : Dev} (h : Within S d d') {x : Nat}
    (hx : ¬ S x) : d'.mem x = d.mem x := by
  obtain ⟨es, _, hm, hs⟩ := h
  rw [hm]
  exact run_frame fun o ho ht => hx (hs o ho x ht)

/-! ## The callback -/

section Callback

variable {luadbAddr density : Nat}

theorem script_length_le (s : List Byte) (p : Parser) : (p.script s).length ≤ s.length := by
  induction s generalizing p with
  | nil => exact Nat.le_refl _
  | cons b s ih =>
    have hrest := ih (p.step b)
    have hemit : (p.emits b).length ≤ 1 := by
      unfold Parser.emits
      split <;> simp
    rw [Parser.script, List.length_append, List.length_cons]
    omega

theorem tlsFlsWrite_within {d : Dev} (hd : d.insideFls = some density) (hdens : density ≤ 2 ^ 24)
    (pos : Nat) {u : List Byte} (hu : u ≠ []) (hlen : u.length ≤ 0x8000) :
    Within (InSectors luadbAddr (u.zipIdx pos)) d
      (tlsFlsWrite d ((luadbAddr + pos) % 2 ^ 32) u).2 := by
  by_cases hin : (luadbAddr + pos) % 2 ^ 32 % 0x8000000 < density
  · have hpos : 0 < u.length := List.length_pos_iff.mpr hu
    unfold tlsFlsWrite
    rw [rangeCheck_ok hd hin hpos]
    refine ⟨[.write _ u _], rfl, by simp [commands, Ev.ops], ?_⟩
    intro o ho x hx
    rw [commands, List.flatMap_cons, List.flatMap_nil, List.append_nil] at ho
    generalize ha : (luadbAddr + pos) % 2 ^ 32 % 0x8000000 = a at hin ho
    have hoff : a % 4096 < 4096 := Nat.mod_lt _ (by omega)
    have hsplit : a / 4096 * 4096 + a % 4096 = a := by omega
    have ht := writeSectors_touches u.length d.mem (a / 4096) (a % 4096) u hu hoff (by omega) o ho x hx
    rw [hsplit] at ht
    unfold sectorOf at ht
    -- the first byte that is in the sector of `x`
    obtain ⟨i, hi, hsec⟩ : ∃ i, i < u.length ∧ (a + i) / 4096 = x / 4096 := by
      by_cases hfirst : a / 4096 = x / 4096
      · exact ⟨0, hpos, hfirst⟩
      · exact ⟨x / 4096 * 4096 - a, by omega, by omega⟩
    refine ⟨(u[i], pos + i), ?_, ?_⟩
    · rw [List.mk_add_mem_zipIdx_iff_getElem?]
      exact List.getElem?_eq_getElem hi
    · rw [← hsec]
      congr 1
      simp only []
      omega
  · rw [tlsFlsWrite_einval hd (by omega)]
    exact ⟨[.write _ u []], rfl, rfl, fun o ho => by simp [commands, Ev.ops] at ho⟩

/-- A chunk touches the sectors of its script bytes. -/
theorem otaGzcb_frame {g : Script} (hwf : g.parser.Wf) (hd : g.dev.insideFls = some density)
    (hdens : density ≤ 2 ^ 24) {chunk : List Byte} (hlen : chunk.length ≤ 0x8000) :
    Within (InSectors luadbAddr (g.parser.script chunk)) g.dev
      (otaGzcb luadbAddr g chunk).dev := by
  refine (gzLoop_inv (P := fun _ ws d d' => d.insideFls = some density → ws.length ≤ 0x8000 →
    Within (InSectors luadbAddr ws) d d') ?_ ?_ _ g chunk hwf (Nat.lt_succ_self _)).2 hd
    (Nat.le_trans (script_length_le chunk g.parser) hlen)
  · intro _ d _ _
    exact .refl _ d
  · intro g u v d' _ hu hscript ih hd hws
    rw [List.length_append] at hws
    have hleft : ∀ x, InSectors luadbAddr (g.parser.script u) x →
        InSectors luadbAddr (g.parser.script u ++ (g.parser.feed u).script v) x := by
      rintro x ⟨w, hw, hx⟩
      exact ⟨w, List.mem_append_left _ hw, hx⟩
    have hright : ∀ x, InSectors luadbAddr ((g.parser.feed u).script v) x →
        InSectors luadbAddr (g.parser.script u ++ (g.parser.feed u).script v) x := by
      rintro x ⟨w, hw, hx⟩
      exact ⟨w, List.mem_append_right _ hw, hx⟩
    have hrest := ih ((pass_insideFls g u).trans hd) (by omega)
    refine Within.trans ?_ (hrest.mono hright)
    unfold Script.pass
    split
    · rename_i hin
      rw [if_pos hin] at hscript
      rw [hscript, List.length_zipIdx] at hws
      rw [hscript] at hleft
      rw [hscript]
      exact (tlsFlsWrite_within hd hdens _ hu (by omega)).mono hleft
    · exact .refl _ _

/-- Two writes of the same bytes to the same place: cells that were equal stay equal, and the bytes
on the chip are equal. -/
theorem tlsFlsWrite_agree {d e : Dev} (hd : d.insideFls = some density)
    (he : e.insideFls = some density) (hdens : density ≤ 2 ^ 24) (pos : Nat) {u : List Byte}
    (hu : u ≠ []) (hlen : u.length ≤ 0x8000) {x : Nat}
    (h : d.mem x = e.mem x ∨ ∃ w ∈ u.zipIdx pos, luadbAddr + w.2 = x ∧ x < density) :
    (tlsFlsWrite d ((luadbAddr + pos) % 2 ^ 32) u).2.mem x =
      (tlsFlsWrite e ((luadbAddr + pos) % 2 ^ 32) u).2.mem x := by
  by_cases hin : (luadbAddr + pos) % 2 ^ 32 % 0x8000000 < density
  · rw [(tlsFlsWrite_ok hd hin hu (by omega)).2, (tlsFlsWrite_ok he hin hu (by omega)).2]
    apply overlay_congr
    rcases h with h | ⟨w, hw, hx, hlt⟩
    · exact .inr h
    · -- a byte on the chip is among those that are written
      left
      obtain ⟨hlo, hhi, _⟩ := List.mem_zipIdx hw
      omega
  · rw [tlsFlsWrite_einval hd (by omega), tlsFlsWrite_einval he (by omega)]
    rcases h with h | ⟨w, hw, hx, hlt⟩
    · exact h
    · exfalso
      obtain ⟨hlo, hhi, _⟩ := List.mem_zipIdx hw
      omega

/-- Two runs over the same chunk. -/
theorem gzLoop_agree (luadbAddr : Nat) (hdens : density ≤ 2 ^ 24) {x : Nat} : ∀ (fuel : Nat) (p : Parser)
    (tmp : List Byte) (d e : Dev), p.Wf → tmp.length ≤ 0x8000 → tmp.length < fuel →
    d.insideFls = some density → e.insideFls = some density →
    (d.mem x = e.mem x ∨ ∃ w ∈ p.script tmp, luadbAddr + w.2 = x ∧ x < density) →
    (gzLoop luadbAddr fuel ⟨d, p⟩ tmp).dev.mem x = (gzLoop luadbAddr fuel ⟨e, p⟩ tmp).dev.mem x := by
  intro fuel
  induction fuel with
  | zero => intro p tmp d e _ _ hf; omega
  | succ fuel ih =>
    intro p tmp d e hwf hlen hf hd he h
    by_cases hne : tmp = []
    · subst hne
      rw [gzLoop_nil, gzLoop_nil]
      rcases h with h | ⟨w, hw, _⟩
      · exact h
      · simp [Parser.script] at hw
    · obtain ⟨u, v, rfl, hu, hloop, hscript⟩ := gzLoop_pass luadbAddr hwf hne fuel
      have hpos : 0 < u.length := List.length_pos_iff.mpr hu
      rw [List.length_append] at hlen hf
      rw [hloop d, hloop e]
      apply ih _ _ _ _ (hwf.feed u) (by omega) (by omega) ((pass_insideFls _ _).trans hd)
        ((pass_insideFls _ _).trans he)
      rw [script_append] at h
      -- the cell is settled by this pass, or it is up to the rest
      by_cases hlater : ∃ w ∈ (p.feed u).script v, luadbAddr + w.2 = x ∧ x < density
      · exact .inr hlater
      · left
        have hnow : d.mem x = e.mem x ∨ ∃ w ∈ p.script u, luadbAddr + w.2 = x ∧ x < density := by
          rcases h with h | ⟨w, hw, hx⟩
          · exact .inl h
          · rcases List.mem_append.mp hw with hw | hw
            · exact .inr ⟨w, hw, hx⟩
            · exact absurd ⟨w, hw, hx⟩ hlater
        unfold Script.pass
        rw [hscript] at hnow
        split
        · rename_i hin
          rw [if_pos hin] at hnow
          exact tlsFlsWrite_agree hd he hdens _ hu (by omega) hnow
        · rename_i hin
          rw [if_neg hin] at hnow
          simpa using hnow

end Callback

/-! ## The decompression loop -/

section Loop

variable (t : Tinfl) (ptr inSize : Nat) (m : Nat → Byte)

/-- The states in which the loop calls the decompressor, over a flash `m` that does not change. -/
inductive Visits : t.σ → Nat → Nat → Prop where
  | start : Visits t.init 0 0
  | next {decomp : t.σ} {inBufOfs dictOfs : Nat} {r : TinflOut t.σ} (h : Visits decomp inBufOfs dictOfs)
      (hr : t.decompress decomp (slice m (ptr + inBufOfs) (inSize - inBufOfs)) (0x8000 - dictOfs) = r)
      (hmore : r.status = .hasMoreOutput) :
      Visits r.state (inBufOfs + r.used) ((dictOfs + r.out.length) % 0x8000)

/-- The decompression is the same on every flash that differs from `m` in the sectors `S` only. -/
def Deterministic (S : Nat → Prop) : Prop :=
  ∀ m', (∀ x, ¬ S x → m' x = m x) → ∀ decomp inBufOfs dictOfs,
    Visits t ptr inSize m decomp inBufOfs dictOfs →
    t.decompress decomp (slice m' (ptr + inBufOfs) (inSize - inBufOfs)) (0x8000 - dictOfs) =
      t.decompress decomp (slice m (ptr + inBufOfs) (inSize - inBufOfs)) (0x8000 - dictOfs)

variable {t ptr inSize m} {luadbAddr density : Nat} {S : Nat → Prop}

theorem rounds_mono {w : Byte × Nat} : ∀ (n k : Nat) (p : Parser) (decomp : t.σ)
    (inBufOfs dictOfs : Nat),
    w ∈ p.script (rounds t ptr inSize m n decomp inBufOfs dictOfs).flatten →
    w ∈ p.script (rounds t ptr inSize m (n + k) decomp inBufOfs dictOfs).flatten := by
  intro n
  induction n with
  | zero => intro k p decomp inBufOfs dictOfs h; simp [rounds, Parser.script] at h
  | succ n ih =>
    intro k p decomp inBufOfs dictOfs h
    rw [show n + 1 + k = n + k + 1 by omega]
    simp only [rounds, List.flatten_cons, script_append, List.mem_append] at h ⊢
    rcases h with h | h
    · exact .inl h
    · right
      split at h
      · rename_i hmore
        rw [if_pos hmore]
        exact ih k _ _ _ _ h
      · simp [Parser.script] at h

/-- A loop that has come to its end does not need more rounds. -/
theorem tinflLoop_more (luadbAddr : Nat) (t : Tinfl) (ptr inSize : Nat) {b : Bool} : ∀ (fuel k : Nat) (g : Script) (decomp : t.σ)
    (inBufOfs dictOfs : Nat),
    (tinflLoop luadbAddr t ptr inSize fuel g decomp inBufOfs dictOfs).2 = some b →
    tinflLoop luadbAddr t ptr inSize (fuel + k) g decomp inBufOfs dictOfs =
      tinflLoop luadbAddr t ptr inSize fuel g decomp inBufOfs dictOfs := by
  intro fuel
  induction fuel with
  | zero => intro k g decomp inBufOfs dictOfs h; simp [tinflLoop] at h
  | succ fuel ih =>
    intro k g decomp inBufOfs dictOfs h
    rw [show fuel + 1 + k = fuel + k + 1 by omega]
    simp only [tinflLoop] at h ⊢
    split
    · rename_i hmore
      rw [if_pos hmore] at h
      exact ih k _ _ _ _ h
    · rfl

theorem sectors_round {p : Parser} {decomp : t.σ} {inBufOfs dictOfs : Nat} {o : TinflOut t.σ}
    (ho : t.decompress decomp (slice m (ptr + inBufOfs) (inSize - inBufOfs)) (0x8000 - dictOfs) = o)
    (hin : ∀ n x, InSectors luadbAddr
      (p.script (rounds t ptr inSize m n decomp inBufOfs dictOfs).flatten) x → S x) :
    (∀ x, InSectors luadbAddr (p.script o.out) x → S x) ∧
      (o.status = .hasMoreOutput → ∀ n x, InSectors luadbAddr ((p.feed o.out).script
        (rounds t ptr inSize m n o.state (inBufOfs + o.used)
          ((dictOfs + o.out.length) % 0x8000)).flatten) x → S x) := by
  have hsucc : ∀ n, (rounds t ptr inSize m (n + 1) decomp inBufOfs dictOfs).flatten =
      o.out ++ (if o.status = .hasMoreOutput then rounds t ptr inSize m n o.state (inBufOfs + o.used)
        ((dictOfs + o.out.length) % 0x8000) else []).flatten := by
    intro n
    rw [rounds, ho, List.flatten_cons]
  refine ⟨?_, ?_⟩
  · rintro x ⟨w, hw, e⟩
    refine hin 1 x ⟨w, ?_, e⟩
    rw [hsucc, script_append]
    exact List.mem_append_left _ hw
  · rintro hmore n x ⟨w, hw, e⟩
    refine hin (n + 1) x ⟨w, ?_, e⟩
    rw [hsucc, script_append, if_pos hmore]
    exact List.mem_append_right _ hw

theorem tinflLoop_insideFls (luadbAddr : Nat) (t : Tinfl) (ptr inSize : Nat) : ∀ (fuel : Nat) (g : Script)
    (decomp : t.σ) (inBufOfs dictOfs : Nat), g.parser.Wf →
    (tinflLoop luadbAddr t ptr inSize fuel g decomp inBufOfs dictOfs).1.dev.insideFls =
      g.dev.insideFls := by
  intro fuel
  induction fuel with
  | zero => intro g decomp inBufOfs dictOfs _; rfl
  | succ fuel ih =>
    intro g decomp inBufOfs dictOfs hwf
    simp only [tinflLoop, round_eq]
    generalize t.decompress decomp _ _ = o
    have hround := (otaGzcb_tracks luadbAddr 0 hwf o.out).2.1
    split
    · rw [ih _ _ _ _ (otaGzcb_wf hwf _), hround]
    · exact hround

/-- Cut at any command, the loop has touched script sectors only. -/
theorem tinflLoop_frame (luadbAddr : Nat) (hdens : density ≤ 2 ^ 24) (hdet : Deterministic t ptr inSize m S) :
    ∀ (fuel : Nat) (g : Script) (decomp : t.σ) (inBufOfs dictOfs : Nat), g.parser.Wf →
    g.dev.insideFls = some density → Visits t ptr inSize m decomp inBufOfs dictOfs →
    (∀ x, ¬ S x → g.dev.mem x = m x) →
    (∀ n x, InSectors luadbAddr
      (g.parser.script (rounds t ptr inSize m n decomp inBufOfs dictOfs).flatten) x → S x) →
    Within S g.dev (tinflLoop luadbAddr t ptr inSize fuel g decomp inBufOfs dictOfs).1.dev := by
  intro fuel
  induction fuel with
  | zero => intro g decomp inBufOfs dictOfs _ _ _ _ _; exact .refl _ _
  | succ fuel ih =>
    intro g decomp inBufOfs dictOfs hwf hd hvisit hout hin
    simp only [tinflLoop, round_eq]
    rw [hdet _ hout _ _ _ hvisit]
    have hlen := t.out_le decomp (slice m (ptr + inBufOfs) (inSize - inBufOfs)) (0x8000 - dictOfs)
    have hnext := Visits.next hvisit rfl
    obtain ⟨hin1, hin2⟩ := sectors_round rfl hin
    generalize t.decompress decomp (slice m (ptr + inBufOfs) (inSize - inBufOfs))
      (0x8000 - dictOfs) = o at hlen hnext hin1 hin2 ⊢
    obtain ⟨hp, hins, _⟩ := otaGzcb_tracks luadbAddr density hwf o.out
    have hround : Within S g.dev (otaGzcb luadbAddr g o.out).dev :=
      (otaGzcb_frame hwf hd hdens (by omega)).mono hin1
    split
    · rename_i hmore
      refine hround.trans (ih _ _ _ _ (otaGzcb_wf hwf _) (hins.trans hd) (hnext hmore) ?_ ?_)
      · intro x hx
        rw [hround.mem_out hx, hout x hx]
      · rw [hp]
        exact hin2 hmore
    · exact hround

/-- Two runs of the loop over flashes that differ in script sectors only: they end alike, with the
same script bytes on the chip. -/
theorem tinflLoop_agree (luadbAddr : Nat) (hdens : density ≤ 2 ^ 24)
    (hdet : Deterministic t ptr inSize m S) (x : Nat) :
    ∀ (fuel : Nat) (p : Parser) (d e : Dev) (decomp : t.σ) (inBufOfs dictOfs : Nat), p.Wf →
    d.insideFls = some density → e.insideFls = some density →
    Visits t ptr inSize m decomp inBufOfs dictOfs →
    (∀ x, ¬ S x → d.mem x = m x) → (∀ x, ¬ S x → e.mem x = m x) →
    (∀ n x, InSectors luadbAddr
      (p.script (rounds t ptr inSize m n decomp inBufOfs dictOfs).flatten) x → S x) →
    let r := tinflLoop luadbAddr t ptr inSize fuel ⟨d, p⟩ decomp inBufOfs dictOfs
    let r' := tinflLoop luadbAddr t ptr inSize fuel ⟨e, p⟩ decomp inBufOfs dictOfs
    r.2 = r'.2 ∧ ((d.mem x = e.mem x ∨
      ∃ w ∈ p.script (rounds t ptr inSize m fuel decomp inBufOfs dictOfs).flatten,
        luadbAddr + w.2 = x ∧ x < density) → r.1.dev.mem x = r'.1.dev.mem x) := by
  intro fuel
  induction fuel with
  | zero =>
    intro p d e decomp inBufOfs dictOfs _ _ _ _ _ _ _
    refine ⟨rfl, ?_⟩
    rintro (h | ⟨w, hw, _⟩)
    · exact h
    · simp [rounds, Parser.script] at hw
  | succ fuel ih =>
    intro p d e decomp inBufOfs dictOfs hwf hd he hvisit hdout heout hin
    simp only [tinflLoop, round_eq]
    rw [hdet _ hdout _ _ _ hvisit, hdet _ heout _ _ _ hvisit]
    have hlen := t.out_le decomp (slice m (ptr + inBufOfs) (inSize - inBufOfs)) (0x8000 - dictOfs)
    have hnext := Visits.next hvisit rfl
    obtain ⟨hin1, hin2⟩ := sectors_round rfl hin
    simp only [rounds]
    generalize t.decompress decomp (slice m (ptr + inBufOfs) (inSize - inBufOfs))
      (0x8000 - dictOfs) = o at hlen hnext hin1 hin2 ⊢
    obtain ⟨hdp, hdins, _⟩ := otaGzcb_tracks luadbAddr density (g := ⟨d, p⟩) hwf o.out
    obtain ⟨hep, heins, _⟩ := otaGzcb_tracks luadbAddr density (g := ⟨e, p⟩) hwf o.out
    have hdframe := (otaGzcb_frame (g := ⟨d, p⟩) hwf hd hdens (by omega)).mono hin1
    have heframe := (otaGzcb_frame (g := ⟨e, p⟩) hwf he hdens (by omega)).mono hin1
    have hchunk := gzLoop_agree luadbAddr hdens (x := x) (o.out.length + 1) p o.out d e
      hwf (by omega) (Nat.lt_succ_self _) hd he
    rw [List.flatten_cons, script_append]
    split
    · rename_i hmore
      have hd1 : otaGzcb luadbAddr ⟨d, p⟩ o.out = ⟨(otaGzcb luadbAddr ⟨d, p⟩ o.out).dev, p.feed o.out⟩ := by
        rw [← hdp]
      have he1 : otaGzcb luadbAddr ⟨e, p⟩ o.out = ⟨(otaGzcb luadbAddr ⟨e, p⟩ o.out).dev, p.feed o.out⟩ := by
        rw [← hep]
      obtain ⟨hflag, hmem⟩ := ih (p.feed o.out) (otaGzcb luadbAddr ⟨d, p⟩ o.out).dev
        (otaGzcb luadbAddr ⟨e, p⟩ o.out).dev o.state (inBufOfs + o.used)
        ((dictOfs + o.out.length) % 0x8000) (hwf.feed _) (hdins.trans hd) (heins.trans he)
        (hnext hmore) (fun y hy => by rw [hdframe.mem_out hy]; exact hdout y hy)
        (fun y hy => by rw [heframe.mem_out hy]; exact heout y hy) (hin2 hmore)
      rw [← hd1, ← he1] at hflag hmem
      refine ⟨hflag, fun h => hmem ?_⟩
      -- the cell is settled by this round, or it is up to the later ones
      by_cases hlater : ∃ w ∈ (p.feed o.out).script (rounds t ptr inSize m fuel o.state
          (inBufOfs + o.used) ((dictOfs + o.out.length) % 0x8000)).flatten,
          luadbAddr + w.2 = x ∧ x < density
      · exact .inr hlater
      · left
        apply hchunk
        rcases h with h | ⟨w, hw, hx⟩
        · exact .inl h
        · rcases List.mem_append.mp hw with hw | hw
          · exact .inr ⟨w, hw, hx⟩
          · exact absurd ⟨w, hw, hx⟩ hlater
    · refine ⟨rfl, fun h => hchunk ?_⟩
      rcases h with h | ⟨w, hw, hx⟩
      · exact .inl h
      · rw [List.flatten_nil, Parser.script, List.append_nil] at hw
        exact .inr ⟨w, hw, hx⟩

end Loop

end Fota
end Air101
