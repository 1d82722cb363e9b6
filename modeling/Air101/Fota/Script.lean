import Air101.Fls.Contract
import Air101.Fota.Image
import Air101.Storage.Runs

/-!
# Fota.Script

`ota_gzcb` of `app/port/luat_fota_air101.c`: the callback that finds the script images in the
decompressed update and writes their bodies to the script partition.

The callback works on chunks. Under it is a machine that takes one byte at a time
(`Parser.step`) and says which byte of a script goes where (`Parser.script`); the stream alone
decides both. `otaGzcb_tracks` says that a chunk does to the parser what its bytes do one by one,
and that, as long as the script stays on the chip, it writes exactly the script bytes among them.
`chunks_track` is the same for any number of chunks: how the stream is cut is gone at that point.
-/

namespace Air101
namespace Fota

open Storage
open Fls

/-- The parser's globals: `tmphead`, `head_fill_count` and `image_skip_remain`. -/
structure Parser where
  tmphead : List Byte
  headFillCount : Nat
  imageSkipRemain : Nat
  deriving DecidableEq

/-- The parser and the flash it writes to. -/
structure Script where
  dev : Dev
  parser : Parser

section Callback

variable (luadbAddr : Nat)

/-- `tls_fls_write` of a part of the body, if the image is a script (`img_type == 2`). -/
def Script.writeBody (g : Script) (bs : List Byte) : Script :=
  let p := g.parser
  if Header.imgType p.tmphead = 2 then
    let addr := (luadbAddr + (Header.imgLen p.tmphead - p.imageSkipRemain)) % 2 ^ 32
    { g with dev := (tlsFlsWrite g.dev addr bs).2 }
  else g

/-- The `next:` loop of `ota_gzcb`. Every `goto next` has taken at least one byte. -/
def gzLoop : Nat → Script → List Byte → Script
  | 0, g, _ => g
  | fuel + 1, g, tmp =>
    let p := g.parser
    if tmp = [] then g
    else if 0 < p.imageSkipRemain then
      if p.imageSkipRemain ≤ tmp.length then
        let g := g.writeBody luadbAddr (tmp.take p.imageSkipRemain)
        gzLoop fuel { g with parser := { p with imageSkipRemain := 0, headFillCount := 0 } }
          (tmp.drop p.imageSkipRemain)
      else
        let g := g.writeBody luadbAddr tmp
        { g with parser := { p with imageSkipRemain := p.imageSkipRemain - tmp.length } }
    else if p.headFillCount < 64 then
      if 64 ≤ p.headFillCount + tmp.length then
        let tmphead := patch p.tmphead p.headFillCount (tmp.take (64 - p.headFillCount))
        gzLoop fuel { g with parser := ⟨tmphead, 64, Header.imgLen tmphead⟩ }
          (tmp.drop (64 - p.headFillCount))
      else
        { g with parser := { p with
            tmphead := patch p.tmphead p.headFillCount tmp
            headFillCount := p.headFillCount + tmp.length } }
    else g

/-- `ota_gzcb` on one chunk; it always returns 1. -/
def otaGzcb (g : Script) (chunk : List Byte) : Script := gzLoop luadbAddr (chunk.length + 1) g chunk

end Callback

/-! ## The byte machine -/

/-- What one byte does to the parser. -/
def Parser.step (p : Parser) (b : Byte) : Parser :=
  if 0 < p.imageSkipRemain then
    if p.imageSkipRemain = 1 then { p with imageSkipRemain := 0, headFillCount := 0 }
    else { p with imageSkipRemain := p.imageSkipRemain - 1 }
  else if p.headFillCount < 64 then
    let tmphead := patch p.tmphead p.headFillCount [b]
    if p.headFillCount = 63 then ⟨tmphead, 64, Header.imgLen tmphead⟩
    else { p with tmphead := tmphead, headFillCount := p.headFillCount + 1 }
  else p

/-- The next byte belongs to the body of a script image. -/
def Parser.inScript (p : Parser) : Prop :=
  0 < p.imageSkipRemain ∧ Header.imgType p.tmphead = 2

instance (p : Parser) : Decidable p.inScript := inferInstanceAs (Decidable (_ ∧ _))

/-- How much of the body has been taken. -/
def Parser.pos (p : Parser) : Nat := Header.imgLen p.tmphead - p.imageSkipRemain

/-- What the next byte adds to the script, with its offset from `luadb_addr`. -/
def Parser.emits (p : Parser) (b : Byte) : List (Byte × Nat) :=
  if p.inScript then [(b, p.pos)] else []

/-- The parser after some bytes. -/
def Parser.feed (p : Parser) (bs : List Byte) : Parser := bs.foldl Parser.step p

/-- The script bytes among some bytes. -/
def Parser.script (p : Parser) : List Byte → List (Byte × Nat)
  | [] => []
  | b :: bs => p.emits b ++ (p.step b).script bs

@[simp] theorem feed_nil (p : Parser) : p.feed [] = p := rfl

@[simp] theorem feed_cons (p : Parser) (b : Byte) (bs : List Byte) :
    p.feed (b :: bs) = (p.step b).feed bs := rfl

theorem feed_append (p : Parser) (bs cs : List Byte) :
    p.feed (bs ++ cs) = (p.feed bs).feed cs := List.foldl_append

theorem script_append (p : Parser) (bs cs : List Byte) :
    p.script (bs ++ cs) = p.script bs ++ (p.feed bs).script cs := by
  induction bs generalizing p with
  | nil => rfl
  | cons b bs ih =>
    rw [List.cons_append, Parser.script, ih, Parser.script, feed_cons, List.append_assoc]

/-! ## The three phases, many bytes at a time -/

theorem feed_body : ∀ (bs : List Byte) (p : Parser), bs.length < p.imageSkipRemain →
    p.feed bs = { p with imageSkipRemain := p.imageSkipRemain - bs.length } := by
  intro bs
  induction bs with
  | nil => intro p _; rfl
  | cons b bs ih =>
    intro p h
    rw [List.length_cons] at h
    have hstep : p.step b = { p with imageSkipRemain := p.imageSkipRemain - 1 } := by
      rw [Parser.step, if_pos (by omega), if_neg (by omega)]
    rw [feed_cons, hstep, ih _ (by simp only []; omega), List.length_cons]
    congr 1
    simp only []
    omega

theorem feed_body_end {bs : List Byte} {p : Parser} (h : bs.length = p.imageSkipRemain) (hb : bs ≠ []) :
    p.feed bs = { p with imageSkipRemain := 0, headFillCount := 0 } := by
  obtain ⟨cs, b, rfl⟩ : ∃ cs b, bs = cs ++ [b] := ⟨_, _, (List.dropLast_append_getLast hb).symm⟩
  rw [List.length_append, List.length_singleton] at h
  rw [feed_append, feed_body cs p (by omega), feed_cons, feed_nil, Parser.step]
  simp only []
  rw [if_pos (by omega), if_pos (by omega)]

theorem script_body : ∀ (bs : List Byte) (p : Parser), bs.length ≤ p.imageSkipRemain →
    p.imageSkipRemain ≤ Header.imgLen p.tmphead →
    p.script bs = if Header.imgType p.tmphead = 2 then bs.zipIdx p.pos else [] := by
  intro bs
  induction bs with
  | nil => intro p _ _; simp [Parser.script]
  | cons b bs ih =>
    intro p h hle
    rw [List.length_cons] at h
    rw [Parser.script]
    have hemit : p.emits b = if Header.imgType p.tmphead = 2 then [(b, p.pos)] else [] := by
      unfold Parser.emits Parser.inScript
      have hpos : 0 < p.imageSkipRemain := by omega
      simp [hpos]
    rw [hemit]
    by_cases hend : p.imageSkipRemain = 1
    · -- the last byte of the body
      have hnil : bs = [] := List.length_eq_zero_iff.mp (by omega)
      subst hnil
      split
      · simp [Parser.script]
      · simp [Parser.script]
    · have hstep : p.step b = { p with imageSkipRemain := p.imageSkipRemain - 1 } := by
        rw [Parser.step, if_pos (by omega), if_neg hend]
      rw [hstep, ih _ (by simp only []; omega) (by simp only []; omega)]
      have hpos : ({ p with imageSkipRemain := p.imageSkipRemain - 1 } : Parser).pos = p.pos + 1 := by
        unfold Parser.pos
        simp only []
        omega
      rw [hpos]
      split
      · rw [List.zipIdx_cons, List.singleton_append]
      · rfl

theorem feed_head : ∀ (bs : List Byte) (p : Parser), p.imageSkipRemain = 0 →
    p.tmphead.length = 64 → p.headFillCount + bs.length < 64 →
    p.feed bs = { p with
      tmphead := patch p.tmphead p.headFillCount bs
      headFillCount := p.headFillCount + bs.length } ∧ p.script bs = [] := by
  intro bs
  induction bs with
  | nil =>
    intro p _ _ _
    refine ⟨?_, rfl⟩
    simp [patch]
  | cons b bs ih =>
    intro p hs hl h
    rw [List.length_cons] at h
    have hstep : p.step b = { p with
        tmphead := patch p.tmphead p.headFillCount [b]
        headFillCount := p.headFillCount + 1 } := by
      rw [Parser.step, if_neg (by omega), if_pos (by omega)]
      simp only []
      rw [if_neg (by omega)]
    have hemit : p.emits b = [] := by
      rw [Parser.emits, if_neg (fun hin => by have := hin.1; omega)]
    obtain ⟨hfeed, hscript⟩ := ih (p.step b) (by rw [hstep]; exact hs)
      (by rw [hstep]; simp only []; rw [patch_length (by simp; omega), hl])
      (by rw [hstep]; simp only []; omega)
    refine ⟨?_, ?_⟩
    · have hjoin := patch_append p.tmphead p.headFillCount [b] bs (by simp; omega)
      rw [List.singleton_append] at hjoin
      rw [feed_cons, hfeed, hstep]
      simp only [List.length_cons] at hjoin ⊢
      rw [← hjoin]
      congr 1
      omega
    · rw [Parser.script, hemit, hscript, List.nil_append]

theorem feed_head_end {bs : List Byte} {p : Parser} (hs : p.imageSkipRemain = 0)
    (hl : p.tmphead.length = 64) (h : p.headFillCount + bs.length = 64) (hb : bs ≠ []) :
    p.feed bs = ⟨patch p.tmphead p.headFillCount bs, 64,
      Header.imgLen (patch p.tmphead p.headFillCount bs)⟩ ∧ p.script bs = [] := by
  obtain ⟨cs, b, rfl⟩ : ∃ cs b, bs = cs ++ [b] := ⟨_, _, (List.dropLast_append_getLast hb).symm⟩
  rw [List.length_append, List.length_singleton] at h
  obtain ⟨hfeed, hscript⟩ := feed_head cs p hs hl (by omega)
  have hjoin := patch_append p.tmphead p.headFillCount cs [b] (by simp; omega)
  refine ⟨?_, ?_⟩
  · rw [feed_append, hfeed, feed_cons, feed_nil, Parser.step]
    simp only []
    rw [if_neg (by omega), if_pos (by omega), if_pos (by omega), hjoin]
  · rw [script_append, hscript, hfeed]
    simp only [Parser.script, List.append_nil, List.nil_append, Parser.emits]
    rw [if_neg]
    intro hin
    have := hin.1
    simp only [] at this
    omega

theorem feed_stuck (bs : List Byte) {p : Parser} (hs : p.imageSkipRemain = 0)
    (hh : 64 ≤ p.headFillCount) : p.feed bs = p ∧ p.script bs = [] := by
  have hstep : ∀ b, p.step b = p := by
    intro b
    rw [Parser.step, if_neg (by omega), if_neg (by omega)]
  induction bs with
  | nil => exact ⟨rfl, rfl⟩
  | cons b bs ih =>
    refine ⟨by rw [feed_cons, hstep]; exact ih.1, ?_⟩
    rw [Parser.script, hstep, ih.2, Parser.emits, if_neg (fun hin => by have := hin.1; omega)]
    rfl

/-! ## What reaches the flash -/

/-- The bytes a log of driver calls has put on the chip, with their offsets. A refused write has
sent no command. -/
def landed : List Ev → List (Byte × Nat)
  | [] => []
  | .write addr buf ops :: es =>
    (if ops = [] then [] else buf.zipIdx (addr % 0x8000000)) ++ landed es
  | .erase _ _ :: es => landed es

theorem landed_append (es fs : List Ev) : landed (es ++ fs) = landed es ++ landed fs := by
  induction es with
  | nil => rfl
  | cons e es ih =>
    cases e with
    | write addr buf ops => rw [List.cons_append, landed, landed, ih, List.append_assoc]
    | erase sector ops => rw [List.cons_append, landed, landed, ih]

/-- All the script bytes `ws` have a cell below the density. -/
def OnChip (luadbAddr density : Nat) (ws : List (Byte × Nat)) : Prop :=
  ∀ w ∈ ws, luadbAddr + w.2 < density

/-- The parser's own invariant. -/
structure Parser.Wf (p : Parser) : Prop where
  head : p.tmphead.length = 64
  skip_le : p.imageSkipRemain ≤ Header.imgLen p.tmphead

theorem Parser.Wf.step {p : Parser} (h : p.Wf) (b : Byte) : (p.step b).Wf := by
  unfold Parser.step
  split
  · split
    · exact ⟨h.head, Nat.zero_le _⟩
    · exact ⟨h.head, Nat.le_trans (Nat.sub_le _ _) h.skip_le⟩
  · split
    · rename_i hfill
      have hpatch : (patch p.tmphead p.headFillCount [b]).length = 64 := by
        rw [patch_length (by rw [h.head]; exact hfill), h.head]
      simp only []
      split
      · exact ⟨hpatch, Nat.le_refl _⟩
      · rename_i hskip _
        exact ⟨hpatch, by simp only []; omega⟩
    · exact h

theorem Parser.Wf.feed {p : Parser} (h : p.Wf) (bs : List Byte) : (p.feed bs).Wf := by
  induction bs generalizing p with
  | nil => exact h
  | cons b bs ih => exact ih (h.step b)

/-! ## One pass of the loop -/

section Tracks

variable {luadbAddr density : Nat}

@[simp] theorem gzLoop_nil (fuel : Nat) (g : Script) : gzLoop luadbAddr fuel g [] = g := by
  cases fuel with
  | zero => rfl
  | succ fuel => simp [gzLoop]

/-- The flash after a part `u` of the stream that is all in one phase. -/
def Script.pass (luadbAddr : Nat) (g : Script) (u : List Byte) : Dev :=
  if g.parser.inScript then
    (tlsFlsWrite g.dev ((luadbAddr + g.parser.pos) % 2 ^ 32) u).2
  else g.dev

theorem writeBody_dev {g : Script} {u : List Byte} (hs : 0 < g.parser.imageSkipRemain) :
    (g.writeBody luadbAddr u).dev = g.pass luadbAddr u := by
  unfold Script.writeBody Script.pass Parser.inScript
  by_cases ht : Header.imgType g.parser.tmphead = 2
  · simp [ht, hs, Parser.pos]
  · simp [ht]

theorem script_one_phase {p : Parser} (hs : 0 < p.imageSkipRemain) {u : List Byte}
    (hle : u.length ≤ p.imageSkipRemain) (hwf : p.Wf) :
    p.script u = if p.inScript then u.zipIdx p.pos else [] := by
  rw [script_body u p hle hwf.skip_le]
  by_cases ht : Header.imgType p.tmphead = 2
  · rw [if_pos ht, if_pos ⟨hs, ht⟩]
  · rw [if_neg ht, if_neg (fun h => ht h.2)]

/-- A pass takes a body or a header to its end, or all the rest of the chunk; what it takes is
script from its first byte to its last or not at all. The parser alone decides how much that is. -/
theorem gzLoop_pass (luadbAddr : Nat) {p : Parser} (hwf : p.Wf) {tmp : List Byte} (hne : tmp ≠ []) (fuel : Nat) :
    ∃ u v, tmp = u ++ v ∧ u ≠ [] ∧
      (∀ d, gzLoop luadbAddr (fuel + 1) ⟨d, p⟩ tmp =
        gzLoop luadbAddr fuel ⟨Script.pass luadbAddr ⟨d, p⟩ u, p.feed u⟩ v) ∧
      p.script u = if p.inScript then u.zipIdx p.pos else [] := by
  have hpos : 0 < tmp.length := List.length_pos_iff.mpr hne
  have hhead := hwf.head
  by_cases hbody : 0 < p.imageSkipRemain
  · by_cases hlen : p.imageSkipRemain ≤ tmp.length
    · -- the chunk holds the rest of the body
      have htake : (tmp.take p.imageSkipRemain).length = p.imageSkipRemain := by
        rw [List.length_take]
        omega
      have htne : tmp.take p.imageSkipRemain ≠ [] := by
        intro h0
        rw [h0, List.length_nil] at htake
        omega
      refine ⟨tmp.take p.imageSkipRemain, tmp.drop p.imageSkipRemain,
        (List.take_append_drop _ tmp).symm, htne, fun d => ?_,
        script_one_phase hbody (Nat.le_of_eq htake) hwf⟩
      simp only [gzLoop]
      rw [if_neg hne, if_pos hbody, if_pos hlen, feed_body_end htake htne, ← writeBody_dev hbody]
    · -- the body goes on behind the chunk
      have hlt : tmp.length < p.imageSkipRemain := by omega
      refine ⟨tmp, [], (List.append_nil tmp).symm, hne, fun d => ?_,
        script_one_phase hbody (Nat.le_of_lt hlt) hwf⟩
      rw [gzLoop_nil, feed_body tmp p hlt, ← writeBody_dev hbody]
      simp only [gzLoop]
      rw [if_neg hne, if_pos hbody, if_neg hlen]
  · have hzero : p.imageSkipRemain = 0 := by omega
    have hnot : ¬ p.inScript := fun h => hbody h.1
    have hpass : ∀ d u, Script.pass luadbAddr ⟨d, p⟩ u = d := fun d u => if_neg hnot
    simp only [if_neg hnot, hpass]
    by_cases hfill : p.headFillCount < 64
    · by_cases hlen : 64 ≤ p.headFillCount + tmp.length
      · -- the chunk holds the rest of the header
        have htake : (tmp.take (64 - p.headFillCount)).length = 64 - p.headFillCount := by
          rw [List.length_take]
          omega
        have htne : tmp.take (64 - p.headFillCount) ≠ [] := by
          intro h0
          rw [h0, List.length_nil] at htake
          omega
        obtain ⟨hfeed, hscript⟩ := feed_head_end hzero hhead (by omega) htne
        refine ⟨tmp.take (64 - p.headFillCount), tmp.drop (64 - p.headFillCount),
          (List.take_append_drop _ tmp).symm, htne, fun d => ?_, hscript⟩
        simp only [gzLoop]
        rw [if_neg hne, if_neg hbody, if_pos hfill, if_pos hlen, hfeed]
      · -- the header goes on behind the chunk
        obtain ⟨hfeed, hscript⟩ := feed_head tmp p hzero hhead (by omega)
        refine ⟨tmp, [], (List.append_nil tmp).symm, hne, fun d => ?_, hscript⟩
        rw [gzLoop_nil, hfeed]
        simp only [gzLoop]
        rw [if_neg hne, if_neg hbody, if_pos hfill, if_neg hlen]
    · -- the rest is dropped
      obtain ⟨hfeed, hscript⟩ := feed_stuck tmp hzero (by omega)
      refine ⟨tmp, [], (List.append_nil tmp).symm, hne, fun d => ?_, hscript⟩
      rw [gzLoop_nil, hfeed]
      simp only [gzLoop]
      rw [if_neg hne, if_neg hbody, if_neg hfill]

/-- A relation between a flash and a later one that the passes of a chunk build up, with the script
bytes written between them. The induction is on the fuel, which is the length left. -/
theorem gzLoop_inv {P : Parser → List (Byte × Nat) → Dev → Dev → Prop}
    (hnil : ∀ p d, P p [] d d)
    (hpass : ∀ (g : Script) u v d', g.parser.Wf → u ≠ [] →
      g.parser.script u = (if g.parser.inScript then u.zipIdx g.parser.pos else []) →
      P (g.parser.feed u) ((g.parser.feed u).script v) (g.pass luadbAddr u) d' →
      P g.parser (g.parser.script u ++ (g.parser.feed u).script v) g.dev d') :
    ∀ (fuel : Nat) (g : Script) (tmp : List Byte), g.parser.Wf → tmp.length < fuel →
      (gzLoop luadbAddr fuel g tmp).parser = g.parser.feed tmp ∧
        P g.parser (g.parser.script tmp) g.dev (gzLoop luadbAddr fuel g tmp).dev := by
  intro fuel
  induction fuel with
  | zero => intro g tmp _ hf; omega
  | succ fuel ih =>
    intro g tmp hwf hf
    by_cases hne : tmp = []
    · subst hne
      rw [gzLoop_nil]
      exact ⟨rfl, hnil _ _⟩
    · obtain ⟨u, v, rfl, hu, hloop, hscript⟩ := gzLoop_pass luadbAddr hwf hne fuel
      have hlen : 0 < u.length := List.length_pos_iff.mpr hu
      rw [List.length_append] at hf
      obtain ⟨ihp, ihd⟩ := ih ⟨g.pass luadbAddr u, g.parser.feed u⟩ v (hwf.feed u) (by omega)
      rw [hloop g.dev, feed_append, script_append]
      exact ⟨ihp, hpass g u v _ hwf hu hscript ihd⟩

/-! ## What a chunk writes -/

/-- The flash of `d'` is that of `d` with the script bytes `ws` written. -/
structure Wrote (luadbAddr : Nat) (ws : List (Byte × Nat)) (d d' : Dev) : Prop where
  mem_eq : d'.mem = scatter d.mem luadbAddr ws
  landed_eq : landed d'.log = landed d.log ++ ws.map fun w => (w.1, luadbAddr + w.2)

theorem Wrote.refl (d : Dev) : Wrote luadbAddr [] d d := ⟨rfl, by simp⟩

theorem Wrote.trans {ws vs : List (Byte × Nat)} {d d' d'' : Dev} (h : Wrote luadbAddr ws d d')
    (h' : Wrote luadbAddr vs d' d'') : Wrote luadbAddr (ws ++ vs) d d'' := by
  refine ⟨by rw [h'.mem_eq, h.mem_eq, scatter_append], ?_⟩
  rw [h'.landed_eq, h.landed_eq, List.map_append, List.append_assoc]

theorem map_zipIdx_add (bs : List Byte) (a k : Nat) :
    (bs.zipIdx k).map (fun w => (w.1, a + w.2)) = bs.zipIdx (a + k) := by
  induction bs generalizing k with
  | nil => rfl
  | cons b bs ih => rw [List.zipIdx_cons, List.map_cons, ih, List.zipIdx_cons, Nat.add_assoc]

theorem onChip_zipIdx {bs : List Byte} {k : Nat} (hb : bs ≠ [])
    (h : OnChip luadbAddr density (bs.zipIdx k)) : luadbAddr + k + bs.length ≤ density := by
  have hpos : 0 < bs.length := List.length_pos_iff.mpr hb
  have hlast := h (bs[bs.length - 1], k + (bs.length - 1)) (by
    rw [List.mk_add_mem_zipIdx_iff_getElem?]
    exact List.getElem?_eq_getElem _)
  simp only [] at hlast
  omega

theorem tlsFlsWrite_wrote {d : Dev} {k : Nat} {bs : List Byte} (hb : bs ≠ [])
    (hd : d.insideFls = some density) (hdens : density ≤ 2 ^ 24)
    (hon : OnChip luadbAddr density (bs.zipIdx k)) :
    Wrote luadbAddr (bs.zipIdx k) d (tlsFlsWrite d ((luadbAddr + k) % 2 ^ 32) bs).2 := by
  have hend := onChip_zipIdx hb hon
  have hpos : 0 < bs.length := List.length_pos_iff.mpr hb
  have hchip : (luadbAddr + k) % 0x8000000 = luadbAddr + k := Nat.mod_eq_of_lt (by omega)
  rw [Nat.mod_eq_of_lt (by omega)]
  refine ⟨?_, ?_⟩
  · rw [scatter_zipIdx, (tlsFlsWrite_ok hd (by omega) hb (by omega)).2, hchip]
  · unfold tlsFlsWrite
    rw [rangeCheck_ok hd (by omega) hpos]
    simp only [Dev.issue_log, landed_append, landed, writeSectors_ne_nil hpos, if_false,
      List.append_nil, hchip, map_zipIdx_add]

theorem pass_reaches (g : Script) (u : List Byte) : g.dev.Reaches (g.pass luadbAddr u) := by
  unfold Script.pass
  split
  · exact tlsFlsWrite_reaches _ _ _
  · exact .refl _

theorem pass_insideFls (g : Script) (u : List Byte) :
    (g.pass luadbAddr u).insideFls = g.dev.insideFls := by
  unfold Script.pass
  split
  · exact tlsFlsWrite_insideFls _ _ _
  · rfl

/-- A chunk does to the parser what its bytes do one by one, and writes the script bytes among
them. -/
theorem otaGzcb_tracks (luadbAddr density : Nat) {g : Script} (hwf : g.parser.Wf) (chunk : List Byte) :
    (otaGzcb luadbAddr g chunk).parser = g.parser.feed chunk ∧
      (otaGzcb luadbAddr g chunk).dev.insideFls = g.dev.insideFls ∧
      (g.dev.insideFls = some density → density ≤ 2 ^ 24 →
        OnChip luadbAddr density (g.parser.script chunk) →
        Wrote luadbAddr (g.parser.script chunk) g.dev (otaGzcb luadbAddr g chunk).dev) := by
  apply gzLoop_inv (P := fun _ ws d d' => d'.insideFls = d.insideFls ∧
    (d.insideFls = some density → density ≤ 2 ^ 24 → OnChip luadbAddr density ws →
      Wrote luadbAddr ws d d')) _ _ _ g chunk hwf (Nat.lt_succ_self _)
  · intro _ d
    exact ⟨rfl, fun _ _ _ => Wrote.refl d⟩
  · rintro g u v d' _ hu hscript ⟨ihd, ihw⟩
    refine ⟨ihd.trans (pass_insideFls g u), ?_⟩
    intro hd hdens hon
    have hrest := ihw ((pass_insideFls g u).trans hd) hdens
      fun w h => hon w (List.mem_append_right _ h)
    have hon1 : OnChip luadbAddr density (g.parser.script u) :=
      fun w h => hon w (List.mem_append_left _ h)
    rw [hscript] at hon1 ⊢
    unfold Script.pass at hrest
    split
    · rename_i hin
      rw [if_pos hin] at hon1 hrest
      exact (tlsFlsWrite_wrote hu hd hdens hon1).trans hrest
    · rename_i hin
      rw [if_neg hin] at hrest
      exact (Wrote.refl g.dev).trans hrest

theorem otaGzcb_reaches (luadbAddr : Nat) {g : Script} (hwf : g.parser.Wf) (chunk : List Byte) :
    g.dev.Reaches (otaGzcb luadbAddr g chunk).dev :=
  (gzLoop_inv (P := fun _ _ d d' => d.Reaches d') (fun _ d => .refl d)
    (fun g u _ _ _ _ _ h => (pass_reaches g u).trans h) _ g chunk hwf (Nat.lt_succ_self _)).2

/-- Any number of chunks. -/
theorem chunks_track (luadbAddr density : Nat) (chunks : List (List Byte)) {g : Script} (hwf : g.parser.Wf) :
    (runs (otaGzcb luadbAddr) g chunks).parser = g.parser.feed chunks.flatten ∧
      (runs (otaGzcb luadbAddr) g chunks).dev.insideFls = g.dev.insideFls ∧
      (g.dev.insideFls = some density → density ≤ 2 ^ 24 →
        OnChip luadbAddr density (g.parser.script chunks.flatten) →
        Wrote luadbAddr (g.parser.script chunks.flatten) g.dev
          (runs (otaGzcb luadbAddr) g chunks).dev) := by
  induction chunks generalizing g with
  | nil => exact ⟨rfl, rfl, fun _ _ _ => Wrote.refl g.dev⟩
  | cons c cs ih =>
    obtain ⟨hp, hd, hw⟩ := otaGzcb_tracks luadbAddr density hwf c
    have hwf' : (otaGzcb luadbAddr g c).parser.Wf := by
      rw [hp]
      exact hwf.feed c
    obtain ⟨ihp, ihd, ihw⟩ := ih hwf'
    rw [hp] at ihp ihw
    rw [runs_cons, List.flatten_cons, feed_append, script_append]
    refine ⟨ihp, ihd.trans hd, fun hin hdens hon => ?_⟩
    exact (hw hin hdens fun w h => hon w (List.mem_append_left _ h)).trans
      (ihw (hd.trans hin) hdens fun w h => hon w (List.mem_append_right _ h))

end Tracks

end Fota
end Air101
