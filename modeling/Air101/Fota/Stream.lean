import Air101.Fota.Download
import Air101.Fota.Script
import Mathlib.Data.List.Induction

/-!
# Fota.Stream

Whole streams through `ota_gzcb`. `tls_fls_write` tests only the first address of a piece, so a
piece that starts on the chip and ends behind it is written, while the same bytes in a piece of
their own are refused. Otherwise the cutting of the stream makes no difference
(`script_chunking_iff`).

An image list is parsed image by image until one has an empty body: the parser then waits for a
body that never comes and drops the rest (`script_images`, `script_images_iff`).
-/

namespace Air101
namespace Fota

open Storage
open Fls

/-- A board: its OTA zone and the chip offset of its script partition (`luadb_addr`), which starts
on a sector between the zone and the system parameters. -/
structure Board extends Zone where
  luadbAddr : Nat
  script_aligned : luadbAddr % 4096 = 0
  script_ge : base + size ≤ luadbAddr
  script_le : luadbAddr + 0x6000 ≤ density

/-- The AIR101 board, with its script partition at `0x1E0000`. -/
def air101Board : Board :=
  { air101 with
    luadbAddr := 0x1E0000
    script_aligned := by decide
    script_ge := by decide
    script_le := by decide }

/-- The parser between two images, with anything left in `tmphead`. -/
structure Parser.Ready (p : Parser) : Prop where
  head : p.tmphead.length = 64
  fill : p.headFillCount = 0
  skip : p.imageSkipRemain = 0

theorem Parser.Ready.wf {p : Parser} (h : p.Ready) : p.Wf :=
  ⟨h.head, by rw [h.skip]; exact Nat.zero_le _⟩

/-- The parser as `check_ota_zone` resets it. -/
def Parser.reset : Parser := ⟨List.replicate 64 0#8, 0, 0⟩

theorem reset_ready : Parser.reset.Ready := ⟨by simp [Parser.reset], rfl, rfl⟩

/-! ## One byte at a time -/

section Single

variable {luadbAddr density : Nat} {g : Script}

theorem otaGzcb_body {chunk : List Byte} (hb : chunk ≠ [])
    (hlen : chunk.length ≤ g.parser.imageSkipRemain) :
    (otaGzcb luadbAddr g chunk).dev = g.pass luadbAddr chunk := by
  have hpos : 0 < chunk.length := List.length_pos_iff.mpr hb
  have hbody : 0 < g.parser.imageSkipRemain := by omega
  unfold otaGzcb
  simp only [gzLoop]
  rw [if_neg hb, if_pos hbody]
  split
  · have heq : g.parser.imageSkipRemain = chunk.length := by omega
    rw [heq, List.take_length, List.drop_length, gzLoop_nil]
    exact writeBody_dev hbody
  · exact writeBody_dev hbody

theorem otaGzcb_byte (hwf : g.parser.Wf) (b : Byte) :
    (otaGzcb luadbAddr g [b]).dev = g.pass luadbAddr [b] := by
  obtain ⟨u, v, huv, hu, hloop, _⟩ :=
    gzLoop_pass luadbAddr hwf (show [b] ≠ [] by simp) 1
  rcases List.append_eq_singleton_iff.mp huv.symm with ⟨h0, _⟩ | ⟨rfl, rfl⟩
  · exact absurd h0 hu
  · rw [otaGzcb, List.length_singleton, hloop, gzLoop_nil]

/-- Whether a single script byte is accepted by the driver. -/
def accepted (luadbAddr density : Nat) (w : Byte × Nat) : Bool :=
  decide ((luadbAddr + w.2) % 2 ^ 32 % 0x8000000 < density)

theorem otaGzcb_single (luadbAddr : Nat) (hwf : g.parser.Wf) (hd : g.dev.insideFls = some density)
    (hdens : density ≤ 2 ^ 24) (b : Byte) :
    (∀ x, density ≤ x → (otaGzcb luadbAddr g [b]).dev.mem x = g.dev.mem x) ∧
      (landed (otaGzcb luadbAddr g [b]).dev.log).length =
        (landed g.dev.log).length +
          ((g.parser.emits b).filter (accepted luadbAddr density)).length := by
  rw [otaGzcb_byte hwf, Script.pass, Parser.emits]
  split
  · simp only [List.filter_singleton, accepted]
    generalize (luadbAddr + g.parser.pos) % 2 ^ 32 = addr
    by_cases hacc : addr % 0x8000000 < density
    · refine ⟨?_, ?_⟩
      · intro x hx
        rw [(tlsFlsWrite_ok hd hacc (by simp) (by simp; omega)).2]
        exact overlay_out (by simp; omega)
      · unfold tlsFlsWrite
        rw [rangeCheck_ok hd hacc (by simp)]
        have hops : writeSectors [b].length g.dev.mem (addr % 0x8000000 / 4096)
            (addr % 0x8000000 % 4096) [b] ≠ [] := writeSectors_ne_nil (by simp)
        simp only [Dev.issue_log, landed_append, landed, hops, if_false, List.length_append,
          List.append_nil, List.length_zipIdx]
        simp [hacc]
    · rw [tlsFlsWrite_einval hd (by omega)]
      refine ⟨fun _ _ => rfl, ?_⟩
      simp [landed_append, landed, hacc]
  · exact ⟨fun _ _ => rfl, by simp⟩

end Single

/-- A stream cut into single bytes. -/
def singles (bs : List Byte) : List (List Byte) := bs.map fun b => [b]

@[simp] theorem singles_flatten (bs : List Byte) : (singles bs).flatten = bs := by
  induction bs with
  | nil => rfl
  | cons b bs ih => simpa [singles] using ih

theorem singles_run (luadbAddr : Nat) {density : Nat} (hdens : density ≤ 2 ^ 24) (bs : List Byte) :
    ∀ (g : Script), g.parser.Wf → g.dev.insideFls = some density →
      (∀ x, density ≤ x →
        (runs (otaGzcb luadbAddr) g (singles bs)).dev.mem x = g.dev.mem x) ∧
      (landed (runs (otaGzcb luadbAddr) g (singles bs)).dev.log).length =
        (landed g.dev.log).length +
          ((g.parser.script bs).filter (accepted luadbAddr density)).length := by
  induction bs with
  | nil => intro g _ _; exact ⟨fun _ _ => rfl, by simp [singles, Parser.script]⟩
  | cons b bs ih =>
    intro g hwf hd
    obtain ⟨hmem, hlen⟩ := otaGzcb_single luadbAddr hwf hd hdens b
    obtain ⟨hp, hin, _⟩ := otaGzcb_tracks luadbAddr density hwf [b]
    have hp' : (otaGzcb luadbAddr g [b]).parser = g.parser.step b := hp
    obtain ⟨ihm, ihl⟩ := ih (otaGzcb luadbAddr g [b]) (by rw [hp']; exact hwf.step b) (hin.trans hd)
    refine ⟨fun x hx => (ihm x hx).trans (hmem x hx), ?_⟩
    rw [hp'] at ihl
    rw [Parser.script, List.filter_append, List.length_append]
    simp only [singles, List.map_cons, runs_cons] at ihl ⊢
    omega

/-! ## Cutting a stream -/

theorem step_prev {p : Parser} {b : Byte} (hs : 0 < (p.step b).imageSkipRemain)
    (hlt : (p.step b).imageSkipRemain < Header.imgLen (p.step b).tmphead) :
    p.imageSkipRemain = (p.step b).imageSkipRemain + 1 ∧ p.tmphead = (p.step b).tmphead := by
  unfold Parser.step at hs hlt ⊢
  split
  · rename_i hpos
    rw [if_pos hpos] at hs hlt
    split
    · rename_i hone
      rw [if_pos hone] at hs
      simp at hs
    · simp only [and_true]
      omega
  · rename_i hpos
    rw [if_neg hpos] at hs hlt
    split
    · rename_i hfill
      rw [if_pos hfill] at hs hlt
      simp only [] at hs hlt ⊢
      split
      · rename_i hlast
        rw [if_pos hlast] at hlt
        simp at hlt
      · rename_i hlast
        rw [if_neg hlast] at hs
        simp only [] at hs
        omega
    · rename_i hfill
      rw [if_neg hfill] at hs
      omega

/-- A script that reaches offset `k + 1` has passed offset `k`. The induction is on the stream from
its end: a body is entered at offset 0, so an offset is reached from the one before. -/
theorem script_passes {p : Parser} (hr : p.Ready) (k : Nat) : ∀ (u : List Byte),
    (p.feed u).inScript → k + 1 ≤ (p.feed u).pos →
    ∃ v a w, u = v ++ a :: w ∧ (p.feed v).inScript ∧ (p.feed v).pos = k ∧
      2 ≤ (p.feed v).imageSkipRemain := by
  intro u
  induction u using List.reverseRecOn with
  | nil =>
    intro hin _
    have := hin.1
    rw [feed_nil, hr.skip] at this
    omega
  | append_singleton u a ih =>
    intro hin hpos
    have hwf : (p.feed u).Wf := hr.wf.feed u
    rw [feed_append, feed_cons, feed_nil] at hin hpos
    have hle := (hwf.step a).skip_le
    have hin1 := hin.1
    unfold Parser.pos at hpos
    obtain ⟨hskip, hhead⟩ := step_prev hin.1 (by omega)
    have hin' : (p.feed u).inScript := ⟨by omega, by rw [hhead]; exact hin.2⟩
    have hpos' : (p.feed u).pos + 1 = ((p.feed u).step a).pos := by
      unfold Parser.pos
      rw [hhead, hskip]
      omega
    by_cases hk : (p.feed u).pos = k
    · exact ⟨u, a, [], rfl, hin', hk, by omega⟩
    · unfold Parser.pos at hpos' hk
      obtain ⟨v, a', w, hu, h⟩ := ih hin' (by unfold Parser.pos; omega)
      exact ⟨v, a', w ++ [a], by rw [hu]; simp, h⟩

theorem mem_script {p : Parser} {w : Byte × Nat} : ∀ {s : List Byte}, w ∈ p.script s →
    ∃ u v, s = u ++ w.1 :: v ∧ (p.feed u).inScript ∧ (p.feed u).pos = w.2 := by
  intro s
  induction s generalizing p with
  | nil => intro h; simp [Parser.script] at h
  | cons b s ih =>
    intro h
    rw [Parser.script] at h
    rcases List.mem_append.mp h with h | h
    · unfold Parser.emits at h
      split at h
      · rename_i hin
        have hw := List.mem_singleton.mp h
        exact ⟨[], s, by rw [hw]; rfl, hin, by rw [hw]; rfl⟩
      · simp at h
    · obtain ⟨u, v, hs, hin, hpos⟩ := ih h
      exact ⟨b :: u, v, by rw [hs]; rfl, hin, hpos⟩

/-- The chunks `ota_gzcb` can be given: non-empty, with a length that fits in an `int`. -/
def Cut (s : List Byte) (chunks : List (List Byte)) : Prop :=
  chunks.flatten = s ∧ ∀ c ∈ chunks, c ≠ [] ∧ c.length < 2 ^ 31

theorem singles_cut (s : List Byte) : Cut s (singles s) := by
  refine ⟨singles_flatten s, ?_⟩
  intro c hc
  obtain ⟨b, _, rfl⟩ := List.mem_map.mp hc
  simp

/-- If the script leaves the chip, two ways of cutting the stream differ in the first cell behind
it: byte by byte it is never written, in a piece across the end it is. -/
theorem cut_differs (bd : Board) {p : Parser} (hr : p.Ready) {s : List Byte}
    (hoff : ¬ OnChip bd.luadbAddr bd.density (p.script s)) :
    ∃ (m : Nat → Byte) (cs : List (List Byte)), Cut s cs ∧
      (runs (otaGzcb bd.luadbAddr) ⟨⟨some bd.density, m, []⟩, p⟩ cs).dev.mem bd.density ≠
        (runs (otaGzcb bd.luadbAddr) ⟨⟨some bd.density, m, []⟩, p⟩ (singles s)).dev.mem
          bd.density := by
  have hdens := bd.density_le
  have hle := bd.script_le
  -- the byte past the chip, and the one in front of the end
  unfold OnChip at hoff
  push Not at hoff
  obtain ⟨w, hw, hfar⟩ := hoff
  obtain ⟨u, v, hs, hin, hpos⟩ := mem_script hw
  obtain ⟨k, hk⟩ : ∃ k, bd.luadbAddr + k + 1 = bd.density := ⟨bd.density - bd.luadbAddr - 1, by omega⟩
  obtain ⟨v', a, w', hu, hin', hpos', hskip⟩ := script_passes hr k u hin (by omega)
  obtain ⟨b, v'', hrest⟩ : ∃ b v'', w' ++ w.1 :: v = b :: v'' := by
    cases w' with
    | nil => exact ⟨w.1, v, rfl⟩
    | cons b w' => exact ⟨b, w' ++ w.1 :: v, rfl⟩
  have hsplit : s = v' ++ a :: b :: v'' := by
    rw [hs, hu, List.append_assoc, List.cons_append, hrest]
  refine ⟨fun _ => ~~~b, singles v' ++ [a, b] :: singles v'', ⟨?_, ?_⟩, ?_⟩
  · rw [List.flatten_append, List.flatten_cons, singles_flatten, singles_flatten, hsplit]
    rfl
  · intro c hc
    rcases List.mem_append.mp hc with hc | hc
    · exact (singles_cut v').2 c hc
    · rcases List.mem_cons.mp hc with rfl | hc
      · simp
      · exact (singles_cut v'').2 c hc
  · generalize hg : (⟨⟨some bd.density, fun _ => ~~~b, []⟩, p⟩ : Script) = g
    have hwf : g.parser.Wf := by rw [← hg]; exact hr.wf
    have hd : g.dev.insideFls = some bd.density := by rw [← hg]
    -- byte by byte the cell keeps its value
    have hall := (singles_run bd.luadbAddr hdens s g hwf hd).1 _ (Nat.le_refl _)
    -- in the piece `[a, b]` it is written
    have hv := (singles_run bd.luadbAddr hdens v' g hwf hd).1
    obtain ⟨hp1, hd1, -⟩ := chunks_track bd.luadbAddr bd.density (singles v') hwf
    rw [runs_append, runs_cons]
    generalize runs (otaGzcb bd.luadbAddr) g (singles v') = g1 at hv hp1 hd1 ⊢
    rw [singles_flatten, ← hg] at hp1
    have hd1' : g1.dev.insideFls = some bd.density := hd1.trans hd
    have hwf1 : g1.parser.Wf := by rw [hp1]; exact hr.wf.feed v'
    have hbody : (otaGzcb bd.luadbAddr g1 [a, b]).dev.mem =
        overlay g1.dev.mem (bd.luadbAddr + k) [a, b] := by
      rw [otaGzcb_body (by simp) (by rw [hp1]; simpa using hskip), Script.pass, hp1, if_pos hin',
        hpos', Nat.mod_eq_of_lt (by omega)]
      have hchip : (bd.luadbAddr + k) % 0x8000000 = bd.luadbAddr + k := Nat.mod_eq_of_lt (by omega)
      rw [(tlsFlsWrite_ok hd1' (by omega) (by simp) (by simp; omega)).2, hchip]
    obtain ⟨hp2, hd2, -⟩ := otaGzcb_tracks bd.luadbAddr bd.density hwf1 [a, b]
    have hlast := (singles_run bd.luadbAddr hdens v''
      (otaGzcb bd.luadbAddr g1 [a, b]) (by rw [hp2]; exact hwf1.feed _) (hd2.trans hd1')).1 _
      (Nat.le_refl _)
    rw [hlast, hall, hbody, ← hk, overlay_at (show 1 < [a, b].length by simp), ← hg]
    simp only [List.getElem_cons_succ, List.getElem_cons_zero]
    intro heq
    have hbit := congrArg (BitVec.getLsbD · 0) heq
    simp at hbit

/-- For every stream, well formed or not, and every parser at an image boundary: all ways of cutting
the stream give the same parser state and the same flash, whatever the flash held before, exactly
when every byte of a script has its place on the chip. -/
theorem script_chunking_iff (bd : Board) {p : Parser} (hr : p.Ready) (s : List Byte) :
    (∀ d : Dev, d.insideFls = some bd.density → ∀ cs ds, Cut s cs → Cut s ds →
      (runs (otaGzcb bd.luadbAddr) ⟨d, p⟩ cs).parser =
          (runs (otaGzcb bd.luadbAddr) ⟨d, p⟩ ds).parser ∧
        (runs (otaGzcb bd.luadbAddr) ⟨d, p⟩ cs).dev.mem =
          (runs (otaGzcb bd.luadbAddr) ⟨d, p⟩ ds).dev.mem) ↔
      OnChip bd.luadbAddr bd.density (p.script s) := by
  constructor
  · intro hsame
    by_contra hoff
    obtain ⟨m, cs, hcut, hne⟩ := cut_differs bd hr hoff
    exact hne (congrFun (hsame _ rfl cs (singles s) hcut (singles_cut s)).2 bd.density)
  · intro hon d hd cs ds hcs hds
    have one : ∀ chunks, Cut s chunks →
        (runs (otaGzcb bd.luadbAddr) ⟨d, p⟩ chunks).parser = p.feed s ∧
          (runs (otaGzcb bd.luadbAddr) ⟨d, p⟩ chunks).dev.mem =
            scatter d.mem bd.luadbAddr (p.script s) := by
      intro chunks hcut
      obtain ⟨hp, -, hw⟩ := chunks_track bd.luadbAddr bd.density chunks (g := ⟨d, p⟩) hr.wf
      rw [hcut.1] at hp hw
      exact ⟨hp, (hw hd bd.density_le hon).mem_eq⟩
    obtain ⟨hp1, hm1⟩ := one cs hcs
    obtain ⟨hp2, hm2⟩ := one ds hds
    exact ⟨hp1.trans hp2.symm, hm1.trans hm2.symm⟩

/-! ## Image lists -/

/-- An image of the stream: a header and the body it announces. -/
structure Image where
  head : List Byte
  body : List Byte
  head_len : head.length = 64
  body_len : Header.imgLen head = body.length

def Image.bytes (i : Image) : List Byte := i.head ++ i.body

/-- A header with a type and a length, and zeros in the fields `ota_gzcb` does not read. -/
def header (type len : Nat) : List Byte :=
  leBytes 4 magicNo ++ leBytes 4 type ++ leBytes 4 0 ++ leBytes 4 len ++ List.replicate 48 0#8

theorem header_imgLen {type len : Nat} (h : len < 2 ^ 32) : Header.imgLen (header type len) = len := by
  have hfield : ((header type len).drop 12).take 4 = leBytes 4 len := rfl
  rw [Header.imgLen, field, hfield, leNat_leBytes h]

theorem header_imgType {type len : Nat} (h : type < 16) : Header.imgType (header type len) = type := by
  have hfield : ((header type len).drop 4).take 4 = leBytes 4 type := rfl
  rw [Header.imgType, field, hfield, leNat_leBytes (by omega), Nat.mod_eq_of_lt h]

/-- An image of some type around a body. -/
def imageOf (type : Nat) (body : List Byte) (h : body.length < 2 ^ 32) : Image :=
  { head := header type body.length
    body := body
    head_len := by simp [header]
    body_len := header_imgLen h }

/-- The stream of an image list. -/
def stream (imgs : List Image) : List Byte := (imgs.map Image.bytes).flatten

/-- The script bytes of an image: its body if it has type 2. -/
def Image.script (i : Image) : List (Byte × Nat) :=
  if Header.imgType i.head = 2 then i.body.zipIdx else []

/-- The images in front of the first one with an empty body. -/
def live (imgs : List Image) : List Image := imgs.takeWhile fun i => !i.body.isEmpty

/-- The first image with an empty body and those behind it. -/
def dead (imgs : List Image) : List Image := imgs.dropWhile fun i => !i.body.isEmpty

theorem feed_header {p : Parser} (hr : p.Ready) {head : List Byte} (hlen : head.length = 64) :
    p.feed head = ⟨head, 64, Header.imgLen head⟩ ∧ p.script head = [] := by
  have hne : head ≠ [] := by
    rintro rfl
    simp at hlen
  obtain ⟨hfeed, hscript⟩ := feed_head_end hr.skip hr.head (by rw [hr.fill, hlen]) hne
  have hpatch : patch p.tmphead p.headFillCount head = head := by
    have hhead := hr.head
    rw [patch, hr.fill, List.take_zero, List.nil_append, List.drop_of_length_le (by omega),
      List.append_nil]
  rw [hpatch] at hfeed
  exact ⟨hfeed, hscript⟩

theorem feed_image_head {p : Parser} (hr : p.Ready) (i : Image) :
    p.feed i.head = ⟨i.head, 64, i.body.length⟩ ∧ p.script i.head = [] := by
  obtain ⟨hfeed, hscript⟩ := feed_header hr i.head_len
  rw [i.body_len] at hfeed
  exact ⟨hfeed, hscript⟩

theorem feed_image {p : Parser} (hr : p.Ready) {i : Image} (hb : i.body ≠ []) :
    (p.feed i.bytes).Ready ∧ p.script i.bytes = i.script := by
  obtain ⟨hfeed, hscript⟩ := feed_image_head hr i
  have hend := feed_body_end (p := ⟨i.head, 64, i.body.length⟩) rfl hb
  have hbody := script_body i.body ⟨i.head, 64, i.body.length⟩ (Nat.le_refl _)
    (Nat.le_of_eq i.body_len.symm)
  have hpos : (⟨i.head, 64, i.body.length⟩ : Parser).pos = 0 := by
    unfold Parser.pos
    simp only []
    rw [i.body_len, Nat.sub_self]
  refine ⟨?_, ?_⟩
  · rw [Image.bytes, feed_append, hfeed, hend]
    exact ⟨i.head_len, rfl, rfl⟩
  · rw [Image.bytes, script_append, hscript, hfeed, hbody, hpos, List.nil_append]
    rfl

theorem script_dead {p : Parser} (hr : p.Ready) {i : Image} (hb : i.body = []) (rest : List Byte) :
    p.script (i.bytes ++ rest) = [] := by
  obtain ⟨hfeed, hscript⟩ := feed_image_head hr i
  rw [Image.bytes, hb, List.append_nil, script_append, hscript, hfeed, List.nil_append]
  exact (feed_stuck rest (by simp [hb]) (Nat.le_refl _)).2

/-- The script bytes of a stream of images: those of the images in front of the first empty one. -/
theorem script_images : ∀ (imgs : List Image) {p : Parser}, p.Ready →
    p.script (stream imgs) = (live imgs).flatMap Image.script := by
  intro imgs
  induction imgs with
  | nil => intro p _; rfl
  | cons i imgs ih =>
    intro p hr
    have hcons : stream (i :: imgs) = i.bytes ++ stream imgs := rfl
    by_cases hb : i.body = []
    · rw [hcons, script_dead hr hb, live, List.takeWhile_cons_of_neg (by simp [hb])]
      rfl
    · obtain ⟨hready, hscript⟩ := feed_image hr hb
      rw [hcons, script_append, hscript, ih hready, live, live,
        List.takeWhile_cons_of_pos (by simp [hb]), List.flatMap_cons]

/-- The flash with the bodies of the script images laid at `luadb_addr`, in order. -/
def withScripts (luadbAddr : Nat) (m : Nat → Byte) (imgs : List Image) : Nat → Byte :=
  (imgs.filter fun i => Header.imgType i.head = 2).foldl (fun m i => overlay m luadbAddr i.body) m

theorem scatter_scripts (luadbAddr : Nat) (imgs : List Image) : ∀ m : Nat → Byte,
    scatter m luadbAddr (imgs.flatMap Image.script) = withScripts luadbAddr m imgs := by
  induction imgs with
  | nil => intro m; rfl
  | cons i imgs ih =>
    intro m
    rw [List.flatMap_cons, scatter_append, ih, Image.script, withScripts, withScripts]
    by_cases ht : Header.imgType i.head = 2
    · rw [if_pos ht, scatter_zipIdx, List.filter_cons_of_pos (by simpa using ht)]
      rfl
    · rw [if_neg ht, List.filter_cons_of_neg (by simpa using ht)]
      rfl

theorem onChip_scripts {luadbAddr density : Nat} {imgs : List Image}
    (h : ∀ i ∈ imgs, Header.imgType i.head = 2 → luadbAddr + i.body.length ≤ density) :
    OnChip luadbAddr density (imgs.flatMap Image.script) := by
  intro w hw
  obtain ⟨i, hi, hwi⟩ := List.mem_flatMap.mp hw
  unfold Image.script at hwi
  split at hwi
  · rename_i ht
    have hlt := List.snd_lt_of_mem_zipIdx hwi
    have := h i hi ht
    omega
  · simp at hwi

theorem onChip_script (bd : Board) {i : Image} (h : bd.luadbAddr + i.body.length ≤ bd.density) :
    OnChip bd.luadbAddr bd.density (Parser.reset.script (stream [i])) := by
  rw [script_images _ reset_ready]
  apply onChip_scripts
  intro j hj _
  rw [List.mem_singleton.mp ((List.takeWhile_sublist _).subset hj)]
  exact h

/-- An erased chip of the AIR101 board. -/
def blank : Dev := ⟨some air101Board.density, fun _ => 0xFF#8, []⟩

/-- A script of two bytes. -/
def twoBytes : List Byte := stream [imageOf 2 [1#8, 2#8] (by decide)]

theorem twoBytes_cut : Cut twoBytes [twoBytes] := by
  refine ⟨List.flatten_singleton, ?_⟩
  intro c hc
  rw [List.mem_singleton.mp hc]
  decide

theorem script_chunking_two_bytes :
    (runs (otaGzcb air101Board.luadbAddr) ⟨blank, Parser.reset⟩
        [twoBytes]).dev.mem =
      (runs (otaGzcb air101Board.luadbAddr) ⟨blank, Parser.reset⟩
        (singles twoBytes)).dev.mem :=
  ((script_chunking_iff air101Board reset_ready twoBytes).mpr
    (onChip_script air101Board (by decide)) _ rfl _ _ twoBytes_cut (singles_cut twoBytes)).2

theorem not_onChip_script (bd : Board) (body : List Byte) (hlt : body.length < 2 ^ 32)
    (h : bd.density < bd.luadbAddr + body.length) :
    ¬ OnChip bd.luadbAddr bd.density (Parser.reset.script (stream [imageOf 2 body hlt])) := by
  have hle := bd.script_le
  have hne : body ≠ [] := by
    rintro rfl
    simp at h
    omega
  have htype : Header.imgType (imageOf 2 body hlt).head = 2 := header_imgType (by omega)
  intro hon
  rw [script_images _ reset_ready, live, List.takeWhile_cons_of_pos (by simpa [imageOf] using hne),
    List.takeWhile_nil, List.flatMap_cons, List.flatMap_nil, List.append_nil, Image.script,
    if_pos htype] at hon
  have := onChip_zipIdx hne hon
  omega

/-- A script of 128 KB and one byte on the AIR101 board, whose script partition starts 128 KB below
the end of the chip: the way the stream is cut shows in the flash. -/
theorem script_chunking_fails_past_chip :
    ¬ ∀ d : Dev, d.insideFls = some air101Board.density → ∀ cs ds,
      Cut (stream [imageOf 2 (List.replicate 0x20001 0#8)
        (by rw [List.length_replicate]; decide)]) cs →
      Cut (stream [imageOf 2 (List.replicate 0x20001 0#8)
        (by rw [List.length_replicate]; decide)]) ds →
      (runs (otaGzcb air101Board.luadbAddr) ⟨d, Parser.reset⟩ cs).parser =
          (runs (otaGzcb air101Board.luadbAddr) ⟨d, Parser.reset⟩ ds).parser ∧
        (runs (otaGzcb air101Board.luadbAddr) ⟨d, Parser.reset⟩ cs).dev.mem =
          (runs (otaGzcb air101Board.luadbAddr) ⟨d, Parser.reset⟩ ds).dev.mem := by
  intro hsame
  obtain ⟨m, cs, hcut, hne⟩ := cut_differs air101Board reset_ready
    (not_onChip_script air101Board (List.replicate 0x20001 0#8)
      (by rw [List.length_replicate]; decide) (by rw [List.length_replicate]; decide))
  have hmem := (hsame ⟨some air101Board.density, m, []⟩ rfl cs _ hcut (singles_cut _)).2
  exact hne (congrFun hmem air101Board.density)

/-- What `ota_gzcb` should do with an image list, however it is cut: the bytes that reach the chip
are those of the script images, in order, each body from `luadb_addr` on, and nothing else changes. -/
def WritesScripts (bd : Board) (p : Parser) (imgs : List Image) : Prop :=
  ∀ d : Dev, d.insideFls = some bd.density → ∀ chunks, Cut (stream imgs) chunks →
    landed (runs (otaGzcb bd.luadbAddr) ⟨d, p⟩ chunks).dev.log =
        landed d.log ++ (imgs.flatMap Image.script).map (fun w => (w.1, bd.luadbAddr + w.2)) ∧
      (runs (otaGzcb bd.luadbAddr) ⟨d, p⟩ chunks).dev.mem = withScripts bd.luadbAddr d.mem imgs

/-- When it does: every script in front of the first empty image ends on the chip, and there is no
script with a body behind it. -/
def Parsable (bd : Board) (imgs : List Image) : Prop :=
  (∀ i ∈ live imgs, Header.imgType i.head = 2 → bd.luadbAddr + i.body.length ≤ bd.density) ∧
    ∀ i ∈ dead imgs, Header.imgType i.head = 2 → i.body = []

theorem live_append_dead (imgs : List Image) : live imgs ++ dead imgs = imgs :=
  List.takeWhile_append_dropWhile

theorem fits_of_accepted (bd : Board) {i : Image} (ht : Header.imgType i.head = 2)
    (h : ∀ w ∈ i.script, accepted bd.luadbAddr bd.density w = true) :
    bd.luadbAddr + i.body.length ≤ bd.density := by
  have hdens := bd.density_le
  have hle := bd.script_le
  by_contra hlong
  have hlt : bd.density - bd.luadbAddr < i.body.length := by omega
  have hw := h (i.body[bd.density - bd.luadbAddr], bd.density - bd.luadbAddr) (by
    rw [Image.script, if_pos ht, List.mk_mem_zipIdx_iff_getElem?]
    exact List.getElem?_eq_getElem hlt)
  have hacc := of_decide_eq_true hw
  simp only [] at hacc
  omega

theorem parsable_of_writes (bd : Board) {p : Parser} (hr : p.Ready) {imgs : List Image}
    (h : WritesScripts bd p imgs) : Parsable bd imgs := by
  -- byte by byte, with the length of what reaches the chip
  have hlanded := congrArg List.length (h ⟨some bd.density, fun _ => 0#8, []⟩ rfl
    (singles (stream imgs)) (singles_cut _)).1
  rw [(singles_run bd.luadbAddr bd.density_le (stream imgs) ⟨⟨some bd.density, fun _ => 0#8, []⟩, p⟩ hr.wf
    rfl).2] at hlanded
  have hall : imgs.flatMap Image.script =
      (live imgs).flatMap Image.script ++ (dead imgs).flatMap Image.script := by
    rw [← List.flatMap_append, live_append_dead]
  rw [script_images imgs hr, hall] at hlanded
  simp only [landed, List.nil_append, List.length_map, List.length_append, List.length_nil,
    Nat.zero_add] at hlanded
  have hfilter := List.length_filter_le (accepted bd.luadbAddr bd.density)
    ((live imgs).flatMap Image.script)
  refine ⟨?_, ?_⟩
  · intro i hi ht
    have hkeep : ∀ w ∈ (live imgs).flatMap Image.script, accepted bd.luadbAddr bd.density w = true :=
      List.length_filter_eq_length_iff.mp (by omega)
    exact fits_of_accepted bd ht fun w hw => hkeep w (List.mem_flatMap.mpr ⟨i, hi, hw⟩)
  · intro i hi ht
    have hnil : (dead imgs).flatMap Image.script = [] := List.length_eq_zero_iff.mp (by omega)
    have hscript := List.flatMap_eq_nil_iff.mp hnil i hi
    rw [Image.script, if_pos ht] at hscript
    exact List.zipIdx_eq_nil_iff.mp hscript

theorem writes_of_parsable (bd : Board) {p : Parser} (hr : p.Ready) {imgs : List Image}
    (h : Parsable bd imgs) : WritesScripts bd p imgs := by
  intro d hd chunks hcut
  have hdead : (dead imgs).flatMap Image.script = [] := by
    rw [List.flatMap_eq_nil_iff]
    intro i hi
    unfold Image.script
    split
    · rename_i ht
      rw [h.2 i hi ht]
      rfl
    · rfl
  have hscript : p.script (stream imgs) = imgs.flatMap Image.script := by
    rw [script_images imgs hr, ← List.append_nil ((live imgs).flatMap Image.script), ← hdead,
      ← List.flatMap_append, live_append_dead]
  obtain ⟨-, -, hw⟩ := chunks_track bd.luadbAddr bd.density chunks (g := ⟨d, p⟩) hr.wf
  rw [hcut.1] at hw
  have hwrote := hw hd bd.density_le (by
    rw [script_images imgs hr]
    exact onChip_scripts h.1)
  rw [hscript] at hwrote
  exact ⟨hwrote.landed_eq, by rw [hwrote.mem_eq, scatter_scripts]⟩

/-- For every image list: however its stream is cut, `ota_gzcb` writes exactly the bodies of the
script images, in order, each at `luadb_addr`, if and only if the list is `Parsable`. -/
theorem script_images_iff (bd : Board) {p : Parser} (hr : p.Ready) (imgs : List Image) :
    WritesScripts bd p imgs ↔ Parsable bd imgs :=
  ⟨parsable_of_writes bd hr, writes_of_parsable bd hr⟩

theorem script_images_two :
    WritesScripts air101Board Parser.reset
      [imageOf 1 [7#8] (by decide), imageOf 2 [1#8, 2#8] (by decide)] :=
  (script_images_iff air101Board reset_ready _).mpr (by unfold Parsable; decide)

/-- The script behind an image with an empty body is not written. -/
theorem script_images_lost_behind_empty :
    ¬ WritesScripts air101Board Parser.reset
      [imageOf 1 [] (by decide), imageOf 2 [1#8] (by decide)] := by
  intro h
  have hparsable := parsable_of_writes air101Board reset_ready h
  exact absurd (hparsable.2 (imageOf 2 [1#8] (by decide)) (by simp [dead, imageOf]) (by decide))
    (by decide)

end Fota
end Air101
