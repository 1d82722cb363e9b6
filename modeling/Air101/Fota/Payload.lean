import Air101.Fota.Boot

/-!
# Fota.Payload

The flashes whose check at boot writes a script, without the loops of the check: what the
decompressor puts out (`Puts`) and what the image parser finds in it (`HoldsScript`) are relations
on lists of bytes.

* `script_ne_nil_iff`: the parser emits a script byte exactly on a stream of whole images in front
  of a script image with at least one byte of its body.
* `bearsScript_iff`: so the check at boot leaves the script partition alone exactly if the flash does
  not bear a script.
-/

namespace Air101
namespace Fota

open Storage
open Crypto
open Fls

/-! ## The decompressor -/

/-- What some calls of the decompressor put out from the input `inp`, with `dictOfs` bytes of the
dictionary in use. A call is followed by another one only if it has more output. -/
inductive Puts (t : Tinfl) : t.σ → Nat → List Byte → List Byte → Prop where
  | last (decomp : t.σ) (dictOfs : Nat) (inp : List Byte) :
      Puts t decomp dictOfs inp (t.decompress decomp inp (0x8000 - dictOfs)).out
  | more {decomp : t.σ} {dictOfs : Nat} {inp : List Byte} {r : TinflOut t.σ} {out : List Byte} :
      t.decompress decomp inp (0x8000 - dictOfs) = r → r.status = .hasMoreOutput →
      Puts t r.state ((dictOfs + r.out.length) % 0x8000) (inp.drop r.used) out →
      Puts t decomp dictOfs inp (r.out ++ out)

theorem slice_rest (m : Nat → Byte) (a n k : Nat) : slice m (a + k) (n - k) = (slice m a n).drop k := by
  by_cases h : k ≤ n
  · exact (slice_drop m a n k h).symm
  · rw [show n - k = 0 by omega, slice_zero, List.drop_of_length_le (by rw [slice_length]; omega)]

/-- The rounds of the loop over a flash that does not change are calls of the decompressor on its
input. -/
theorem rounds_puts (t : Tinfl) (ptr inSize : Nat) (m : Nat → Byte) :
    ∀ (fuel : Nat) (decomp : t.σ) (inBufOfs dictOfs : Nat), Puts t decomp dictOfs
      ((slice m ptr inSize).drop inBufOfs)
      (rounds t ptr inSize m (fuel + 1) decomp inBufOfs dictOfs).flatten := by
  intro fuel
  induction fuel with
  | zero =>
    intro decomp inBufOfs dictOfs
    rw [rounds, slice_rest]
    simp only [rounds, ite_self, List.flatten_cons, List.flatten_nil, List.append_nil]
    exact .last _ _ _
  | succ fuel ih =>
    intro decomp inBufOfs dictOfs
    rw [rounds, slice_rest]
    generalize hr : t.decompress decomp ((slice m ptr inSize).drop inBufOfs) (0x8000 - dictOfs) = r
    split
    · rename_i hmore
      rw [List.flatten_cons]
      refine .more hr hmore ?_
      rw [List.drop_drop]
      exact ih _ _ _
    · rw [List.flatten_cons, List.flatten_nil, List.append_nil, ← hr]
      exact .last _ _ _

theorem puts_rounds {t : Tinfl} {decomp : t.σ} {dictOfs : Nat} {inp out : List Byte}
    (h : Puts t decomp dictOfs inp out) (ptr inSize : Nat) (m : Nat → Byte) :
    ∀ inBufOfs, inp = (slice m ptr inSize).drop inBufOfs →
      ∃ fuel, out = (rounds t ptr inSize m fuel decomp inBufOfs dictOfs).flatten := by
  induction h with
  | last decomp dictOfs inp =>
    intro inBufOfs hinp
    refine ⟨1, ?_⟩
    rw [rounds, slice_rest, ← hinp]
    simp only [rounds, ite_self, List.flatten_cons, List.flatten_nil, List.append_nil]
  | @more decomp dictOfs inp r out hr hmore _ ih =>
    intro inBufOfs hinp
    obtain ⟨fuel, hfuel⟩ := ih (inBufOfs + r.used) (by rw [hinp, List.drop_drop])
    refine ⟨fuel + 1, ?_⟩
    rw [rounds, slice_rest, ← hinp]
    simp only [hr]
    rw [if_pos hmore, List.flatten_cons, ← hfuel]

/-! ## The image parser -/

/-- Whole images, each with a body, and behind them a header of type 2 with the first byte of the
body it announces. -/
def HoldsScript (out : List Byte) : Prop :=
  ∃ (imgs : List Image) (head : List Byte) (b : Byte) (rest : List Byte),
    (∀ i ∈ imgs, i.body ≠ []) ∧ head.length = 64 ∧ Header.imgType head = 2 ∧ 0 < Header.imgLen head ∧
      out = stream imgs ++ (head ++ b :: rest)

theorem script_of_holds : ∀ (imgs : List Image) {p : Parser}, p.Ready → (∀ i ∈ imgs, i.body ≠ []) →
    ∀ {head : List Byte} (b : Byte) (rest : List Byte), head.length = 64 → Header.imgType head = 2 →
      0 < Header.imgLen head → p.script (stream imgs ++ (head ++ b :: rest)) ≠ [] := by
  intro imgs
  induction imgs with
  | nil =>
    intro p hr _ head b rest hlen htype hpos
    obtain ⟨hfeed, hscript⟩ := feed_header hr hlen
    have hin : (⟨head, 64, Header.imgLen head⟩ : Parser).inScript := ⟨hpos, htype⟩
    rw [show stream [] = [] from rfl, List.nil_append, script_append, hscript, hfeed, List.nil_append,
      Parser.script, Parser.emits, if_pos hin, List.singleton_append]
    exact List.cons_ne_nil _ _
  | cons i imgs ih =>
    intro p hr hbody head b rest hlen htype hpos
    obtain ⟨hready, -⟩ := feed_image hr (hbody i List.mem_cons_self)
    rw [show stream (i :: imgs) = i.bytes ++ stream imgs from rfl, List.append_assoc, script_append]
    exact List.append_ne_nil_of_right_ne_nil _
      (ih hready (fun j hj => hbody j (List.mem_cons_of_mem _ hj)) b rest hlen htype hpos)

/-- The stream is taken image by image; `n` bounds its length. -/
theorem holds_of_script : ∀ (n : Nat) (out : List Byte) {p : Parser}, out.length ≤ n → p.Ready →
    p.script out ≠ [] → HoldsScript out := by
  intro n
  induction n with
  | zero =>
    intro out p hn _ hscript
    rw [List.length_eq_zero_iff.mp (Nat.le_zero.mp hn)] at hscript
    exact absurd rfl hscript
  | succ n ih =>
    intro out p hn hr hscript
    by_cases hshort : out.length < 64
    · -- the first header is not complete
      exact absurd (feed_head out p hr.skip hr.head (by rw [hr.fill]; omega)).2 hscript
    · obtain ⟨head, rest, rfl, hlen⟩ : ∃ head rest, out = head ++ rest ∧ head.length = 64 :=
        ⟨out.take 64, out.drop 64, (List.take_append_drop 64 out).symm, by rw [List.length_take]; omega⟩
      obtain ⟨hfeed, hnone⟩ := feed_header hr hlen
      rw [script_append, hnone, hfeed, List.nil_append] at hscript
      by_cases hpos : 0 < Header.imgLen head
      · by_cases htype : Header.imgType head = 2
        · cases rest with
          | nil => exact absurd rfl hscript
          | cons b rest => exact ⟨[], head, b, rest, by simp, hlen, htype, hpos, by simp [stream]⟩
        · -- another image: its body is no script
          by_cases hfew : rest.length < Header.imgLen head
          · have hbody := script_body rest ⟨head, 64, Header.imgLen head⟩ (Nat.le_of_lt hfew) (Nat.le_refl _)
            rw [if_neg htype] at hbody
            exact absurd hbody hscript
          · have htake : (rest.take (Header.imgLen head)).length = Header.imgLen head := by
              rw [List.length_take]
              omega
            have hne : rest.take (Header.imgLen head) ≠ [] :=
              List.ne_nil_of_length_pos (by omega)
            have hbody := script_body (rest.take (Header.imgLen head)) ⟨head, 64, Header.imgLen head⟩
              (Nat.le_of_eq htake) (Nat.le_refl _)
            rw [if_neg htype] at hbody
            rw [← List.take_append_drop (Header.imgLen head) rest, script_append, hbody,
              feed_body_end (p := ⟨head, 64, Header.imgLen head⟩) htake hne, List.nil_append] at hscript
            rw [List.length_append] at hn
            obtain ⟨imgs, head', b, rest', hbodies, hlen', htype', hpos', hrest⟩ :=
              ih (rest.drop (Header.imgLen head)) (by rw [List.length_drop]; omega)
                ⟨hlen, rfl, rfl⟩ hscript
            refine ⟨⟨head, rest.take (Header.imgLen head), hlen, htake.symm⟩ :: imgs, head', b, rest', ?_,
              hlen', htype', hpos', ?_⟩
            · intro i hi
              rcases List.mem_cons.mp hi with rfl | hi
              · exact hne
              · exact hbodies i hi
            · have hcons : stream (⟨head, rest.take (Header.imgLen head), hlen, htake.symm⟩ :: imgs) =
                  head ++ rest.take (Header.imgLen head) ++ stream imgs := rfl
              rw [hcons, List.append_assoc, List.append_assoc, ← hrest, List.take_append_drop]
      · -- a header without a body stops the parser
        exact absurd (feed_stuck rest (p := ⟨head, 64, Header.imgLen head⟩) (by simp only []; omega)
          (Nat.le_refl _)).2 hscript

theorem script_ne_nil_iff {p : Parser} (hr : p.Ready) (out : List Byte) :
    p.script out ≠ [] ↔ HoldsScript out := by
  constructor
  · exact holds_of_script out.length out (Nat.le_refl _) hr
  · rintro ⟨imgs, head, b, rest, hbodies, hlen, htype, hpos, rfl⟩
    exact script_of_holds imgs hr hbodies b rest hlen htype hpos

/-! ## The check at boot -/

/-- The cells `m` hold a valid header of type 1 in the OTA zone, and its `img_len` bytes of input, ten
bytes behind it, decompress to a stream with a script in it. -/
def BearsScript (hw : Engine) (bd : Board) (t : Tinfl) (m : Nat → Byte) : Prop :=
  HeadOk hw (slice m bd.base 64) ∧ Header.imgType (slice m bd.base 64) = 1 ∧
    ∃ out, Puts t t.init 0 (slice m (bd.base + 74) (Header.imgLen (slice m bd.base 64))) out ∧
      HoldsScript out

theorem bearsScript_iff (hw : Engine) (bd : Board) (t : Tinfl) (m : Nat → Byte) :
    BearsScript hw bd t m ↔ CarriesScript hw bd t m := by
  unfold BearsScript CarriesScript
  rw [Nat.add_assoc]
  refine and_congr_right fun _ => and_congr_right fun _ => ?_
  generalize Header.imgLen (slice m bd.base 64) = inSize
  constructor
  · rintro ⟨out, hputs, hholds⟩
    obtain ⟨fuel, rfl⟩ := puts_rounds hputs (bd.base + 74) inSize m 0 List.drop_zero.symm
    exact ⟨fuel, (script_ne_nil_iff reset_ready _).mpr hholds⟩
  · rintro ⟨n, hscript⟩
    cases n with
    | zero => exact absurd rfl hscript
    | succ n =>
      exact ⟨_, rounds_puts t (bd.base + 74) inSize m n t.init 0 0, (script_ne_nil_iff reset_ready _).mp hscript⟩

/-- The check at boot leaves the script partition alone exactly if the flash bears no script. -/
theorem boot_check_iff (hw : Engine) (bd : Board) (t : Tinfl) (m : Nat → Byte) :
    (∀ heap fuel, NoScriptWrite bd
      (checkOtaZone hw bd t heap fuel ⟨some bd.density, m, []⟩).1.log) ↔ ¬ BearsScript hw bd t m := by
  rw [bearsScript_iff]
  exact checkOtaZone_script_iff hw bd t m

end Fota
end Air101
