import Air101.Fls.Contract

/-!
# Fls.Program

What `tls_fls_write_without_erase` does to the cells: it is one program of the whole buffer, though it
programs whole pages.

* `writePages_run`: the page loop, with the page cache it keeps from pass to pass.
* `tlsFlsWriteWithoutErase_ok`: an accepted call.
* `write_without_erase_contract`: the bytes of the range are the old ones and the buffer's, joined by a
  bitwise and; every other byte is as it was.
-/

namespace Air101
namespace Fls

open Storage

theorem programPage_page {pagepos : Nat} {cache : List Byte} (hpage : pagepos * 256 < 2 ^ 25)
    (hc : cache.length = 256) : programPage (pagepos * 256) 256 cache = .program (pagepos * 256) cache := by
  rw [programPage, chipAddr_of_lt hpage, Nat.min_self, List.take_of_length_le (by omega)]

theorem flashRead_page (m : Nat → Byte) {pagepos : Nat} (hpage : pagepos * 256 + 256 ≤ 2 ^ 25) :
    flashRead m true (pagepos * 256) 256 = slice m (pagepos * 256) 256 := by
  have hchip : chipAddr (pagepos * 256) = pagepos * 256 := chipAddr_of_lt (by omega)
  have hread := flashRead_eq m true (pagepos * 256) 256
  rw [hchip] at hread
  exact hread hpage

/-- The page cache is of use for the bytes of the page that the buffer does not replace. It holds the
page in the first pass and in the last one; in between the buffer replaces all of it. -/
def Fresh (m : Nat → Byte) (pagepos pageoff : Nat) (cache buf : List Byte) : Prop :=
  cache = slice m (pagepos * 256) 256 ∨ (cache.length = 256 ∧ pageoff = 0 ∧ 256 ≤ buf.length)

/-- One pass programs the part of the buffer that falls into its page. -/
theorem pass_run {m : Nat → Byte} {pagepos pageoff : Nat} {cache buf : List Byte}
    (hfresh : Fresh m pagepos pageoff cache buf) (hoff : pageoff < 256) (hpage : pagepos * 256 < 2 ^ 25) :
    (programPage (pagepos * 256) 256
        (patch cache pageoff (buf.take (min buf.length (256 - pageoff))))).apply m =
      (Op.program (pagepos * 256 + pageoff) (buf.take (min buf.length (256 - pageoff)))).apply m := by
  have htake : (buf.take (min buf.length (256 - pageoff))).length = min buf.length (256 - pageoff) := by
    rw [List.length_take]
    omega
  rcases hfresh with rfl | ⟨hlen, rfl, hfull⟩
  · rw [programPage_page hpage, program_patch m _ 256 pageoff _ (by omega)]
    rw [patch_length (by rw [slice_length]; omega), slice_length]
  · have hwhole : patch cache 0 (buf.take (min buf.length (256 - 0))) =
        buf.take (min buf.length (256 - 0)) := by
      rw [patch, List.take_zero, List.nil_append, List.drop_of_length_le (by omega), List.append_nil]
    rw [hwhole, programPage_page hpage (by omega), Nat.add_zero]

/-- The loop programs the buffer. -/
theorem writePages_run : ∀ (fuel : Nat) (m : Nat → Byte) (pagepos pageoff : Nat) (cache buf : List Byte),
    buf.length ≤ fuel → buf ≠ [] → pageoff < 256 → pagepos * 256 + pageoff + buf.length ≤ 2 ^ 25 →
    Fresh m pagepos pageoff cache buf →
    run m (writePages fuel m pagepos pageoff cache buf) =
      (Op.program (pagepos * 256 + pageoff) buf).apply m := by
  intro fuel
  induction fuel with
  | zero =>
    intro m pagepos pageoff cache buf hf hne _ _ _
    exact absurd (List.length_eq_zero_iff.mp (by omega)) hne
  | succ fuel ih =>
    intro m pagepos pageoff cache buf hf hne hoff hend hfresh
    have hpos : 0 < buf.length := List.length_pos_iff.mpr hne
    have hpass := pass_run hfresh hoff (by lia)
    have hlen : cache.length = 256 := by
      rcases hfresh with rfl | h
      · exact slice_length _ _ _
      · exact h.1
    simp only [writePages]
    split
    · rename_i hlast
      rw [run_cons, run_nil, hpass, ← hlast, List.take_length]
    · rename_i hmore
      generalize hr : min buf.length (256 - pageoff) = r at *
      have htake : (buf.take r).length = r := by rw [List.length_take]; omega
      have hdrop : (buf.drop r).length = buf.length - r := List.length_drop
      have hnext : (pagepos + 1) * 256 + 0 = pagepos * 256 + pageoff + r := by lia
      have hjoin := program_append m (pagepos * 256 + pageoff) (buf.take r) (buf.drop r)
      rw [List.take_append_drop, htake] at hjoin
      rw [run_cons, hpass, ih _ (pagepos + 1) 0 _ (buf.drop r) (by omega) ?_ (by omega) (by lia) ?_, hnext,
        hjoin]
      · intro h0
        rw [h0] at hdrop
        simp at hdrop
        omega
      · -- the cache is kept for another full page and read anew for the last one
        split
        · rename_i hfull
          refine .inr ⟨?_, rfl, by omega⟩
          rw [patch_length (by rw [htake]; omega), hlen]
        · left
          have hlast : (pagepos + 1) * 256 + 256 ≤ 2 ^ 25 := by lia
          exact flashRead_page _ hlast

@[simp] theorem tlsFlsWriteWithoutErase_insideFls (heap : Bool) (d : Dev) (addr : Nat) (buf : List Byte) :
    (tlsFlsWriteWithoutErase heap d addr buf).2.insideFls = d.insideFls := by
  unfold tlsFlsWriteWithoutErase
  split
  · split <;> rfl
  · rfl

/-- An accepted call programs the buffer at the chip offset. -/
theorem tlsFlsWriteWithoutErase_ok {d : Dev} {density addr : Nat} {buf : List Byte}
    (hd : d.insideFls = some density) (ha : addr % 0x8000000 < density) (hb : buf ≠ [])
    (hend : addr % 0x8000000 + buf.length ≤ 2 ^ 25) :
    (tlsFlsWriteWithoutErase true d addr buf).1 = .ok ∧
      (tlsFlsWriteWithoutErase true d addr buf).2.mem = (Op.program (addr % 0x8000000) buf).apply d.mem := by
  have hpos := List.length_pos_iff.mpr hb
  unfold tlsFlsWriteWithoutErase
  rw [rangeCheck_ok hd ha hpos]
  refine ⟨rfl, ?_⟩
  simp only [if_true, Dev.issue_mem, Ev.ops]
  generalize addr % 0x8000000 = offaddr at hend
  have hsplit : offaddr / 256 * 256 + offaddr % 256 = offaddr := Nat.div_add_mod' offaddr 256
  have hpage : offaddr / 256 * 256 + 256 ≤ 2 ^ 25 := by omega
  have hcache := flashRead_page d.mem hpage
  rw [writePages_run buf.length d.mem (offaddr / 256) (offaddr % 256) _ buf (Nat.le_refl _) hb
    (Nat.mod_lt _ (by omega)) (by rw [hsplit]; exact hend) (.inl hcache), hsplit]

/-- Without an erase, a write inside the chip that can allocate its page cache returns OK. It leaves in
every byte of its range the old byte and the new one joined by a bitwise and, which is the new one where
the flash was erased. Every other byte is as it was. -/
theorem write_without_erase_contract (c : Chip) {d : Dev} (hd : d.insideFls = some c.density) (heap : Bool)
    (addr : Nat) (buf : List Byte) (hlen : 1 ≤ buf.length) (hin : addr % 0x8000000 + buf.length ≤ c.density) :
    ((tlsFlsWriteWithoutErase heap d addr buf).1 = .ok ↔ heap = true) ∧
    ((tlsFlsWriteWithoutErase heap d addr buf).1 = .ok →
      (∀ i, (h : i < buf.length) → (tlsFlsWriteWithoutErase heap d addr buf).2.mem (addr % 0x8000000 + i) =
        d.mem (addr % 0x8000000 + i) &&& buf[i]) ∧
      (∀ x, x < addr % 0x8000000 ∨ addr % 0x8000000 + buf.length ≤ x →
        (tlsFlsWriteWithoutErase heap d addr buf).2.mem x = d.mem x) ∧
      ((∀ i, i < buf.length → d.mem (addr % 0x8000000 + i) = 0xFF#8) →
        slice (tlsFlsWriteWithoutErase heap d addr buf).2.mem (addr % 0x8000000) buf.length = buf)) := by
  have hle := c.density_le
  have hst : (tlsFlsWriteWithoutErase heap d addr buf).1 = if heap then .ok else .enomem := by
    unfold tlsFlsWriteWithoutErase
    rw [rangeCheck_ok hd (by omega) hlen]
    cases heap <;> rfl
  cases heap with
  | false => exact ⟨by simp [hst], fun h => absurd (hst.symm.trans h) (by simp)⟩
  | true =>
    obtain ⟨_, hmem⟩ := tlsFlsWriteWithoutErase_ok hd (by omega) (List.length_pos_iff.mp hlen)
      (Nat.le_trans hin hle)
    rw [hmem]
    refine ⟨by simp [hst], fun _ => ⟨fun i hi => program_at _ _ _ i hi, ?_, ?_⟩⟩
    · intro x hx
      exact Op.apply_frame (by simp only [Op.Touches]; omega)
    · intro herased
      rw [program_erased herased, slice_overlay]

/-- Two bytes across a page boundary of an erased chip of 2 MB. -/
theorem write_without_erase_contract_erased :
    slice (tlsFlsWriteWithoutErase true ⟨some 0x200000, fun _ => 0xFF#8, []⟩ 0x80000FF [0x12#8, 0x34#8]).2.mem
      0xFF 2 = [0x12#8, 0x34#8] := by
  obtain ⟨hst, hcells⟩ := write_without_erase_contract chip2M (d := ⟨some 0x200000, fun _ => 0xFF#8, []⟩) rfl
    true 0x80000FF [0x12#8, 0x34#8] (by decide) (by decide)
  exact (hcells (hst.mpr rfl)).2.2 fun _ _ => rfl

end Fls
end Air101
