import Air101.Fls.Contract

/-!
# Fls.Torn

A `tls_fls_write` that a reset cuts off. Each sector takes 17 commands, an erase and 16 pages, and
the pages go from the first cell of the sector to the last. So the cut has one place: the sectors in
front of it are written, and the sector it falls in is written up to it and clear behind it.

* `writeSectors_length`: the number of commands of a write.
* `writeSectors_take`: what every prefix of them leaves behind.
-/

namespace Air101
namespace Fls

open Storage

/-- The number of sectors that `n` bytes from `a` on meet. -/
def sectorsMet (a n : Nat) : Nat := (a + n - 1) / 4096 + 1 - a / 4096

/-- The place of a cut after `j` commands of a write at `a`. -/
def tornAt (a j : Nat) : Nat :=
  if j % 17 = 0 then max a ((a / 4096 + j / 17) * 4096)
  else (a / 4096 + j / 17) * 4096 + (j % 17 - 1) * 256

/-- The number of clear cells behind it: none between two sectors. -/
def tornLen (j : Nat) : Nat := if j % 17 = 0 then 0 else 4096 - (j % 17 - 1) * 256

/-- The cells after `j` commands of a write of `bs` at `a`. -/
def tear (m : Nat → Byte) (a : Nat) (bs : List Byte) (j : Nat) : Nat → Byte :=
  overlay ((Op.erase (tornAt a j) (tornLen j)).apply m) a (bs.take (tornAt a j - a))

theorem erase_none (m : Nat → Byte) (a : Nat) : (Op.erase a 0).apply m = m := by
  funext x
  exact if_neg (by omega)

theorem erase_overlay (m : Nat → Byte) {a lo n : Nat} {bs : List Byte} (h : a + bs.length ≤ lo) :
    (Op.erase lo n).apply (overlay m a bs) = overlay ((Op.erase lo n).apply m) a bs := by
  funext x
  by_cases hx : a ≤ x ∧ x < a + bs.length
  · rw [overlay_in hx.1 (by omega)]
    simp only [Op.apply]
    rw [if_neg (by omega), overlay_in hx.1 (by omega)]
  · rw [overlay_out (m := (Op.erase lo n).apply m) (by omega)]
    simp only [Op.apply]
    rw [overlay_out (by omega)]

@[simp] theorem sectorOps_length (secpos : Nat) (cache : List Byte) : (sectorOps secpos cache).length = 17 := by
  simp [sectorOps]

/-- One sector, cut off after its erase and `i` pages. -/
theorem sectorOps_take (m : Nat → Byte) {secpos secoff i : Nat} {bs : List Byte}
    (h : secpos * 4096 + 4096 ≤ 2 ^ 25) (hb : secoff + bs.length ≤ 4096) (hi : i ≤ 16) :
    run m ((sectorOps secpos (patch (flashRead m true (secpos * 4096) 4096) secoff bs)).take (i + 1)) =
      overlay ((Op.erase (secpos * 4096 + i * 256) (4096 - i * 256)).apply m) (secpos * 4096 + secoff)
        (bs.take (i * 256 - secoff)) := by
  have hchip : chipAddr (secpos * 4096) = secpos * 4096 := chipAddr_of_lt (by omega)
  rw [flashRead_eq m true _ _ (by rw [hchip]; exact h), hchip]
  have hlen : (patch (slice m (secpos * 4096) 4096) secoff bs).length = 4096 := by
    rw [patch_length (by rw [slice_length]; exact hb), slice_length]
  rw [sectorOps_eq h, run_rewrite_take (k := 16) hlen i hi]
  have hfull := overlay_patch m (secpos * 4096) 4096 secoff bs hb
  generalize patch (slice m (secpos * 4096) 4096) secoff bs = cache at hlen hfull ⊢
  funext x
  have hcell := congrFun hfull x
  by_cases hx : secpos * 4096 ≤ x ∧ x < secpos * 4096 + i * 256
  · -- a page that is written again
    rw [overlay_in hx.1 (by rw [List.length_take]; omega), List.getElem_take]
    rw [overlay_in hx.1 (by omega)] at hcell
    rw [hcell]
    by_cases hnew : secpos * 4096 + secoff ≤ x ∧ x < secpos * 4096 + secoff + bs.length
    · rw [overlay_in hnew.1 (by omega), overlay_in hnew.1 (by rw [List.length_take]; omega),
        List.getElem_take]
    · rw [overlay_out (by omega), overlay_out (by rw [List.length_take]; omega)]
      exact (if_neg (by omega)).symm
  · rw [overlay_out (by rw [List.length_take]; omega), overlay_out (by rw [List.length_take]; omega)]
    simp only [Op.apply]
    refine if_congr ?_ rfl rfl
    omega

/-- The first sector of a write, cut off. -/
theorem tear_first (m : Nat → Byte) {secpos secoff j : Nat} {buf : List Byte} (hoff : secoff < 4096)
    (hj : j < 17) (h : secpos * 4096 + 4096 ≤ 2 ^ 25) :
    run m ((sectorOps secpos (patch (flashRead m true (secpos * 4096) 4096) secoff
        (buf.take (min buf.length (4096 - secoff))))).take j) =
      tear m (secpos * 4096 + secoff) buf j := by
  have hdiv : (secpos * 4096 + secoff) / 4096 = secpos := by omega
  unfold tear tornAt tornLen
  rw [hdiv, Nat.div_eq_of_lt hj, Nat.add_zero, Nat.mod_eq_of_lt hj]
  cases j with
  | zero =>
    have hmax : max (secpos * 4096 + secoff) (secpos * 4096) = secpos * 4096 + secoff := by omega
    rw [if_pos rfl, if_pos rfl, erase_none, hmax, Nat.sub_self, List.take_zero, List.take_zero, overlay_nil,
      run_nil]
  | succ i =>
    rw [if_neg (by omega), if_neg (by omega), Nat.add_sub_cancel]
    have hbuf : (buf.take (min buf.length (4096 - secoff))).take (i * 256 - secoff) =
        buf.take (i * 256 - secoff) := by
      rw [List.take_take, List.take_eq_take_iff]
      omega
    have htaken : secpos * 4096 + i * 256 - (secpos * 4096 + secoff) = i * 256 - secoff := by omega
    rw [sectorOps_take m h (by rw [List.length_take]; omega) (by omega), hbuf, htaken]

/-- A write whose first sector is complete is cut off in what is behind it. -/
theorem tear_rest (m : Nat → Byte) {secpos secoff j r : Nat} {buf : List Byte}
    (hr : r = 4096 - secoff) (hoff : secoff < 4096) (hlen : r < buf.length) (hj : 17 ≤ j) :
    tear (overlay m (secpos * 4096 + secoff) (buf.take r)) ((secpos + 1) * 4096) (buf.drop r) (j - 17) =
      tear m (secpos * 4096 + secoff) buf j := by
  have htake : (buf.take r).length = r := by rw [List.length_take]; omega
  have hplace : tornAt ((secpos + 1) * 4096) (j - 17) = tornAt (secpos * 4096 + secoff) j := by
    unfold tornAt
    rw [show (j - 17) % 17 = j % 17 by omega]
    split <;> omega
  have hclear : tornLen (j - 17) = tornLen j := by
    unfold tornLen
    rw [show (j - 17) % 17 = j % 17 by omega]
  have hge : secpos * 4096 + secoff + r ≤ tornAt (secpos * 4096 + secoff) j := by
    unfold tornAt
    split <;> omega
  unfold tear
  rw [hplace, hclear, erase_overlay m (by rw [htake]; exact hge)]
  generalize tornAt (secpos * 4096 + secoff) j = lo at hge ⊢
  have hnext : (secpos + 1) * 4096 = secpos * 4096 + secoff + r := by omega
  have hwhole : lo - (secpos * 4096 + secoff) = r + (lo - (secpos * 4096 + secoff + r)) := by omega
  rw [hwhole, List.take_add, overlay_append, htake, hnext]

theorem writeSectors_length : ∀ (fuel : Nat) (m : Nat → Byte) (secpos secoff : Nat) (buf : List Byte),
    buf.length ≤ fuel → buf ≠ [] → secoff < 4096 →
    (writeSectors fuel m secpos secoff buf).length = 17 * sectorsMet (secpos * 4096 + secoff) buf.length := by
  intro fuel
  induction fuel with
  | zero =>
    intro m secpos secoff buf hf hne _
    exact absurd (List.length_eq_zero_iff.mp (by omega)) hne
  | succ fuel ih =>
    intro m secpos secoff buf hf hne hoff
    have hpos : 0 < buf.length := List.length_pos_iff.mpr hne
    simp only [writeSectors]
    split
    · rename_i hlast
      rw [sectorOps_length]
      unfold sectorsMet
      omega
    · rename_i hmore
      generalize hr : min buf.length (4096 - secoff) = r at *
      have hdrop : (buf.drop r).length = buf.length - r := List.length_drop
      rw [List.length_append, sectorOps_length, ih _ _ _ _ (by omega)
        (List.ne_nil_of_length_pos (by omega)) (by omega), hdrop]
      unfold sectorsMet
      omega

/-- After any number of its commands a write is cut off at one place. The induction is on the fuel, a
pass for each sector. -/
theorem writeSectors_take : ∀ (fuel : Nat) (m : Nat → Byte) (secpos secoff : Nat) (buf : List Byte) (j : Nat),
    buf.length ≤ fuel → buf ≠ [] → secoff < 4096 → secpos * 4096 + secoff + buf.length ≤ 2 ^ 25 →
    j < 17 * sectorsMet (secpos * 4096 + secoff) buf.length →
    run m ((writeSectors fuel m secpos secoff buf).take j) = tear m (secpos * 4096 + secoff) buf j := by
  intro fuel
  induction fuel with
  | zero =>
    intro m secpos secoff buf j hf hne _ _ _
    exact absurd (List.length_eq_zero_iff.mp (by omega)) hne
  | succ fuel ih =>
    intro m secpos secoff buf j hf hne hoff hend hj
    have hpos : 0 < buf.length := List.length_pos_iff.mpr hne
    have hsec := sector_le hpos hend
    have hfirst : j < 17 → _ := fun h => @tear_first m secpos secoff j buf hoff h hsec
    simp only [writeSectors]
    split
    · rename_i hlast
      refine hfirst ?_
      unfold sectorsMet at hj
      omega
    · rename_i hmore
      generalize hr : min buf.length (4096 - secoff) = r at *
      have hfull : r = 4096 - secoff := by omega
      have htake : (buf.take r).length = r := by rw [List.length_take]; omega
      have hdrop : (buf.drop r).length = buf.length - r := List.length_drop
      rcases run_take_append m (sectorOps secpos (patch (flashRead m true (secpos * 4096) 4096) secoff
        (buf.take r))) (writeSectors fuel (run m (sectorOps secpos (patch (flashRead m true (secpos * 4096) 4096)
          secoff (buf.take r)))) (secpos + 1) 0 (buf.drop r)) j with ⟨hlt, e⟩ | ⟨hge, e⟩
      · rw [sectorOps_length] at hlt
        rw [e]
        exact hfirst hlt
      · rw [sectorOps_length] at hge e
        have hj' : j - 17 < 17 * sectorsMet ((secpos + 1) * 4096 + 0) (buf.drop r).length := by
          unfold sectorsMet at hj ⊢
          omega
        rw [e, sectorOps_run m hsec (by omega), ih _ (secpos + 1) 0 _ (j - 17) (by omega)
          (List.ne_nil_of_length_pos (by omega)) (by omega) (by lia) hj', Nat.add_zero]
        exact tear_rest m hfull hoff (by omega) hge

end Fls
end Air101
