import Mathlib.Data.List.Basic
import Mathlib.Tactic.Common

/-!
# Storage.Fields

Banks of hardware registers whose bit fields are set by read, modify and write.

* `RegField.apply_bit`: bit by bit, a write of a field sets its own bits and no other.
* `RegField.Holds`: the field already has the value, so that writing it changes nothing.
* `RegField.Compatible`: two fields are disjoint, or they are the same with the same value. Writing one
  keeps the other (`Holds.apply`).
* `compatible_of_regions`, `compatible_of_apart`: which bits the writes of a list address decides
  about it, whatever the values are.
* `applyAll_of_holds`, `holds_applyAll`: a list of pairwise compatible writes does nothing to a bank
  that holds them all, and leaves a bank that holds them all.
* `applyAll_overwritten`: a write that the rest of the list repeats in full can be left out.
-/

namespace Storage

variable {ρ : Type} {w : Nat}

/-- The value `val` for the bits of register `reg` from `lo` on. -/
structure RegField (ρ : Type) where
  reg : ρ
  lo : Nat
  width : Nat
  val : BitVec width
  deriving DecidableEq

/-! ## Fields that do not disturb each other -/

/-- Two writes that do not disturb each other. -/
def RegField.Compatible (f g : RegField ρ) : Prop :=
  f.reg ≠ g.reg ∨ f.lo + f.width ≤ g.lo ∨ g.lo + g.width ≤ f.lo ∨ f = g

theorem RegField.Compatible.symm {f g : RegField ρ} (h : f.Compatible g) : g.Compatible f := by
  rcases h with h | h | h | h
  · exact .inl (Ne.symm h)
  · exact .inr (.inr (.inl h))
  · exact .inr (.inl h)
  · exact .inr (.inr (.inr h.symm))

/-- The register, the first bit and the number of bits of a write. -/
def RegField.region (f : RegField ρ) : ρ × Nat × Nat := (f.reg, f.lo, f.width)

/-- Two regions without a common bit. -/
def Apart (x y : ρ × Nat × Nat) : Prop := x.1 ≠ y.1 ∨ x.2.1 + x.2.2 ≤ y.2.1 ∨ y.2.1 + y.2.2 ≤ x.2.1

theorem RegField.Compatible.of_apart {f g : RegField ρ} (h : Apart f.region g.region) : f.Compatible g := by
  rcases h with h | h | h
  · exact .inl h
  · exact .inr (.inl h)
  · exact .inr (.inr (.inl h))

theorem compatible_of_regions {fs : List (RegField ρ)} (h : (fs.map RegField.region).Pairwise Apart) :
    ∀ f ∈ fs, ∀ g ∈ fs, f.Compatible g := by
  induction fs with
  | nil => simp
  | cons f fs ih =>
    rw [List.map_cons, List.pairwise_cons] at h
    have hf : ∀ g ∈ fs, f.Compatible g := fun g hg => .of_apart (h.1 _ (List.mem_map_of_mem hg))
    intro a ha b hb
    rcases List.mem_cons.mp ha with ha' | ha'
    · rcases List.mem_cons.mp hb with hb' | hb'
      · exact .inr (.inr (.inr (ha'.trans hb'.symm)))
      · exact ha' ▸ hf b hb'
    · rcases List.mem_cons.mp hb with hb' | hb'
      · exact hb' ▸ (hf a ha').symm
      · exact ih h.2 a ha' b hb'

theorem compatible_of_apart {fs gs : List (RegField ρ)}
    (h : ∀ x ∈ fs.map RegField.region, ∀ y ∈ gs.map RegField.region, Apart x y) :
    ∀ f ∈ fs, ∀ g ∈ gs, f.Compatible g := fun _ hf _ hg =>
  .of_apart (h _ (List.mem_map_of_mem hf) _ (List.mem_map_of_mem hg))

variable [DecidableEq ρ]

instance (f g : RegField ρ) : Decidable (f.Compatible g) := inferInstanceAs (Decidable (_ ∨ _ ∨ _ ∨ _))

instance (x y : ρ × Nat × Nat) : Decidable (Apart x y) := inferInstanceAs (Decidable (_ ∨ _ ∨ _))

/-! ## One write -/

namespace RegField

/-- The bits of a field. -/
def mask (w : Nat) (f : RegField ρ) : BitVec w := (BitVec.allOnes f.width).setWidth w <<< f.lo

/-- `temp = read(reg) & ~mask; temp |= val << lo; write(reg, temp)`. -/
def apply (m : ρ → BitVec w) (f : RegField ρ) : ρ → BitVec w := fun r =>
  if r = f.reg then (m r &&& ~~~ f.mask w) ||| f.val.setWidth w <<< f.lo else m r

/-- Bit `i` of register `r` belongs to the field. -/
def Covers (f : RegField ρ) (r : ρ) (i : Nat) : Prop := r = f.reg ∧ f.lo ≤ i ∧ i < f.lo + f.width

instance (f : RegField ρ) (r : ρ) (i : Nat) : Decidable (f.Covers r i) := inferInstanceAs (Decidable (_ ∧ _))

theorem apply_bit (m : ρ → BitVec w) (f : RegField ρ) (r : ρ) {i : Nat} (hi : i < w) :
    (f.apply m r).getLsbD i = if f.Covers r i then f.val.getLsbD (i - f.lo) else (m r).getLsbD i := by
  unfold apply
  by_cases hr : r = f.reg
  · rw [if_pos hr]
    simp only [mask, BitVec.getLsbD_or, BitVec.getLsbD_and, BitVec.getLsbD_not, BitVec.getLsbD_shiftLeft,
      BitVec.getLsbD_setWidth, BitVec.getLsbD_allOnes, hi, decide_true, Bool.true_and]
    by_cases hlo : f.lo ≤ i
    · have hnot : ¬ i < f.lo := by omega
      have hsub : i - f.lo < w := by omega
      by_cases hup : i < f.lo + f.width
      · have hin : i - f.lo < f.width := by omega
        rw [if_pos ⟨hr, hlo, hup⟩]
        simp [hnot, hsub, hin]
      · have hout : ¬ i - f.lo < f.width := by omega
        rw [if_neg (fun h => hup h.2.2), BitVec.getLsbD_of_ge f.val _ (by omega)]
        simp [hnot, hsub, hout]
    · rw [if_neg (fun h => hlo h.2.1)]
      simp [show i < f.lo by omega]
  · rw [if_neg hr, if_neg (fun h => hr h.1)]

/-- The bank carries the field's value. -/
def Holds (m : ρ → BitVec w) (f : RegField ρ) : Prop :=
  ∀ i, i < w → f.Covers f.reg i → (m f.reg).getLsbD i = f.val.getLsbD (i - f.lo)

theorem Holds.eq {m : ρ → BitVec w} {f : RegField ρ} (h : f.Holds m) : f.apply m = m := by
  funext r
  apply BitVec.eq_of_getLsbD_eq
  intro i hi
  rw [apply_bit m f r hi]
  split
  · rename_i hc
    obtain ⟨rfl, _⟩ := id hc
    exact (h i hi hc).symm
  · rfl

theorem holds_apply (m : ρ → BitVec w) (f : RegField ρ) : f.Holds (f.apply m) := by
  intro i hi hc
  rw [apply_bit m f _ hi, if_pos hc]

theorem Holds.apply {m : ρ → BitVec w} {f g : RegField ρ} (h : f.Holds m) (hc : f.Compatible g) :
    f.Holds (g.apply m) := by
  intro i hi hf
  rw [apply_bit m g _ hi]
  split
  · rename_i hg
    obtain ⟨_, hlo, hup⟩ := hf
    obtain ⟨hreg, hlo', hup'⟩ := hg
    rcases hc with hc | hc | hc | rfl
    · exact absurd hreg hc
    · omega
    · omega
    · rfl
  · exact h i hi hf

end RegField

/-! ## Lists of writes -/

/-- The writes of a list, one after the other. -/
def applyAll (m : ρ → BitVec w) (fs : List (RegField ρ)) : ρ → BitVec w := fs.foldl RegField.apply m

@[simp] theorem applyAll_nil (m : ρ → BitVec w) : applyAll m [] = m := rfl

@[simp] theorem applyAll_cons (m : ρ → BitVec w) (f : RegField ρ) (fs : List (RegField ρ)) :
    applyAll m (f :: fs) = applyAll (f.apply m) fs := rfl

theorem applyAll_append (m : ρ → BitVec w) (fs gs : List (RegField ρ)) :
    applyAll m (fs ++ gs) = applyAll (applyAll m fs) gs := List.foldl_append

theorem applyAll_of_holds {m : ρ → BitVec w} {fs : List (RegField ρ)} (h : ∀ f ∈ fs, f.Holds m) :
    applyAll m fs = m := by
  induction fs with
  | nil => rfl
  | cons f fs ih =>
    rw [applyAll_cons, (h f List.mem_cons_self).eq]
    exact ih fun g hg => h g (List.mem_cons_of_mem _ hg)

theorem RegField.Holds.applyAll {m : ρ → BitVec w} {f : RegField ρ} {gs : List (RegField ρ)} (h : f.Holds m)
    (hc : ∀ g ∈ gs, f.Compatible g) : f.Holds (applyAll m gs) := by
  induction gs generalizing m with
  | nil => exact h
  | cons g gs ih =>
    rw [applyAll_cons]
    exact ih (h.apply (hc g List.mem_cons_self)) fun g' hg => hc g' (List.mem_cons_of_mem _ hg)

theorem holds_applyAll {m : ρ → BitVec w} {fs : List (RegField ρ)}
    (hc : ∀ f ∈ fs, ∀ g ∈ fs, f.Compatible g) : ∀ f ∈ fs, f.Holds (applyAll m fs) := by
  induction fs generalizing m with
  | nil => simp
  | cons g gs ih =>
    intro f hf
    rw [applyAll_cons]
    have hgs : ∀ f ∈ gs, ∀ g ∈ gs, f.Compatible g := fun f hf g hg =>
      hc f (List.mem_cons_of_mem _ hf) g (List.mem_cons_of_mem _ hg)
    rcases List.mem_cons.mp hf with rfl | hf
    · exact (f.holds_apply m).applyAll fun g hg =>
        hc f List.mem_cons_self g (List.mem_cons_of_mem _ hg)
    · exact ih hgs f hf

theorem holds_applyAll_last {m : ρ → BitVec w} {f : RegField ρ} {fs gs : List (RegField ρ)}
    (hc : ∀ g ∈ gs, f.Compatible g) : f.Holds (applyAll m (fs ++ f :: gs)) := by
  rw [applyAll_append, applyAll_cons]
  exact (f.holds_apply _).applyAll hc

/-- Banks that differ only in bits that the list writes are the same behind it. -/
theorem applyAll_congr {m m' : ρ → BitVec w} {fs : List (RegField ρ)}
    (h : ∀ r i, i < w → (m r).getLsbD i = (m' r).getLsbD i ∨ ∃ f ∈ fs, f.Covers r i) :
    applyAll m fs = applyAll m' fs := by
  induction fs generalizing m m' with
  | nil =>
    funext r
    apply BitVec.eq_of_getLsbD_eq
    intro i hi
    rcases h r i hi with h | ⟨f, hf, _⟩
    · exact h
    · exact absurd hf List.not_mem_nil
  | cons f fs ih =>
    rw [applyAll_cons, applyAll_cons]
    apply ih
    intro r i hi
    rw [RegField.apply_bit m f r hi, RegField.apply_bit m' f r hi]
    rcases h r i hi with h | ⟨g, hg, hcov⟩
    · left
      rw [h]
    · rcases List.mem_cons.mp hg with rfl | hg
      · left
        rw [if_pos hcov, if_pos hcov]
      · exact .inr ⟨g, hg, hcov⟩

theorem applyAll_overwritten {m : ρ → BitVec w} {f g : RegField ρ} {fs : List (RegField ρ)} (hg : g ∈ fs)
    (hcov : ∀ r i, f.Covers r i → g.Covers r i) : applyAll (f.apply m) fs = applyAll m fs := by
  apply applyAll_congr
  intro r i hi
  rw [RegField.apply_bit m f r hi]
  by_cases hf : f.Covers r i
  · exact .inr ⟨g, hg, hcov r i hf⟩
  · exact .inl (if_neg hf)

end Storage
