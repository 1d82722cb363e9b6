import Air101.Storage.Mem

/-!
# Storage.Nor

NOR flash at the level of its commands. An erase sets a block of cells to ones; a program can only
clear bits. A driver call is the list of commands it sends (`run`), so a power cut between two
commands is a prefix of that list (`List.take`).

* `run_rewrite`: erasing a block and programming it page by page lays the new content over it.
* `run_rewrite_take`: what every prefix of that command list leaves behind, and `slice_rewrite_take`
  what it leaves of a record in the first page.
* `program_append`, `program_patch`: a buffer programmed page by page without an erase.
* `run_frame`: cells that no command of a list addresses keep their value.
-/

namespace Storage

abbrev Byte := BitVec 8

/-- One command to the chip. -/
inductive Op where
  | erase (a n : Nat)
  | program (a : Nat) (bs : List Byte)
  deriving DecidableEq

namespace Op

/-- The effect of a command on the cells. -/
def apply (m : Nat → Byte) : Op → Nat → Byte
  | .erase a n, x => if a ≤ x ∧ x < a + n then 0xFF#8 else m x
  | .program a bs, x => if a ≤ x then m x &&& (bs[x - a]?).getD 0xFF#8 else m x

/-- The cells a command addresses. -/
def Touches (x : Nat) : Op → Prop
  | .erase a n => a ≤ x ∧ x < a + n
  | .program a bs => a ≤ x ∧ x < a + bs.length

theorem apply_frame {m : Nat → Byte} {o : Op} {x : Nat} (h : ¬ o.Touches x) : o.apply m x = m x := by
  cases o with
  | erase a n => exact if_neg h
  | program a bs =>
    simp only [apply]
    split
    · rename_i hx
      have hx' : ¬ (a ≤ x ∧ x < a + bs.length) := h
      rw [List.getElem?_eq_none (by omega)]
      simp only [Option.getD_none]
      exact BitVec.and_allOnes
    · rfl

end Op

/-- The cells after a list of commands. -/
def run (m : Nat → Byte) : List Op → Nat → Byte
  | [] => m
  | o :: os => run (o.apply m) os

@[simp] theorem run_nil (m : Nat → Byte) : run m [] = m := rfl

@[simp] theorem run_cons (m : Nat → Byte) (o : Op) (os : List Op) :
    run m (o :: os) = run (o.apply m) os := rfl

theorem run_append (m : Nat → Byte) (os ps : List Op) : run m (os ++ ps) = run (run m os) ps := by
  induction os generalizing m with
  | nil => rfl
  | cons o os ih => exact ih _

/-- Cells that no command addresses keep their value. -/
theorem run_frame {m : Nat → Byte} {os : List Op} {x : Nat} (h : ∀ o ∈ os, ¬ o.Touches x) :
    run m os x = m x := by
  induction os generalizing m with
  | nil => rfl
  | cons o os ih =>
    rw [run_cons, ih fun p hp => h p (List.mem_cons_of_mem _ hp)]
    exact Op.apply_frame (h o List.mem_cons_self)

/-- Cutting a list of commands in a concatenation: the cut falls in the first part, or the first
part is complete and the cut falls in the second. -/
theorem run_take_append (m : Nat → Byte) (os ps : List Op) (k : Nat) :
    (k < os.length ∧ run m ((os ++ ps).take k) = run m (os.take k)) ∨
      (os.length ≤ k ∧ run m ((os ++ ps).take k) = run (run m os) (ps.take (k - os.length))) := by
  rw [List.take_append]
  by_cases h : k < os.length
  · left
    refine ⟨h, ?_⟩
    rw [show k - os.length = 0 by omega, List.take_zero, List.append_nil]
  · right
    refine ⟨by omega, ?_⟩
    rw [List.take_of_length_le (by omega), run_append]

/-! ## Programming without an erase -/

theorem program_at (m : Nat → Byte) (a : Nat) (bs : List Byte) (i : Nat) (h : i < bs.length) :
    (Op.program a bs).apply m (a + i) = m (a + i) &&& bs[i] := by
  simp only [Op.apply]
  rw [if_pos (by omega), show a + i - a = i by omega, List.getElem?_eq_getElem h, Option.getD_some]

/-- Two programs one behind the other are one program. -/
theorem program_append (m : Nat → Byte) (a : Nat) (xs ys : List Byte) :
    (Op.program (a + xs.length) ys).apply ((Op.program a xs).apply m) = (Op.program a (xs ++ ys)).apply m := by
  funext x
  by_cases h : a + xs.length ≤ x
  · have hx : ¬ (Op.program a xs).Touches x := by simp only [Op.Touches]; omega
    simp only [Op.apply, if_pos h, if_pos (show a ≤ x by omega)]
    rw [List.getElem?_append_right (by omega), List.getElem?_eq_none (l := xs) (by omega),
      show x - a - xs.length = x - (a + xs.length) by omega, Option.getD_none]
    congr 1
    exact BitVec.and_allOnes
  · simp only [Op.apply, if_neg h]
    by_cases hx : a ≤ x
    · rw [if_pos hx, if_pos hx, List.getElem?_append_left (by omega)]
    · rw [if_neg hx, if_neg hx]

/-- Programming a page with its own content patched is programming the patch. -/
theorem program_patch (m : Nat → Byte) (a n k : Nat) (xs : List Byte) (h : k + xs.length ≤ n) :
    (Op.program a (patch (slice m a n) k xs)).apply m = (Op.program (a + k) xs).apply m := by
  have hlen : (patch (slice m a n) k xs).length = n := by
    rw [patch_length (by rw [slice_length]; exact h), slice_length]
  funext x
  by_cases hin : a ≤ x ∧ x < a + n
  · obtain ⟨i, rfl⟩ : ∃ i, x = a + i := ⟨x - a, by omega⟩
    have hi : i < (patch (slice m a n) k xs).length := by omega
    rw [program_at m a _ i hi]
    -- the patched page is what an overlay leaves there
    have hcell : (patch (slice m a n) k xs)[i] = overlay m (a + k) xs (a + i) := by
      rw [← overlay_patch m a n k xs h]
      exact (overlay_at hi).symm
    rw [hcell]
    by_cases hpatch : k ≤ i ∧ i < k + xs.length
    · rw [overlay_in (by omega) (by omega)]
      simp only [Op.apply]
      rw [if_pos (by omega), List.getElem?_eq_getElem (by omega), Option.getD_some]
    · rw [overlay_out (by omega), BitVec.and_self]
      exact (Op.apply_frame (by simp only [Op.Touches]; omega)).symm
  · rw [Op.apply_frame (by simp only [Op.Touches, hlen]; exact hin),
      Op.apply_frame (by simp only [Op.Touches]; omega)]

/-- Content laid over an erased block is laid over the block. -/
theorem overlay_erase {m : Nat → Byte} {a n : Nat} {c : List Byte} (hc : c.length = n) :
    overlay ((Op.erase a n).apply m) a c = overlay m a c := by
  funext x
  by_cases hx : a ≤ x ∧ x < a + c.length
  · exact overlay_congr (.inl hx)
  · rw [overlay_out (by omega), overlay_out (by omega)]
    exact Op.apply_frame (o := .erase a n) (by rw [← hc]; exact hx)

/-! ## Rewriting a block page by page -/

/-- The commands that program the first `k` pages of size `p` of the content `c` at `a`. -/
def programPages (a p : Nat) (c : List Byte) (k : Nat) : List Op :=
  (List.range k).map fun i => .program (a + i * p) ((c.drop (i * p)).take p)

/-- The commands that rewrite a block of `k` pages of size `p` at `a` with the content `c`. -/
def rewrite (a p k : Nat) (c : List Byte) : List Op :=
  .erase a (k * p) :: programPages a p c k

@[simp] theorem programPages_length (a p : Nat) (c : List Byte) (k : Nat) :
    (programPages a p c k).length = k := by
  simp [programPages]

@[simp] theorem rewrite_length (a p k : Nat) (c : List Byte) : (rewrite a p k c).length = k + 1 := by
  simp [rewrite]

theorem programPages_succ (a p : Nat) (c : List Byte) (k : Nat) :
    programPages a p c (k + 1) =
      programPages a p c k ++ [.program (a + k * p) ((c.drop (k * p)).take p)] := by
  simp [programPages, List.range_succ]

theorem programPages_take (a p : Nat) (c : List Byte) (k j : Nat) (h : j ≤ k) :
    (programPages a p c k).take j = programPages a p c j := by
  rw [programPages, programPages, ← List.map_take, List.take_range, Nat.min_eq_left h]

theorem program_erased {m : Nat → Byte} {a : Nat} {bs : List Byte}
    (h : ∀ i, i < bs.length → m (a + i) = 0xFF#8) :
    (Op.program a bs).apply m = overlay m a bs := by
  funext x
  by_cases hx : a ≤ x ∧ x < a + bs.length
  · rw [overlay_in hx.1 (by omega)]
    have e := h (x - a) (by omega)
    rw [show a + (x - a) = x by omega] at e
    simp only [Op.apply, if_pos hx.1, e]
    rw [List.getElem?_eq_getElem (by omega)]
    exact BitVec.allOnes_and
  · rw [overlay_out (by omega)]
    exact Op.apply_frame hx

/-- The invariant of the page loop: after `j` pages the erased block carries the first `j` pages of
the content and is still erased behind them. -/
theorem run_programPages {m : Nat → Byte} {a p k : Nat} {c : List Byte}
    (hm : ∀ i, i < k * p → m (a + i) = 0xFF#8) (hc : c.length = k * p) :
    ∀ j, j ≤ k → run m (programPages a p c j) = overlay m a (c.take (j * p)) := by
  intro j
  induction j with
  | zero => intro _; simp [programPages]
  | succ j ih =>
    intro hj
    have hle : (j + 1) * p ≤ k * p := Nat.mul_le_mul_right p hj
    have hmul : (j + 1) * p = j * p + p := by rw [Nat.add_mul, Nat.one_mul]
    rw [programPages_succ, run_append, ih (by omega), run_cons, run_nil, hmul, List.take_add,
      overlay_append]
    have hlen : (c.take (j * p)).length = j * p := by rw [List.length_take]; omega
    rw [hlen]
    apply program_erased
    intro i hi
    rw [List.length_take, List.length_drop] at hi
    rw [overlay_out (by omega), show a + j * p + i = a + (j * p + i) by omega]
    exact hm _ (by omega)

/-- What a prefix of a block rewrite leaves: nothing done, or the block erased and its first pages
programmed. -/
theorem run_rewrite_take {m : Nat → Byte} {a p k : Nat} {c : List Byte} (hc : c.length = k * p) (j : Nat)
    (hj : j ≤ k) : run m ((rewrite a p k c).take (j + 1)) =
      overlay ((Op.erase a (k * p)).apply m) a (c.take (j * p)) := by
  rw [rewrite, List.take_succ_cons, run_cons, programPages_take a p c k j hj]
  apply run_programPages _ hc j hj
  intro i hi
  simp only [Op.apply]
  rw [if_pos (by omega)]

theorem run_rewrite {m : Nat → Byte} {a p k : Nat} {c : List Byte} (hc : c.length = k * p) :
    run m (rewrite a p k c) = overlay m a c := by
  have e := run_rewrite_take (m := m) (a := a) hc k (Nat.le_refl k)
  rw [List.take_of_length_le (by simp), List.take_of_length_le (by omega)] at e
  rw [e, overlay_erase hc]

/-- A range at the start of the block that fits into its first page is never half written: no command
has been sent and it is as before, or the first one and it is erased, or more and it is new. -/
theorem slice_rewrite_take (m : Nat → Byte) {a p k n : Nat} {c : List Byte} (hc : c.length = k * p)
    (hk : 0 < k) (hn : n ≤ p) (j : Nat) :
    (j = 0 ∧ slice (run m ((rewrite a p k c).take j)) a n = slice m a n) ∨
      (j = 1 ∧ slice (run m ((rewrite a p k c).take j)) a n = List.replicate n 0xFF#8) ∨
      (2 ≤ j ∧ slice (run m ((rewrite a p k c).take j)) a n = c.take n) := by
  have hpage : p ≤ k * p := Nat.le_mul_of_pos_left p hk
  cases j with
  | zero => exact .inl ⟨rfl, rfl⟩
  | succ j =>
    cases j with
    | zero =>
      refine .inr (.inl ⟨rfl, ?_⟩)
      rw [run_rewrite_take hc 0 (Nat.zero_le k), Nat.zero_mul, List.take_zero, overlay_nil]
      apply List.ext_getElem
      · simp
      · intro i hi _
        rw [slice_length] at hi
        rw [slice_getElem, List.getElem_replicate]
        exact if_pos ⟨by omega, by omega⟩
    | succ j =>
      refine .inr (.inr ⟨by omega, ?_⟩)
      -- past the last page the prefix is the whole list
      have hmin : (rewrite a p k c).take (j + 1 + 1) = (rewrite a p k c).take (min (j + 1) k + 1) := by
        rw [List.take_eq_take_iff, rewrite_length]
        omega
      have hcov : p ≤ min (j + 1) k * p := Nat.le_mul_of_pos_left p (by omega)
      have hshort : n ≤ (c.take (min (j + 1) k * p)).length := by
        rw [List.length_take]
        omega
      rw [hmin, run_rewrite_take hc _ (Nat.min_le_right _ _)]
      refine (slice_overlay_in (k := 0) (by omega)).trans ?_
      rw [List.drop_zero, List.take_take, Nat.min_eq_left (by omega)]

theorem rewrite_touches {a p k : Nat} {c : List Byte} {o : Op} {x : Nat} (ho : o ∈ rewrite a p k c)
    (hx : o.Touches x) : a ≤ x ∧ x < a + k * p := by
  rcases List.mem_cons.mp ho with rfl | ho
  · exact hx
  · obtain ⟨i, hi, rfl⟩ := List.mem_map.mp ho
    have hik : (i + 1) * p ≤ k * p := Nat.mul_le_mul_right p (List.mem_range.mp hi)
    have hmul : (i + 1) * p = i * p + p := by rw [Nat.add_mul, Nat.one_mul]
    simp only [Op.Touches, List.length_take] at hx
    omega

end Storage
