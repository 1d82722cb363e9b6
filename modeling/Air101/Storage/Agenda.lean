import Mathlib.Data.List.Pairwise
import Mathlib.Data.List.TakeWhile

/-!
# Storage.Agenda

Deadlines on a clock that wraps around: two lists in order of the clock's value, one for the present
round of the clock and one for the next.

* `enter x v l`: an entry at its place in a list in order of time.
* `due t l`, `later t l`: the entries up to a time, and the rest.
* `Lists size now current overflow plan`: the two lists hold the deadlines of `plan`; `Shows`: and
  none of these is over.
* `Shows.enter`, `Shows.advance`, `Shows.wrap`, `Lists.take`, `Shows.filter`: what is done to the
  lists is done to the plan.
-/

namespace Storage
namespace Agenda

variable {α : Type} {l m : List (α × Nat)} {t : Nat}

/-! ## Lists in order of time -/

def due (t : Nat) (l : List (α × Nat)) : List (α × Nat) := l.takeWhile fun e => e.2 ≤ t

def later (t : Nat) (l : List (α × Nat)) : List (α × Nat) := l.dropWhile fun e => e.2 ≤ t

/-- Behind all entries of the same time. -/
def enter (x : α) (v : Nat) (l : List (α × Nat)) : List (α × Nat) := due v l ++ (x, v) :: later v l

def InOrder (l : List (α × Nat)) : Prop := l.Pairwise fun a b => a.2 ≤ b.2

theorem due_append_later (t : Nat) (l : List (α × Nat)) : due t l ++ later t l = l :=
  List.takeWhile_append_dropWhile

theorem due_cons (t : Nat) (e : α × Nat) (l : List (α × Nat)) :
    due t (e :: l) = if e.2 ≤ t then e :: due t l else [] := by
  rw [due, List.takeWhile_cons]
  simp only [decide_eq_true_eq]
  rfl

theorem later_cons (t : Nat) (e : α × Nat) (l : List (α × Nat)) :
    later t (e :: l) = if e.2 ≤ t then later t l else e :: l := by
  rw [later, List.dropWhile_cons]
  simp only [decide_eq_true_eq]
  rfl

theorem due_le {e : α × Nat} (h : e ∈ due t l) : e.2 ≤ t := by
  have := List.mem_takeWhile_imp h
  simpa using this

theorem later_lt (hl : InOrder l) {e : α × Nat} (h : e ∈ later t l) : t < e.2 := by
  induction l with
  | nil => cases h
  | cons a l ih =>
    rw [InOrder, List.pairwise_cons] at hl
    rw [later_cons] at h
    by_cases ha : a.2 ≤ t
    · rw [if_pos ha] at h
      exact ih hl.2 h
    · rw [if_neg ha] at h
      rcases List.mem_cons.mp h with rfl | he
      · exact Nat.lt_of_not_le ha
      · exact Nat.lt_of_lt_of_le (Nat.lt_of_not_le ha) (hl.1 e he)

theorem due_all (h : ∀ e ∈ l, e.2 ≤ t) : due t l = l := by
  rw [due, List.takeWhile_eq_self_iff]
  simpa using h

theorem later_all (h : ∀ e ∈ l, e.2 ≤ t) : later t l = [] := by
  rw [later, List.dropWhile_eq_nil_iff]
  simpa using h

theorem due_none (h : ∀ e ∈ l, t < e.2) : due t l = [] := by
  cases l with
  | nil => rfl
  | cons a l =>
    have ha := h a List.mem_cons_self
    rw [due_cons, if_neg (Nat.not_le.mpr ha)]

theorem later_none (h : ∀ e ∈ l, t < e.2) : later t l = l := by
  have := due_append_later t l
  rw [due_none h, List.nil_append] at this
  exact this

theorem due_eq_filter (hl : InOrder l) : due t l = l.filter fun e => e.2 ≤ t := by
  have hdue : (due t l).filter (fun e => e.2 ≤ t) = due t l :=
    List.filter_eq_self.mpr fun e he => by simpa using due_le he
  have hlater : (later t l).filter (fun e => e.2 ≤ t) = [] :=
    List.filter_eq_nil_iff.mpr fun e he => by simpa using later_lt hl he
  conv => rhs; rw [← due_append_later t l, List.filter_append, hdue, hlater, List.append_nil]

theorem later_eq_filter (hl : InOrder l) : later t l = l.filter fun e => t < e.2 := by
  have hdue : (due t l).filter (fun e => t < e.2) = [] :=
    List.filter_eq_nil_iff.mpr fun e he => by simpa using due_le he
  have hlater : (later t l).filter (fun e => t < e.2) = later t l :=
    List.filter_eq_self.mpr fun e he => by simpa using later_lt hl he
  conv => rhs; rw [← due_append_later t l, List.filter_append, hdue, hlater, List.nil_append]

theorem due_append_of_later (h : ∀ e ∈ m, t < e.2) : due t (l ++ m) = due t l := by
  induction l with
  | nil => exact due_none h
  | cons a l ih =>
    rw [List.cons_append, due_cons, due_cons, ih]

theorem later_append_of_later (h : ∀ e ∈ m, t < e.2) : later t (l ++ m) = later t l ++ m := by
  have hsplit := due_append_later t (l ++ m)
  rw [due_append_of_later h] at hsplit
  have hl := due_append_later t l
  conv at hsplit => rhs; rw [← hl, List.append_assoc]
  exact List.append_cancel_left hsplit

theorem due_append_of_due (h : ∀ e ∈ l, e.2 ≤ t) : due t (l ++ m) = l ++ due t m :=
  List.takeWhile_append_of_pos (by simpa using h)

theorem later_append_of_due (h : ∀ e ∈ l, e.2 ≤ t) : later t (l ++ m) = later t m :=
  List.dropWhile_append_of_pos (by simpa using h)

/-- What is due in two steps. -/
theorem due_due {u : Nat} (h : t ≤ u) (l : List (α × Nat)) : due t l ++ due u (later t l) = due u l := by
  have hdue : ∀ e ∈ due t l, e.2 ≤ u := fun e he => Nat.le_trans (due_le he) h
  rw [← due_append_of_due hdue, due_append_later]

theorem later_later {u : Nat} (h : t ≤ u) (l : List (α × Nat)) : later u (later t l) = later u l := by
  have hdue : ∀ e ∈ due t l, e.2 ≤ u := fun e he => Nat.le_trans (due_le he) h
  rw [← later_append_of_due hdue, due_append_later]

theorem mem_enter {x : α} {v : Nat} {e : α × Nat} : e ∈ enter x v l ↔ e = (x, v) ∨ e ∈ l := by
  conv => rhs; rw [← due_append_later v l]
  simp only [enter, List.mem_append, List.mem_cons]
  exact or_left_comm

theorem enter_inOrder (hl : InOrder l) (x : α) (v : Nat) : InOrder (enter x v l) := by
  have hsplit := hl
  rw [InOrder, ← due_append_later v l, List.pairwise_append] at hsplit
  rw [InOrder, enter, List.pairwise_append, List.pairwise_cons]
  refine ⟨hsplit.1, ⟨fun e he => Nat.le_of_lt (later_lt hl he), hsplit.2.1⟩, fun a ha b hb => ?_⟩
  rcases List.mem_cons.mp hb with rfl | hb
  · exact due_le ha
  · exact hsplit.2.2 a ha b hb

/-! ## Times from a base -/

def shift (base : Nat) (l : List (α × Nat)) : List (α × Nat) := l.map fun e => (e.1, base + e.2)

variable {base : Nat}

theorem mem_shift {e : α × Nat} : e ∈ shift base l ↔ ∃ d ∈ l, e = (d.1, base + d.2) := by
  rw [shift, List.mem_map]
  exact ⟨fun ⟨d, hd, he⟩ => ⟨d, hd, he.symm⟩, fun ⟨d, hd, he⟩ => ⟨d, hd, he.symm⟩⟩

theorem shift_inOrder (h : InOrder l) (base : Nat) : InOrder (shift base l) :=
  List.pairwise_map.mpr (h.imp fun hab => Nat.add_le_add_left hab base)

theorem due_shift (base t : Nat) (l : List (α × Nat)) :
    due (base + t) (shift base l) = shift base (due t l) := by
  simp only [due, shift, List.takeWhile_map, Function.comp_def, Nat.add_le_add_iff_left]

theorem later_shift (base t : Nat) (l : List (α × Nat)) :
    later (base + t) (shift base l) = shift base (later t l) := by
  simp only [later, shift, List.dropWhile_map, Function.comp_def, Nat.add_le_add_iff_left]

theorem enter_shift (base v : Nat) (x : α) (l : List (α × Nat)) :
    enter x (base + v) (shift base l) = shift base (enter x v l) := by
  rw [enter, due_shift, later_shift, enter, shift, shift, shift, List.map_append, List.map_cons]

theorem map_fst_shift (base : Nat) (l : List (α × Nat)) :
    (shift base l).map Prod.fst = l.map Prod.fst := by
  rw [shift, List.map_map]
  rfl

/-! ## Two rounds of a clock -/

/-- The entries of this round of the clock and of the next. -/
structure Lists (size now : Nat) (current overflow plan : List (α × Nat)) : Prop where
  plan : plan = shift (now / size * size) current ++ shift ((now / size + 1) * size) overflow
  present : InOrder current ∧ ∀ e ∈ current, e.2 < size
  next : InOrder overflow ∧ ∀ e ∈ overflow, e.2 < size

/-- And none of them is over. -/
structure Shows (size now : Nat) (current overflow plan : List (α × Nat)) : Prop
    extends Lists size now current overflow plan where
  ahead : ∀ e ∈ current, now % size < e.2

variable {size now n : Nat} {current overflow plan : List (α × Nat)}

theorem round_add (now size : Nat) : now / size * size + now % size = now := by
  rw [Nat.mul_comm]
  exact Nat.div_add_mod now size

theorem Lists.inOrder (h : Lists size now current overflow plan) : InOrder plan := by
  rw [h.plan, InOrder, List.pairwise_append]
  refine ⟨shift_inOrder h.present.1 _, shift_inOrder h.next.1 _, fun a ha b hb => ?_⟩
  obtain ⟨d, hd, rfl⟩ := mem_shift.mp ha
  obtain ⟨e, he, rfl⟩ := mem_shift.mp hb
  have hlt := h.present.2 d hd
  simp only [Nat.add_mul, Nat.one_mul]
  omega

/-- Every deadline is ahead. -/
theorem Shows.lt (h : Shows size now current overflow plan) {e : α × Nat} (he : e ∈ plan) :
    now < e.2 := by
  have hnow := round_add now size
  rw [h.plan, List.mem_append] at he
  rcases he with he | he
  · obtain ⟨d, hd, rfl⟩ := mem_shift.mp he
    have := h.ahead d hd
    simp only
    omega
  · obtain ⟨d, hd, rfl⟩ := mem_shift.mp he
    have hs : 0 < size := Nat.lt_of_le_of_lt (Nat.zero_le _) (h.next.2 d hd)
    have := Nat.mod_lt now hs
    simp only [Nat.add_mul, Nat.one_mul]
    omega

/-- The clock shows an overflow exactly for the deadlines of the next round. -/
theorem wrap_iff (hn : n < size) : (now + n) % size < now % size ↔ size ≤ now % size + n := by
  have hr : now % size < size := Nat.mod_lt now (Nat.lt_of_le_of_lt (Nat.zero_le n) hn)
  rw [Nat.add_mod, Nat.mod_eq_of_lt hn]
  rcases Nat.lt_or_ge (now % size + n) size with hlt | hge
  · rw [Nat.mod_eq_of_lt hlt]
    omega
  · rw [Nat.mod_eq_sub_mod hge, Nat.mod_eq_of_lt (by omega)]
    omega

theorem add_this_round (h : now % size + n < size) :
    (now + n) % size = now % size + n ∧ now / size * size + (now + n) % size = now + n := by
  have hmod : (now + n) % size = now % size + n := by
    rw [Nat.add_mod, Nat.mod_eq_of_lt (show n < size by omega), Nat.mod_eq_of_lt h]
  have hnow := round_add now size
  exact ⟨hmod, by omega⟩

theorem add_next_round (hn : n < size) (h : size ≤ now % size + n) :
    (now / size + 1) * size + (now + n) % size = now + n := by
  have hr : now % size < size := Nat.mod_lt now (by omega)
  have hmod : (now + n) % size = now % size + n - size := by
    rw [Nat.add_mod, Nat.mod_eq_of_lt hn, Nat.mod_eq_sub_mod h, Nat.mod_eq_of_lt (by omega)]
  have hnow := round_add now size
  rw [Nat.add_mul, Nat.one_mul]
  omega

/-- A new deadline goes to the list for its round. -/
theorem Shows.enter (h : Shows size now current overflow plan) (x : α) (hpos : 0 < n) (hn : n < size) :
    if (now + n) % size < now % size then
      Shows size now current (enter x ((now + n) % size) overflow) (Agenda.enter x (now + n) plan)
    else Shows size now (Agenda.enter x ((now + n) % size) current) overflow
      (Agenda.enter x (now + n) plan) := by
  have hsize : 0 < size := Nat.lt_of_le_of_lt (Nat.zero_le n) hn
  have hlt := Nat.mod_lt (now + n) hsize
  have hentry : ∀ {l : List (α × Nat)}, (InOrder l ∧ ∀ e ∈ l, e.2 < size) →
      InOrder (Agenda.enter x ((now + n) % size) l) ∧
        ∀ e ∈ Agenda.enter x ((now + n) % size) l, e.2 < size := by
    intro l hl
    refine ⟨enter_inOrder hl.1 x _, fun e he => ?_⟩
    rcases mem_enter.mp he with rfl | he
    · exact hlt
    · exact hl.2 e he
  have hbelow : ∀ e ∈ shift (now / size * size) current, e.2 < (now / size + 1) * size := by
    intro e he
    obtain ⟨d, hd, rfl⟩ := mem_shift.mp he
    have := h.present.2 d hd
    simp only [Nat.add_mul, Nat.one_mul]
    omega
  split
  case isTrue hwrap =>
    have heq := add_next_round hn ((wrap_iff hn).mp hwrap)
    refine ⟨⟨?_, h.present, hentry h.next⟩, h.ahead⟩
    rw [h.plan, ← enter_shift, heq, Agenda.enter, Agenda.enter, due_append_of_due, later_append_of_due,
      List.append_assoc]
    · intro e he
      exact Nat.le_of_lt (Nat.lt_of_lt_of_le (hbelow e he) (by omega))
    · intro e he
      exact Nat.le_of_lt (Nat.lt_of_lt_of_le (hbelow e he) (by omega))
  case isFalse hwrap =>
    rw [wrap_iff hn, Nat.not_le] at hwrap
    obtain ⟨hmod, heq⟩ := add_this_round hwrap
    have hover : ∀ e ∈ shift ((now / size + 1) * size) overflow, now + n < e.2 := by
      intro e he
      obtain ⟨d, -, rfl⟩ := mem_shift.mp he
      simp only [Nat.add_mul, Nat.one_mul]
      omega
    refine ⟨⟨?_, hentry h.present, h.next⟩, fun e he => ?_⟩
    · rw [h.plan, ← enter_shift, heq, Agenda.enter, Agenda.enter, due_append_of_later hover,
        later_append_of_later hover, List.append_assoc, List.cons_append]
    · rcases mem_enter.mp he with rfl | he
      · simp only [hmod]
        omega
      · exact h.ahead e he

/-- The clock goes on. -/
theorem Shows.advance (h : Shows size now current overflow plan) (hno : (now + 1) % size ≠ 0) :
    Lists size (now + 1) current overflow plan := by
  have hdiv : (now + 1) / size = now / size := by
    rw [Nat.succ_div, if_neg (by rwa [Nat.dvd_iff_mod_eq_zero]), Nat.add_zero]
  refine ⟨?_, h.present, h.next⟩
  rw [hdiv]
  exact h.plan

/-- The clock is back at 0: nothing is left of the round before. -/
theorem Shows.wrap (h : Shows size now current overflow plan) (h0 : (now + 1) % size = 0) :
    current = [] ∧ Lists size (now + 1) overflow [] plan := by
  have hnil : current = [] := by
    refine List.eq_nil_iff_forall_not_mem.mpr fun e he => ?_
    have hlt := h.ahead e he
    have hsmall := h.present.2 e he
    have hmod : (now + 1) % size = now % size + 1 := by
      rw [← Nat.mod_add_mod, Nat.mod_eq_of_lt (by omega)]
    omega
  have hdiv : (now + 1) / size = now / size + 1 := by
    rw [Nat.succ_div, if_pos (Nat.dvd_of_mod_eq_zero h0)]
  refine ⟨hnil, ?_, h.next, .nil, fun _ he => absurd he List.not_mem_nil⟩
  rw [hdiv, h.plan, hnil]
  simp [shift]

/-- What is due is taken from the present round. -/
theorem Lists.take (hs : 0 < size) (h : Lists size now current overflow plan) :
    Shows size now (later (now % size) current) overflow (later now plan) ∧
      (due now plan).map Prod.fst = (due (now % size) current).map Prod.fst := by
  have hnow := round_add now size
  have hlt := Nat.mod_lt now hs
  have hover : ∀ e ∈ shift ((now / size + 1) * size) overflow, now < e.2 := by
    intro e he
    obtain ⟨d, -, rfl⟩ := mem_shift.mp he
    simp only [Nat.add_mul, Nat.one_mul]
    omega
  have hdue := due_shift (now / size * size) (now % size) current
  have hlater := later_shift (now / size * size) (now % size) current
  rw [hnow] at hdue hlater
  have hsub : ∀ e ∈ later (now % size) current, e ∈ current := by
    intro e he
    rw [← due_append_later (now % size) current]
    exact List.mem_append_right _ he
  refine ⟨⟨⟨?_, ⟨?_, fun e he => h.present.2 e (hsub e he)⟩, h.next⟩,
    fun e he => later_lt h.present.1 he⟩, ?_⟩
  · rw [h.plan, later_append_of_later hover, hlater]
  · exact h.present.1.sublist (List.dropWhile_sublist _)
  · rw [h.plan, due_append_of_later hover, hdue, map_fst_shift]

/-- Entries can be taken out of the lists. -/
theorem Shows.filter (h : Shows size now current overflow plan) (p : α → Bool) :
    Shows size now (current.filter fun e => p e.1) (overflow.filter fun e => p e.1)
      (plan.filter fun e => p e.1) := by
  have hshift : ∀ (base : Nat) (l : List (α × Nat)),
      (shift base l).filter (fun e => p e.1) = shift base (l.filter fun e => p e.1) := by
    intro base l
    rw [shift, List.filter_map]
    rfl
  refine ⟨⟨?_, ⟨?_, ?_⟩, ?_, ?_⟩, ?_⟩
  · rw [h.plan, List.filter_append, hshift, hshift]
  · exact h.present.1.sublist List.filter_sublist
  · exact fun e he => h.present.2 e (List.mem_filter.mp he).1
  · exact h.next.1.sublist List.filter_sublist
  · exact fun e he => h.next.2 e (List.mem_filter.mp he).1
  · exact fun e he => h.ahead e (List.mem_filter.mp he).1

end Agenda
end Storage
