import Mathlib.Data.Fintype.Card

/-!
# Storage.Tally

How many of finitely many parties are in a state of some kind.

* `tally p f`: the number of parties `i` with `p (f i)`.
* `tally_update`: it counts one party differently if that party changes.
* `tally_mapOn`: a change of several parties that were not counted and are counted then.
-/

namespace Storage

section MapOn

variable {ι α : Type} [DecidableEq ι] {g : α → α} {f : ι → α} {l : List ι} {i : ι}

/-- The parties of a list change by `g`. -/
def mapOn (l : List ι) (g : α → α) (f : ι → α) : ι → α := fun i => if i ∈ l then g (f i) else f i

theorem mapOn_nil (g : α → α) (f : ι → α) : mapOn [] g f = f := by
  funext i
  simp [mapOn]

theorem mapOn_of_mem (h : i ∈ l) : mapOn l g f i = g (f i) := if_pos h

theorem mapOn_of_not_mem (h : i ∉ l) : mapOn l g f i = f i := if_neg h

theorem mapOn_cons {a : ι} (ha : a ∉ l) :
    mapOn (a :: l) g f = Function.update (mapOn l g f) a (g (f a)) := by
  funext i
  by_cases hi : i = a
  · subst hi
    rw [Function.update_self, mapOn_of_mem List.mem_cons_self]
  · rw [Function.update_of_ne hi]
    simp [mapOn, hi]

end MapOn

variable {ι α : Type} [Fintype ι]

/-- The number of parties in a state of the kind `p`. -/
def tally (p : α → Bool) (f : ι → α) : Nat := (Finset.univ.filter fun i => p (f i) = true).card

theorem tally_congr {p q : α → Bool} {f : ι → α} (h : ∀ i, p (f i) = q (f i)) :
    tally p f = tally q f := by
  rw [tally, tally]
  congr 1
  exact Finset.filter_congr fun i _ => by rw [h i]

variable [DecidableEq ι]

theorem tally_update (p : α → Bool) (f : ι → α) (i : ι) (x : α) :
    tally p (Function.update f i x) + (if p (f i) then 1 else 0) =
      tally p f + if p x then 1 else 0 := by
  -- the other parties
  have hsplit : ∀ g : ι → α, tally p g = (if p (g i) then 1 else 0) +
      ((Finset.univ.erase i).filter fun j => p (g j) = true).card := by
    intro g
    have hno : i ∉ (Finset.univ.erase i).filter fun j => p (g j) = true := fun h =>
      Finset.notMem_erase i _ (Finset.mem_filter.mp h).1
    rw [tally, ← Finset.insert_erase (Finset.mem_univ i), Finset.filter_insert,
      Finset.erase_insert (Finset.notMem_erase i _)]
    split
    · rw [Finset.card_insert_of_notMem hno, Nat.add_comm]
    · rw [Nat.zero_add]
  have hrest : ((Finset.univ.erase i).filter fun j => p (Function.update f i x j) = true) =
      (Finset.univ.erase i).filter fun j => p (f j) = true := by
    refine Finset.filter_congr fun j hj => ?_
    rw [Function.update_of_ne (Finset.ne_of_mem_erase hj)]
  rw [hsplit f, hsplit (Function.update f i x), hrest, Function.update_self]
  omega

/-- A party that is counted as before. -/
theorem tally_update_same {p : α → Bool} {f : ι → α} {i : ι} {x : α} (h : p (f i) = p x) :
    tally p (Function.update f i x) = tally p f := by
  have := tally_update p f i x
  rw [h] at this
  omega

/-- Every party of the list comes to be counted. -/
theorem tally_mapOn {p : α → Bool} {g : α → α} {f : ι → α} {l : List ι} (hl : l.Nodup)
    (h : ∀ i ∈ l, p (f i) = false ∧ p (g (f i)) = true) :
    tally p (mapOn l g f) = tally p f + l.length := by
  induction l with
  | nil => rw [mapOn_nil, List.length_nil, Nat.add_zero]
  | cons a l ih =>
    obtain ⟨ha, hl⟩ := List.nodup_cons.mp hl
    obtain ⟨hno, hyes⟩ := h a List.mem_cons_self
    have hcount := tally_update p (mapOn l g f) a (g (f a))
    rw [mapOn_of_not_mem ha, hno, hyes, ih hl fun i hi => h i (List.mem_cons_of_mem _ hi)] at hcount
    rw [mapOn_cons ha, List.length_cons]
    simp only [Bool.false_eq_true, if_false, if_true] at hcount
    omega

/-- The parties of the list are counted as before. -/
theorem tally_mapOn_same {p : α → Bool} {g : α → α} {f : ι → α} {l : List ι}
    (h : ∀ i ∈ l, p (g (f i)) = p (f i)) : tally p (mapOn l g f) = tally p f := by
  rw [tally, tally]
  congr 1
  refine Finset.filter_congr fun i _ => ?_
  by_cases hi : i ∈ l
  · rw [mapOn_of_mem hi, h i hi]
  · rw [mapOn_of_not_mem hi]

end Storage
