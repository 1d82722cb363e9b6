import Mathlib.Data.List.Induction

/-!
# Storage.Groups

A list cut into groups by a key, the groups in the order in which their keys first appear. This is what a loop builds
that looks every element's key up among the groups so far and opens a new group at the end when it is not there.

* `keys_snoc`: what one more element does to the keys.
* `groups_perm`: the groups together are the list, up to order.
-/

namespace Storage

variable {α κ : Type} [DecidableEq κ]

/-- The keys of a list in the order of their first appearance. -/
def keys (f : α → κ) (xs : List α) : List κ :=
  xs.foldl (fun ks x => if f x ∈ ks then ks else ks ++ [f x]) []

/-- The elements of one key, in the list's order. -/
def group (f : α → κ) (k : κ) (xs : List α) : List α := xs.filter fun x => f x = k

variable {f : α → κ} {xs : List α} {x : α} {k : κ}

@[simp] theorem keys_nil : keys f [] = [] := rfl

theorem keys_snoc : keys f (xs ++ [x]) = if f x ∈ keys f xs then keys f xs else keys f xs ++ [f x] := by
  rw [keys, List.foldl_append]
  rfl

theorem group_snoc : group f k (xs ++ [x]) = group f k xs ++ if f x = k then [x] else [] := by
  simp only [group, List.filter_append, List.filter_cons, List.filter_nil]
  by_cases h : f x = k <;> simp [h]

theorem keys_nodup : (keys f xs).Nodup := by
  induction xs using List.reverseRecOn with
  | nil => simp
  | append_singleton xs x ih =>
    rw [keys_snoc]
    split
    · exact ih
    · rename_i h
      refine List.nodup_append.mpr ⟨ih, by simp, ?_⟩
      intro a ha b hb hab
      exact h (List.mem_singleton.mp hb ▸ hab ▸ ha)

theorem mem_keys : k ∈ keys f xs ↔ ∃ x ∈ xs, f x = k := by
  induction xs using List.reverseRecOn generalizing k with
  | nil => simp
  | append_singleton xs x ih =>
    rw [keys_snoc]
    by_cases h : f x ∈ keys f xs
    · rw [if_pos h, ih]
      constructor
      · rintro ⟨y, hy, rfl⟩
        exact ⟨y, by simp [hy], rfl⟩
      · rintro ⟨y, hy, rfl⟩
        rcases List.mem_append.mp hy with hy | hy
        · exact ⟨y, hy, rfl⟩
        · obtain rfl := List.mem_singleton.mp hy
          exact ih.mp h
    · rw [if_neg h]
      simp [ih, or_and_right, exists_or, eq_comm]

theorem length_keys_le : (keys f xs).length ≤ xs.length := by
  induction xs using List.reverseRecOn with
  | nil => simp
  | append_singleton xs x ih =>
    rw [keys_snoc]
    split
    · simp only [List.length_append, List.length_singleton]
      omega
    · simpa using ih

theorem length_group_le : (group f k xs).length ≤ xs.length := List.length_filter_le _ _

/-- The groups of any keys without a repetition are the elements with one of these keys. -/
theorem flatMap_group_perm {ks : List κ} (h : ks.Nodup) :
    (ks.flatMap fun k => group f k xs).Perm (xs.filter fun x => f x ∈ ks) := by
  induction ks with
  | nil => simp
  | cons k ks ih =>
    obtain ⟨hk, hks⟩ := List.nodup_cons.mp h
    -- cut the right side into the elements of `k` and the others, whose keys are in `ks`
    have hcut := List.filter_append_perm (fun x => decide (f x = k)) (xs.filter fun x => f x ∈ k :: ks)
    have hthis : (xs.filter fun x => f x ∈ k :: ks).filter (fun x => decide (f x = k)) = group f k xs := by
      rw [List.filter_filter]
      exact List.filter_congr fun x _ => by simp; tauto
    have hrest : (xs.filter fun x => f x ∈ k :: ks).filter (fun x => !decide (f x = k))
        = xs.filter fun x => f x ∈ ks := by
      rw [List.filter_filter]
      refine List.filter_congr fun x _ => ?_
      by_cases hx : f x = k
      · simp [hx, hk]
      · simp [hx]
    rw [hthis, hrest] at hcut
    exact ((ih hks).append_left _).trans hcut

theorem groups_perm : ((keys f xs).flatMap fun k => group f k xs).Perm xs := by
  refine (flatMap_group_perm keys_nodup).trans (List.Perm.of_eq ?_)
  exact List.filter_eq_self.mpr fun x hx => by simpa using mem_keys.mpr ⟨x, hx, rfl⟩

end Storage
