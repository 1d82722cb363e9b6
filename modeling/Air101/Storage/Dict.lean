import Mathlib.Algebra.GroupWithZero.Nat
import Mathlib.Data.List.Nodup
import Mathlib.Data.List.Perm.Basic

/-!
# Storage.Dict

Dictionaries that keep the order in which their keys came in, and finite sets.

* `Dict κ ν`: a list of entries, one for each key. `set` replaces the value of a key in its place,
  or appends the key (`get?_set`, `keys_set`).
* `Dict.total f d`: the sum of `f` over the values; `total_set` says what one `set` does to it.
* `FinSet α`: a list of elements without duplicates.
-/

namespace Storage

variable {κ ν α : Type}

/-- A dictionary in insertion order. -/
structure Dict (κ ν : Type) where
  entries : List (κ × ν)
  nodup : (entries.map Prod.fst).Nodup

namespace Dict

def empty : Dict κ ν := ⟨[], List.nodup_nil⟩

def keys (d : Dict κ ν) : List κ := d.entries.map Prod.fst

def values (d : Dict κ ν) : List ν := d.entries.map Prod.snd

@[simp] theorem keys_empty : (empty : Dict κ ν).keys = [] := rfl

/-- The sum of `f` over the values. -/
def total (f : ν → Nat) (d : Dict κ ν) : Nat := (d.values.map f).sum

theorem total_eq (f : ν → Nat) (d : Dict κ ν) :
    d.total f = (d.entries.map fun e => f e.2).sum := by
  simp [total, values, Function.comp_def]

variable [DecidableEq κ]

def setEntry (k : κ) (v : ν) : List (κ × ν) → List (κ × ν)
  | [] => [(k, v)]
  | e :: es => if e.1 = k then (k, v) :: es else e :: setEntry k v es

theorem setEntry_keys (k : κ) (v : ν) (es : List (κ × ν)) :
    (setEntry k v es).map Prod.fst =
      if k ∈ es.map Prod.fst then es.map Prod.fst else es.map Prod.fst ++ [k] := by
  induction es with
  | nil => simp [setEntry]
  | cons e es ih =>
    by_cases he : e.1 = k
    · simp [setEntry, he]
    · rw [setEntry, if_neg he, List.map_cons, ih]
      by_cases hk : k ∈ es.map Prod.fst
      · simp [hk]
      · have hk' : k ∉ (e :: es).map Prod.fst := by
          rw [List.map_cons, List.mem_cons]
          rintro (h | h)
          · exact he h.symm
          · exact hk h
        rw [if_neg hk, if_neg hk']
        rfl

def get? (d : Dict κ ν) (k : κ) : Option ν := d.entries.lookup k

/-- Replace the value of a key, or append the key. -/
def set (d : Dict κ ν) (k : κ) (v : ν) : Dict κ ν where
  entries := setEntry k v d.entries
  nodup := by
    rw [setEntry_keys]
    split
    · exact d.nodup
    · rename_i hk
      exact List.nodup_append.mpr ⟨d.nodup, List.nodup_singleton k, by
        intro a ha b hb
        rw [List.mem_singleton.mp hb]
        rintro rfl
        exact hk ha⟩

/-- `k in d`. -/
def contains (d : Dict κ ν) (k : κ) : Bool := (d.get? k).isSome

@[simp] theorem get?_empty (k : κ) : (empty : Dict κ ν).get? k = none := rfl

theorem keys_set (d : Dict κ ν) (k : κ) (v : ν) :
    (d.set k v).keys = if k ∈ d.keys then d.keys else d.keys ++ [k] :=
  setEntry_keys k v d.entries

theorem lookup_cons_eq (k : κ) (e : κ × ν) (es : List (κ × ν)) :
    (e :: es).lookup k = if k = e.1 then some e.2 else es.lookup k := by
  rw [List.lookup_cons]
  by_cases h : k = e.1
  · simp [h]
  · simp [h, beq_false_of_ne h]

theorem lookup_setEntry (k k' : κ) (v : ν) (es : List (κ × ν)) :
    (setEntry k v es).lookup k' = if k' = k then some v else es.lookup k' := by
  induction es with
  | nil => rw [setEntry, lookup_cons_eq]
  | cons e es ih =>
    by_cases he : e.1 = k
    · rw [setEntry, if_pos he, lookup_cons_eq, lookup_cons_eq, he]
      split
      · rfl
      · rfl
    · rw [setEntry, if_neg he, lookup_cons_eq, lookup_cons_eq, ih]
      by_cases h : k' = e.1
      · have hne : ¬ k' = k := fun h' => he (h.symm.trans h')
        rw [if_pos h, if_neg hne]
        exact (if_pos h).symm
      · rw [if_neg h, if_neg h]

theorem get?_set (d : Dict κ ν) (k k' : κ) (v : ν) :
    (d.set k v).get? k' = if k' = k then some v else d.get? k' :=
  lookup_setEntry k k' v d.entries

theorem get?_set_self (d : Dict κ ν) (k : κ) (v : ν) : (d.set k v).get? k = some v := by
  rw [get?_set, if_pos rfl]

theorem get?_set_ne {d : Dict κ ν} {k k' : κ} (h : k' ≠ k) (v : ν) :
    (d.set k v).get? k' = d.get? k' := by
  rw [get?_set, if_neg h]

theorem mem_entries_iff {d : Dict κ ν} {k : κ} {v : ν} :
    (k, v) ∈ d.entries ↔ d.get? k = some v := by
  obtain ⟨es, hnd⟩ := d
  unfold get?
  induction es with
  | nil => simp
  | cons e es ih =>
    obtain ⟨k', v'⟩ := e
    rw [List.map_cons, List.nodup_cons] at hnd
    by_cases hk : k = k'
    · subst hk
      have hout : (k, v) ∉ es := fun h => hnd.1 (List.mem_map.mpr ⟨(k, v), h, rfl⟩)
      simp only [List.mem_cons, hout, or_false, lookup_cons_eq, if_true, Prod.mk.injEq, true_and,
        Option.some.injEq]
      exact eq_comm
    · simpa [lookup_cons_eq, hk] using ih hnd.2

theorem mem_keys_iff {d : Dict κ ν} {k : κ} : k ∈ d.keys ↔ ∃ v, d.get? k = some v := by
  simp only [← mem_entries_iff, keys, List.mem_map]
  constructor
  · rintro ⟨⟨k', v⟩, hmem, rfl⟩
    exact ⟨v, hmem⟩
  · rintro ⟨v, hmem⟩
    exact ⟨(k, v), hmem, rfl⟩

theorem mem_keys_set {d : Dict κ ν} {k k' : κ} {v : ν} :
    k' ∈ (d.set k v).keys ↔ k' = k ∨ k' ∈ d.keys := by
  rw [keys_set]
  split
  · rename_i hk
    constructor
    · exact .inr
    · rintro (rfl | h)
      · exact hk
      · exact h
  · rw [List.mem_append, List.mem_singleton, or_comm]

theorem contains_iff {d : Dict κ ν} {k : κ} : d.contains k = true ↔ k ∈ d.keys := by
  rw [mem_keys_iff, contains, Option.isSome_iff_exists]

theorem get?_eq_none_iff {d : Dict κ ν} {k : κ} : d.get? k = none ↔ k ∉ d.keys := by
  rw [mem_keys_iff, Option.eq_none_iff_forall_ne_some]
  simp

/-- What a key has now takes the place of what it had. -/
theorem total_set (f : ν → Nat) (d : Dict κ ν) (k : κ) (v : ν) :
    (d.set k v).total f + ((d.get? k).map f).getD 0 = d.total f + f v := by
  rw [total_eq, total_eq]
  obtain ⟨es, hnd⟩ := d
  simp only [set, get?]
  clear hnd
  induction es with
  | nil => simp [setEntry]
  | cons e es ih =>
    obtain ⟨k', v'⟩ := e
    by_cases hk : k' = k
    · subst hk
      simp [setEntry, lookup_cons_eq]
      omega
    · have hk' : ¬ k = k' := fun h => hk h.symm
      simp only [setEntry, if_neg hk, List.map_cons, List.sum_cons, lookup_cons_eq, if_neg hk']
      omega

end Dict

/-- A finite set, as a list of its elements. -/
structure FinSet (α : Type) where
  elems : List α
  nodup : elems.Nodup

namespace FinSet

def empty : FinSet α := ⟨[], List.nodup_nil⟩

instance : Membership α (FinSet α) := ⟨fun s a => a ∈ s.elems⟩

instance [DecidableEq α] (a : α) (s : FinSet α) : Decidable (a ∈ s) := inferInstanceAs (Decidable (a ∈ s.elems))

theorem mem_def {a : α} {s : FinSet α} : a ∈ s ↔ a ∈ s.elems := Iff.rfl

@[simp] theorem not_mem_empty (a : α) : a ∉ (empty : FinSet α) := List.not_mem_nil

variable [DecidableEq α]

def add (s : FinSet α) (a : α) : FinSet α where
  elems := if a ∈ s.elems then s.elems else s.elems ++ [a]
  nodup := by
    split
    · exact s.nodup
    · rename_i ha
      exact List.nodup_append.mpr ⟨s.nodup, List.nodup_singleton a, by
        intro b hb c hc
        rw [List.mem_singleton.mp hc]
        rintro rfl
        exact ha hb⟩

theorem mem_add {s : FinSet α} {a b : α} : b ∈ s.add a ↔ b = a ∨ b ∈ s := by
  simp only [mem_def, add]
  split
  · rename_i ha
    constructor
    · exact .inr
    · rintro (rfl | h)
      · exact ha
      · exact h
  · rw [List.mem_append, List.mem_singleton, or_comm]

/-- `s.update(t)`. -/
def union (s t : FinSet α) : FinSet α := t.elems.foldl add s

theorem mem_union {s t : FinSet α} {a : α} : a ∈ s.union t ↔ a ∈ s ∨ a ∈ t := by
  obtain ⟨elems, nodup⟩ := t
  unfold union
  simp only [mem_def (s := ⟨elems, nodup⟩)]
  clear nodup
  induction elems generalizing s with
  | nil => simp
  | cons b elems ih =>
    rw [List.foldl_cons, ih, mem_add, List.mem_cons]
    tauto

def filter (p : α → Bool) (s : FinSet α) : FinSet α := ⟨s.elems.filter p, s.nodup.filter p⟩

end FinSet

end Storage
