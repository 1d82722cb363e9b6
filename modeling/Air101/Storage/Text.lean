import Mathlib.Data.List.Sort

/-!
# Storage.Text

Texts as lists of characters, in the order of their code points.

* `leText`: the lexicographic order, total and transitive.
* `sorted`: a list of texts in that order.
* `numeral`: the number that a text of digits writes.
-/

namespace Storage

abbrev Text := List Char

theorem lawfulBEq_text : LawfulBEq Text := inferInstance

instance (t : Text) (texts : List Text) : Decidable (t ∈ texts) :=
  @List.instDecidableMemOfLawfulBEq Text _ lawfulBEq_text t texts

/-- The lexicographic order of code points. -/
def leText : Text → Text → Bool
  | [], _ => true
  | _ :: _, [] => false
  | a :: s, b :: t => decide (a.toNat < b.toNat) || (decide (a = b) && leText s t)

theorem leText_cons {a b : Char} {s t : Text} :
    leText (a :: s) (b :: t) = true ↔ a.toNat < b.toNat ∨ (a = b ∧ leText s t = true) := by
  simp [leText]

theorem leText_total (s t : Text) : leText s t = true ∨ leText t s = true := by
  induction s generalizing t with
  | nil => exact .inl rfl
  | cons a s ih =>
    cases t with
    | nil => exact .inr rfl
    | cons b t =>
      simp only [leText_cons]
      obtain h | h | h := Nat.lt_trichotomy a.toNat b.toNat
      · exact .inl (.inl h)
      · have hab : a = b := Char.toNat_inj.mp h
        subst hab
        exact (ih t).imp (fun h => .inr ⟨rfl, h⟩) (fun h => .inr ⟨rfl, h⟩)
      · exact .inr (.inl h)

theorem leText_trans {s t u : Text} (h : leText s t = true) (h' : leText t u = true) :
    leText s u = true := by
  induction s generalizing t u with
  | nil => rfl
  | cons a s ih =>
    cases t with
    | nil => cases h
    | cons b t =>
      cases u with
      | nil => cases h'
      | cons c u =>
        rw [leText_cons] at h h' ⊢
        obtain hlt | ⟨rfl, hle⟩ := h
        · obtain hlt' | ⟨rfl, -⟩ := h'
          · exact .inl (Nat.lt_trans hlt hlt')
          · exact .inl hlt
        · obtain hlt' | ⟨rfl, hle'⟩ := h'
          · exact .inl hlt'
          · exact .inr ⟨rfl, ih hle hle'⟩

theorem leText_antisymm {s t : Text} (h : leText s t = true) (h' : leText t s = true) : s = t := by
  induction s generalizing t with
  | nil =>
    cases t with
    | nil => rfl
    | cons b t => cases h'
  | cons a s ih =>
    cases t with
    | nil => cases h
    | cons b t =>
      rw [leText_cons] at h h'
      obtain hlt | ⟨rfl, hle⟩ := h
      · obtain hlt' | ⟨rfl, -⟩ := h'
        · omega
        · omega
      · obtain hlt' | ⟨-, hle'⟩ := h'
        · omega
        · rw [ih hle hle']

/-- `sorted(texts)`. -/
def sorted (texts : List Text) : List Text := texts.insertionSort (leText · ·)

theorem sorted_perm (texts : List Text) : (sorted texts).Perm texts := List.perm_insertionSort _ _

@[simp] theorem mem_sorted {t : Text} {texts : List Text} : t ∈ sorted texts ↔ t ∈ texts :=
  (sorted_perm texts).mem_iff

theorem sorted_pairwise (texts : List Text) :
    (sorted texts).Pairwise fun s t => leText s t = true := by
  have htotal : Std.Total fun s t : Text => leText s t = true := ⟨leText_total⟩
  have htrans : IsTrans Text fun s t => leText s t = true := ⟨fun _ _ _ => leText_trans⟩
  exact List.pairwise_insertionSort _ texts

/-- Lists of the same texts are sorted to the same list. -/
theorem sorted_eq_of_perm {texts texts' : List Text} (h : texts.Perm texts') :
    sorted texts = sorted texts' :=
  List.Perm.eq_of_pairwise (fun _ _ _ _ => leText_antisymm) (sorted_pairwise texts)
    (sorted_pairwise texts') ((sorted_perm texts).trans (h.trans (sorted_perm texts').symm))

/-! ## Numerals -/

/-- The number written by digits to a base, without digits none. -/
def numeral (base : Nat) (digit : Char → Option Nat) (t : Text) : Option Nat :=
  if t = [] then none else t.foldlM (fun n c => (digit c).map (base * n + ·)) 0

theorem foldlM_isSome {β γ : Type} (f : β → γ → Option β) (xs : List γ)
    (h : ∀ b, ∀ x ∈ xs, (f b x).isSome = true) (b : β) : (xs.foldlM f b).isSome = true := by
  induction xs generalizing b with
  | nil => rfl
  | cons x xs ih =>
    obtain ⟨c, hc⟩ := Option.isSome_iff_exists.mp (h b x List.mem_cons_self)
    rw [List.foldlM_cons, hc]
    exact ih (fun b x hx => h b x (List.mem_cons_of_mem _ hx)) c

theorem numeral_isSome {base : Nat} {digit : Char → Option Nat} {t : Text} (hne : t ≠ [])
    (h : ∀ c ∈ t, (digit c).isSome = true) : (numeral base digit t).isSome = true := by
  rw [numeral, if_neg hne]
  refine foldlM_isSome _ t ?_ 0
  intro n c hc
  rw [Option.isSome_map]
  exact h c hc

end Storage
