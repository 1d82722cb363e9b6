import Air101.Storage.Spans

/-!
# Storage.Tiling

A region whose addresses belong to a gapped list of free spans or to live spans, as an allocator
divides it.

* `Tiling.take`: a free span goes to the live ones; `Tiling.cut`: a live span in two parts.
* `Tiling.give`: a live span goes back to the free ones, merged with its neighbours.
* `Tiling.room_iff`: there is a free span of a size exactly if somewhere in the region there are so
  many addresses in a row that no live span has. The free spans do not touch, so a hole is never
  cut in pieces.
* `Tiling.idle`: without live spans the whole region is one free span.
-/

namespace Storage

/-- The region from `lo` to `hi` is divided into the free and the live spans. -/
structure Tiling (lo hi : Nat) (free live : List Span) : Prop where
  gapped : Gapped lo hi free
  bounds : ∀ b ∈ live, lo ≤ b.pos ∧ 0 < b.len ∧ b.stop ≤ hi
  disjoint : live.Pairwise Span.Apart
  apart : ∀ f ∈ free, ∀ b ∈ live, f.Apart b
  sum : total free + total live = hi - lo
  cover : ∀ x, lo ≤ x → x < hi → covers free x ∨ covers live x

/-- The live spans without the one that begins at `p`. -/
def dropAt (p : Nat) (live : List Span) : List Span := live.filter fun b => b.pos ≠ p

theorem mem_dropAt {p : Nat} {live : List Span} {b : Span} :
    b ∈ dropAt p live ↔ b ∈ live ∧ b.pos ≠ p := by
  simp [dropAt]

section Drop

variable {live : List Span} {b : Span}

/-- A span that begins where a live one does is that one. -/
theorem eq_of_pos (hd : live.Pairwise Span.Apart) (hpos : ∀ c ∈ live, 0 < c.len) {c : Span}
    (hb : b ∈ live) (hc : c ∈ live) (h : b.pos = c.pos) : b = c := by
  induction live with
  | nil => simp at hb
  | cons d ds ih =>
    obtain ⟨hhead, htail⟩ := List.pairwise_cons.mp hd
    have hnot : ∀ e ∈ ds, e.pos ≠ d.pos := by
      intro e he
      have h1 := hhead e he
      have h2 := hpos e (by simp [he])
      have h3 := hpos d (by simp)
      simp only [Span.Apart, Span.stop] at h1
      omega
    rcases List.mem_cons.mp hb with rfl | hb
    · rcases List.mem_cons.mp hc with rfl | hc
      · rfl
      · exact absurd h.symm (hnot c hc)
    · rcases List.mem_cons.mp hc with hcd | hc
      · rw [hcd] at h
        exact absurd h (hnot b hb)
      · exact ih htail (fun e he => hpos e (by simp [he])) hb hc

theorem total_dropAt (hd : live.Pairwise Span.Apart) (hpos : ∀ c ∈ live, 0 < c.len)
    (hb : b ∈ live) : total live = b.len + total (dropAt b.pos live) := by
  induction live with
  | nil => simp at hb
  | cons d ds ih =>
    obtain ⟨hhead, htail⟩ := List.pairwise_cons.mp hd
    by_cases heq : d.pos = b.pos
    · have hdb : d = b := eq_of_pos hd hpos (by simp) hb heq
      subst hdb
      have hrest : dropAt d.pos ds = ds := by
        apply List.filter_eq_self.mpr
        intro e he
        have h1 := hhead e he
        have h2 := hpos e (by simp [he])
        have h3 := hpos d (by simp)
        simp only [Span.Apart, Span.stop] at h1
        simp only [ne_eq, decide_not, Bool.not_eq_true', decide_eq_false_iff_not]
        omega
      have hdrop : dropAt d.pos (d :: ds) = dropAt d.pos ds := by simp [dropAt]
      rw [hdrop, hrest, total_cons]
    · have hbds : b ∈ ds := by
        rcases List.mem_cons.mp hb with rfl | hb
        · exact absurd rfl heq
        · exact hb
      have hdrop : dropAt b.pos (d :: ds) = d :: dropAt b.pos ds := by simp [dropAt, heq]
      rw [hdrop, total_cons, total_cons, ih htail (fun e he => hpos e (by simp [he])) hbds]
      omega

end Drop

namespace Tiling

variable {lo hi : Nat} {free live : List Span} {b : Span}

theorem start (h : lo < hi) : Tiling lo hi [⟨lo, hi - lo⟩] [] where
  gapped := Gapped.cons_iff.mpr
    ⟨⟨Nat.le_refl _, by simp only; omega, by simp only [Span.stop]; omega⟩, by simp, Gapped.nil⟩
  bounds := by simp
  disjoint := List.Pairwise.nil
  apart := by simp
  sum := by simp
  cover x h1 h2 := by
    left
    simp only [covers_cons, covers_nil, Span.Has, Span.stop, or_false]
    omega

theorem pos_len (h : Tiling lo hi free live) : ∀ c ∈ live, 0 < c.len := fun c hc => (h.bounds c hc).2.1

/-- An address of the region is free exactly if no live span has it. -/
theorem free_iff (h : Tiling lo hi free live) {x : Nat} (h1 : lo ≤ x) (h2 : x < hi) :
    covers free x ↔ ¬ covers live x := by
  constructor
  · rintro ⟨f, hf, hfx⟩ ⟨b, hb, hbx⟩
    exact (h.apart f hf b hb).not_has hfx hbx
  · intro hn
    exact (h.cover x h1 h2).resolve_right hn

/-- A free span that becomes live. -/
theorem take {pre post : List Span} (h : Tiling lo hi (pre ++ b :: post) live) :
    Tiling lo hi (pre ++ post) (b :: live) where
  gapped := by
    have hsub : List.Sublist (pre ++ post) (pre ++ b :: post) :=
      List.Sublist.append_left (List.sublist_cons_self b post) pre
    exact ⟨fun c hc => h.gapped.bounds c (hsub.subset hc), h.gapped.order.sublist hsub⟩
  bounds := List.forall_mem_cons.mpr ⟨h.gapped.bounds b (by simp), h.bounds⟩
  disjoint := List.pairwise_cons.mpr ⟨h.apart b (by simp), h.disjoint⟩
  apart := by
    intro f hf c hc
    have hf' : f ∈ pre ++ b :: post := by
      rw [List.mem_append, List.mem_cons]
      rcases List.mem_append.mp hf with hf | hf
      · exact .inl hf
      · exact .inr (.inr hf)
    rcases List.mem_cons.mp hc with rfl | hc
    · rw [List.mem_append] at hf
      obtain ⟨-, hcons, hgap⟩ := List.pairwise_append.mp h.gapped.order
      rcases hf with hf | hf
      · exact .inl (Nat.le_of_lt (hgap f hf c (by simp)))
      · exact .inr (Nat.le_of_lt ((List.pairwise_cons.mp hcons).1 f hf))
    · exact h.apart f hf' c hc
  sum := by
    have := h.sum
    simp only [total_append, total_cons] at this ⊢
    omega
  cover x h1 h2 := by
    have := h.cover x h1 h2
    simp only [covers_append, covers_cons] at this ⊢
    tauto

/-- A live span in two parts. -/
theorem cut {w : Nat} (h : Tiling lo hi free (b :: live)) (hw : 0 < w) (hlt : w < b.len) :
    Tiling lo hi free (⟨b.pos + w, b.len - w⟩ :: ⟨b.pos, w⟩ :: live) where
  gapped := h.gapped
  bounds := by
    have hb := h.bounds b (by simp)
    refine List.forall_mem_cons.mpr ⟨?_, List.forall_mem_cons.mpr ⟨?_, fun c hc => ?_⟩⟩
    · simp only [Span.stop] at *
      omega
    · simp only [Span.stop] at *
      omega
    · exact h.bounds c (by simp [hc])
  disjoint := by
    obtain ⟨hb, hlive⟩ := List.pairwise_cons.mp h.disjoint
    refine List.pairwise_cons.mpr ⟨List.forall_mem_cons.mpr ⟨?_, fun c hc => ?_⟩,
      List.pairwise_cons.mpr ⟨fun c hc => ?_, hlive⟩⟩
    · simp only [Span.Apart, Span.stop]
      omega
    · have := hb c hc
      simp only [Span.Apart, Span.stop] at *
      omega
    · have := hb c hc
      simp only [Span.Apart, Span.stop] at *
      omega
  apart := by
    intro f hf
    have hfb := h.apart f hf b (by simp)
    refine List.forall_mem_cons.mpr ⟨?_, List.forall_mem_cons.mpr ⟨?_, fun c hc => ?_⟩⟩
    · simp only [Span.Apart, Span.stop] at *
      omega
    · simp only [Span.Apart, Span.stop] at *
      omega
    · exact h.apart f hf c (by simp [hc])
  sum := by
    have := h.sum
    simp only [total_cons] at this ⊢
    omega
  cover x h1 h2 := by
    have hcut : b.Has x ↔ (Span.mk (b.pos + w) (b.len - w)).Has x ∨ (Span.mk b.pos w).Has x := by
      simp only [Span.Has, Span.stop]
      omega
    have := h.cover x h1 h2
    simp only [covers_cons, hcut] at this ⊢
    tauto

/-- A live span that is given back. -/
theorem give (h : Tiling lo hi free live) (hb : b ∈ live) :
    Tiling lo hi (insertSpan free b) (dropAt b.pos live) := by
  have hother : ∀ c ∈ dropAt b.pos live, b.Apart c := by
    intro c hc
    obtain ⟨hc, hne⟩ := mem_dropAt.mp hc
    exact h.disjoint.forall hb hc fun heq => hne (by rw [heq])
  constructor
  case gapped => exact h.gapped.insertSpan_gapped (h.bounds b hb) fun c hc => h.apart c hc b hb
  case bounds => exact fun c hc => h.bounds c (mem_dropAt.mp hc).1
  case disjoint => exact h.disjoint.sublist List.filter_sublist
  case apart =>
    intro f hf c hc
    have hc' := (mem_dropAt.mp hc).1
    -- an address of both would be in a free span or in `b`
    rcases Nat.lt_or_ge f.pos c.stop with h1 | h1
    · rcases Nat.lt_or_ge c.pos f.stop with h2 | h2
      · exfalso
        have hcb := h.pos_len c hc'
        have hfb := ((h.gapped.insertSpan_gapped (h.bounds b hb)
          fun d hd => h.apart d hd b hb).bounds f hf).2.1
        have hfx : f.Has (max f.pos c.pos) := by
          simp only [Span.Has, Span.stop] at *
          omega
        have hcx : c.Has (max f.pos c.pos) := by
          simp only [Span.Has, Span.stop] at *
          omega
        rcases (covers_insertSpan free b _).mp ⟨f, hf, hfx⟩ with ⟨g, hg, hgx⟩ | hbx
        · exact (h.apart g hg c hc').not_has hgx hcx
        · exact (hother c hc).not_has hbx hcx
      · exact .inl h2
    · exact .inr h1
  case sum =>
    have h1 := h.sum
    have h2 := total_dropAt h.disjoint h.pos_len hb
    rw [total_insertSpan]
    omega
  case cover =>
    intro x h1 h2
    rw [covers_insertSpan]
    rcases h.cover x h1 h2 with hx | ⟨c, hc, hcx⟩
    · exact .inl (.inl hx)
    · by_cases heq : c.pos = b.pos
      · rw [eq_of_pos h.disjoint h.pos_len hc hb heq] at hcx
        exact .inl (.inr hcx)
      · exact .inr ⟨c, mem_dropAt.mpr ⟨hc, heq⟩, hcx⟩

/-- There is a free span of `w` addresses exactly if there are `w` addresses in a row that no live
span has. -/
theorem room_iff (h : Tiling lo hi free live) {w : Nat} (hw : 0 < w) :
    (∃ f ∈ free, w ≤ f.len) ↔
      ∃ p, lo ≤ p ∧ p + w ≤ hi ∧ ∀ x, p ≤ x → x < p + w → ¬ covers live x := by
  constructor
  · rintro ⟨f, hf, hfw⟩
    have hb := h.gapped.bounds f hf
    refine ⟨f.pos, hb.1, ?_, ?_⟩
    · simp only [Span.stop] at hb
      omega
    · intro x h1 h2
      have hx : covers free x := ⟨f, hf, h1, by simp only [Span.stop]; omega⟩
      have hb' := hb.2.2
      simp only [Span.stop] at hb'
      exact (h.free_iff (by omega) (by omega)).mp hx
  · rintro ⟨p, hlo, hhi, hno⟩
    have hcov : ∀ x, p ≤ x → x < p + w → covers free x := fun x h1 h2 =>
      (h.free_iff (by omega) (by omega)).mpr (hno x h1 h2)
    obtain ⟨f, hf, h1, h2⟩ := h.gapped.within hw hcov
    refine ⟨f, hf, ?_⟩
    simp only [Span.stop] at h2
    omega

/-- Without live spans the region is one free span. -/
theorem idle (h : Tiling lo hi free []) (hlt : lo < hi) : free = [⟨lo, hi - lo⟩] := by
  apply h.gapped.whole hlt
  intro x h1 h2
  have := h.cover x h1 h2
  simpa using this

end Tiling

end Storage
