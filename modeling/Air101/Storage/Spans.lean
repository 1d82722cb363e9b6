import Mathlib.Algebra.GroupWithZero.Nat
import Mathlib.Data.List.Pairwise
import Mathlib.Data.List.Basic
import Mathlib.Tactic.Common

/-!
# Storage.Spans

Spans of addresses, and lists of them in ascending order with gaps between them, as the free list
of an allocator that merges neighbours keeps them.

* `Gapped lo hi bs`: the spans of `bs` lie between `lo` and `hi`, are not empty, ascend, and no two
  of them touch.
* `insertSpan bs b`: `b` put at its place, merged with the span in front of it and the span behind
  it where they touch. It keeps `Gapped` and adds the cells of `b` and no others
  (`insertSpan_gapped`, `covers_insertSpan`, `total_insertSpan`).
* `Gapped.within`: a range all of whose cells are covered lies in one of the spans.
* `Gapped.whole`: spans that cover the whole region are one span.
-/

namespace Storage

/-- The addresses from `pos` on, `len` of them. -/
structure Span where
  pos : Nat
  len : Nat
deriving DecidableEq, Repr

namespace Span

/-- The first address behind a span. -/
def stop (b : Span) : Nat := b.pos + b.len

/-- Address `x` lies in the span. -/
def Has (b : Span) (x : Nat) : Prop := b.pos ≤ x ∧ x < b.stop

/-- Two spans have no address in common. -/
def Apart (b c : Span) : Prop := b.stop ≤ c.pos ∨ c.stop ≤ b.pos

@[simp] theorem stop_mk (p n : Nat) : (Span.mk p n).stop = p + n := rfl

theorem Apart.symm {b c : Span} (h : b.Apart c) : c.Apart b := Or.symm h

instance : Std.Symm Apart := ⟨fun _ _ => Apart.symm⟩

theorem Apart.not_has {b c : Span} (h : b.Apart c) {x : Nat} (hb : b.Has x) : ¬ c.Has x := by
  simp only [Apart, Has, stop] at *
  omega

end Span

/-- Some span of the list has the address. -/
def covers (bs : List Span) (x : Nat) : Prop := ∃ b ∈ bs, b.Has x

/-- The number of addresses of the spans. -/
def total (bs : List Span) : Nat := (bs.map Span.len).sum

/-- Ascending spans between `lo` and `hi`, none empty, no two touching. -/
structure Gapped (lo hi : Nat) (bs : List Span) : Prop where
  bounds : ∀ b ∈ bs, lo ≤ b.pos ∧ 0 < b.len ∧ b.stop ≤ hi
  order : bs.Pairwise fun b c => b.stop < c.pos

@[simp] theorem covers_nil (x : Nat) : covers [] x ↔ False := by simp [covers]

@[simp] theorem covers_cons (b : Span) (bs : List Span) (x : Nat) :
    covers (b :: bs) x ↔ b.Has x ∨ covers bs x := by simp [covers]

@[simp] theorem covers_append (bs cs : List Span) (x : Nat) :
    covers (bs ++ cs) x ↔ covers bs x ∨ covers cs x := by
  simp only [covers, List.mem_append, or_and_right, exists_or]

@[simp] theorem total_nil : total [] = 0 := rfl

@[simp] theorem total_cons (b : Span) (bs : List Span) : total (b :: bs) = b.len + total bs := by
  simp [total]

@[simp] theorem total_append (bs cs : List Span) : total (bs ++ cs) = total bs + total cs := by
  simp [total]

theorem le_total {b : Span} {bs : List Span} (h : b ∈ bs) : b.len ≤ total bs := by
  induction bs with
  | nil => simp at h
  | cons c cs ih =>
    rw [total_cons]
    rcases List.mem_cons.mp h with rfl | h
    · omega
    · have := ih h
      omega

/-! ## Inserting a span -/

/-- `b` in front of the spans, merged with the first of them where they touch. -/
def joinRight (b : Span) : List Span → List Span
  | [] => [b]
  | d :: ds => if b.stop = d.pos then ⟨b.pos, b.len + d.len⟩ :: ds else b :: d :: ds

/-- `b` at its place among the spans, merged with its neighbours where they touch. -/
def insertSpan : List Span → Span → List Span
  | [], b => [b]
  | c :: cs, b =>
    if b.pos < c.pos then joinRight b (c :: cs)
    else if c.stop = b.pos then joinRight ⟨c.pos, c.len + b.len⟩ cs
    else c :: insertSpan cs b

theorem total_joinRight (b : Span) (bs : List Span) : total (joinRight b bs) = b.len + total bs := by
  cases bs with
  | nil => rfl
  | cons d ds =>
    rw [joinRight]
    split
    · simp only [total_cons]
      omega
    · simp

/-- Every span of `joinRight` begins where an old one does or where `b` does. -/
theorem pos_joinRight {b c : Span} {bs : List Span} (hc : c ∈ joinRight b bs) :
    c.pos = b.pos ∨ ∃ d ∈ bs, c.pos = d.pos := by
  cases bs with
  | nil =>
    rw [joinRight, List.mem_singleton] at hc
    exact .inl (by rw [hc])
  | cons d ds =>
    rw [joinRight] at hc
    split at hc
    · rcases List.mem_cons.mp hc with rfl | hc
      · exact .inl rfl
      · exact .inr ⟨c, List.mem_cons_of_mem _ hc, rfl⟩
    · rcases List.mem_cons.mp hc with rfl | hc
      · exact .inl rfl
      · exact .inr ⟨c, hc, rfl⟩

theorem total_insertSpan (bs : List Span) (b : Span) :
    total (insertSpan bs b) = total bs + b.len := by
  induction bs with
  | nil => simp [insertSpan]
  | cons c cs ih =>
    rw [insertSpan]
    split
    · rw [total_joinRight]
      omega
    · split
      · simp only [total_joinRight, total_cons]
        omega
      · rw [total_cons, total_cons, ih]
        omega

theorem covers_joinRight (b : Span) (bs : List Span) (x : Nat) :
    covers (joinRight b bs) x ↔ b.Has x ∨ covers bs x := by
  cases bs with
  | nil => simp [joinRight]
  | cons d ds =>
    rw [joinRight]
    split
    case isTrue h =>
      simp only [covers_cons, Span.Has, Span.stop] at h ⊢
      rw [← or_assoc]
      apply or_congr_left
      omega
    case isFalse => simp

theorem covers_insertSpan (bs : List Span) (b : Span) (x : Nat) :
    covers (insertSpan bs b) x ↔ covers bs x ∨ b.Has x := by
  induction bs with
  | nil => simp [insertSpan]
  | cons c cs ih =>
    rw [insertSpan]
    split
    · rw [covers_joinRight, or_comm]
    · split
      case isTrue h =>
        have hjoin : (Span.mk c.pos (c.len + b.len)).Has x ↔ c.Has x ∨ b.Has x := by
          simp only [Span.Has, Span.stop] at h ⊢
          omega
        rw [covers_joinRight, hjoin, covers_cons, or_assoc, or_assoc, or_comm (a := b.Has x)]
      case isFalse => rw [covers_cons, covers_cons, ih, or_assoc]

/-- Spans that begin and end at multiples of a number stay so. -/
theorem joinRight_mod {k : Nat} {b : Span} {bs : List Span}
    (h : ∀ c ∈ bs, c.pos % k = 0 ∧ c.len % k = 0) (hb : b.pos % k = 0 ∧ b.len % k = 0) :
    ∀ c ∈ joinRight b bs, c.pos % k = 0 ∧ c.len % k = 0 := by
  cases bs with
  | nil => simpa [joinRight] using hb
  | cons d ds =>
    rw [List.forall_mem_cons] at h
    rw [joinRight]
    split
    · refine List.forall_mem_cons.mpr ⟨⟨hb.1, ?_⟩, h.2⟩
      rw [Nat.add_mod, hb.2, h.1.2]
      simp
    · exact List.forall_mem_cons.mpr ⟨hb, List.forall_mem_cons.mpr h⟩

theorem insertSpan_mod {k : Nat} {b : Span} {bs : List Span}
    (h : ∀ c ∈ bs, c.pos % k = 0 ∧ c.len % k = 0) (hb : b.pos % k = 0 ∧ b.len % k = 0) :
    ∀ c ∈ insertSpan bs b, c.pos % k = 0 ∧ c.len % k = 0 := by
  induction bs with
  | nil => simpa [insertSpan] using hb
  | cons d ds ih =>
    obtain ⟨hd, hds⟩ := List.forall_mem_cons.mp h
    rw [insertSpan]
    split
    · exact joinRight_mod h hb
    · split
      · refine joinRight_mod hds ⟨hd.1, ?_⟩
        rw [Nat.add_mod, hd.2, hb.2]
        simp
      · exact List.forall_mem_cons.mpr ⟨hd, ih hds⟩

namespace Gapped

variable {lo hi : Nat} {b : Span} {bs : List Span}

theorem nil : Gapped lo hi [] := ⟨by simp, List.Pairwise.nil⟩

theorem cons_iff : Gapped lo hi (b :: bs) ↔
    (lo ≤ b.pos ∧ 0 < b.len ∧ b.stop ≤ hi) ∧ (∀ c ∈ bs, b.stop < c.pos) ∧ Gapped lo hi bs := by
  constructor
  · rintro ⟨hb, ho⟩
    rw [List.forall_mem_cons] at hb
    rw [List.pairwise_cons] at ho
    exact ⟨hb.1, ho.1, hb.2, ho.2⟩
  · rintro ⟨h1, h2, h3⟩
    exact ⟨List.forall_mem_cons.mpr ⟨h1, h3.bounds⟩, List.pairwise_cons.mpr ⟨h2, h3.order⟩⟩

/-- Any two spans are the same or lie apart with a gap. -/
theorem eq_or_gap (h : Gapped lo hi bs) {c d : Span} (hc : c ∈ bs) (hd : d ∈ bs) :
    c = d ∨ c.stop < d.pos ∨ d.stop < c.pos := by
  induction bs with
  | nil => simp at hc
  | cons b bs ih =>
    obtain ⟨-, hgap, hrest⟩ := cons_iff.mp h
    rcases List.mem_cons.mp hc with rfl | hc
    · rcases List.mem_cons.mp hd with rfl | hd
      · exact .inl rfl
      · exact .inr (.inl (hgap d hd))
    · rcases List.mem_cons.mp hd with hdb | hd
      · rw [hdb]
        exact .inr (.inr (hgap c hc))
      · exact ih hrest hc hd

/-- A range all of whose addresses are covered lies in one of the spans. -/
theorem within (h : Gapped lo hi bs) {p w : Nat} (hw : 0 < w)
    (hcov : ∀ x, p ≤ x → x < p + w → covers bs x) : ∃ b ∈ bs, b.pos ≤ p ∧ p + w ≤ b.stop := by
  obtain ⟨b, hb, hlo, hhi⟩ := hcov p (Nat.le_refl _) (by omega)
  refine ⟨b, hb, hlo, ?_⟩
  by_contra hlt
  -- the first address behind `b` would be in another span, which does not touch `b`
  obtain ⟨c, hc, hclo, hchi⟩ := hcov b.stop (by omega) (by omega)
  rcases h.eq_or_gap hb hc with rfl | hgap | hgap
  · omega
  · omega
  · simp only [Span.stop] at *
    omega

/-- Spans that cover the whole region are one span. -/
theorem whole (h : Gapped lo hi bs) (hlt : lo < hi) (hcov : ∀ x, lo ≤ x → x < hi → covers bs x) :
    bs = [⟨lo, hi - lo⟩] := by
  obtain ⟨b, hb, hlo, hhi⟩ :=
    h.within (p := lo) (w := hi - lo) (by omega) fun x h1 h2 => hcov x h1 (by omega)
  have hbb := h.bounds b hb
  have heq : b = ⟨lo, hi - lo⟩ := by
    cases b
    simp only [Span.stop, Span.mk.injEq] at *
    omega
  have hall : ∀ c ∈ bs, c = b := by
    intro c hc
    have hcb := h.bounds c hc
    rcases h.eq_or_gap hc hb with h | h | h
    · exact h
    · simp only [Span.stop] at *
      omega
    · simp only [Span.stop] at *
      omega
  have hone : bs.length ≤ 1 := by
    rcases bs with _ | ⟨c, _ | ⟨d, ds⟩⟩
    · simp
    · simp
    · have hc := hall c (by simp)
      have hd := hall d (by simp)
      have hgap := (cons_iff.mp h).2.1 d (by simp)
      rw [hc, hd] at hgap
      simp only [Span.stop] at *
      omega
  rcases bs with _ | ⟨c, _ | ⟨d, ds⟩⟩
  · simp at hb
  · rw [hall c (by simp), heq]
  · simp at hone

theorem joinRight_mk (h : Gapped lo hi bs) (hb : lo ≤ b.pos ∧ 0 < b.len ∧ b.stop ≤ hi)
    (hle : ∀ c ∈ bs, b.stop ≤ c.pos) : Gapped lo hi (joinRight b bs) := by
  cases bs with
  | nil => exact cons_iff.mpr ⟨hb, by simp, nil⟩
  | cons d ds =>
    obtain ⟨hd, hgap, hds⟩ := cons_iff.mp h
    rw [joinRight]
    split
    case isTrue heq =>
      refine cons_iff.mpr ⟨?_, ?_, hds⟩
      · simp only [Span.stop] at *
        omega
      · intro c hc
        have := hgap c hc
        simp only [Span.stop] at *
        omega
    case isFalse hne =>
      have hd' := hle d (by simp)
      refine cons_iff.mpr ⟨hb, ?_, h⟩
      intro c hc
      rcases List.mem_cons.mp hc with rfl | hc
      · omega
      · have := hgap c hc
        simp only [Span.stop] at *
        omega

/-- Every span of an insertion begins where an old one does or where `b` does. -/
theorem pos_insertSpan {c : Span} (hc : c ∈ insertSpan bs b) :
    c.pos = b.pos ∨ ∃ d ∈ bs, c.pos = d.pos := by
  induction bs with
  | nil =>
    rw [insertSpan, List.mem_singleton] at hc
    exact .inl (by rw [hc])
  | cons d ds ih =>
    rw [insertSpan] at hc
    split at hc
    · exact pos_joinRight hc
    · split at hc
      · rcases pos_joinRight hc with h | ⟨e, he, h⟩
        · exact .inr ⟨d, by simp, h⟩
        · exact .inr ⟨e, List.mem_cons_of_mem _ he, h⟩
      · rcases List.mem_cons.mp hc with rfl | hc
        · exact .inr ⟨c, by simp, rfl⟩
        · rcases ih hc with h | ⟨e, he, h⟩
          · exact .inl h
          · exact .inr ⟨e, List.mem_cons_of_mem _ he, h⟩

theorem insertSpan_gapped (h : Gapped lo hi bs) (hb : lo ≤ b.pos ∧ 0 < b.len ∧ b.stop ≤ hi)
    (hapart : ∀ c ∈ bs, c.Apart b) : Gapped lo hi (insertSpan bs b) := by
  induction bs with
  | nil => exact cons_iff.mpr ⟨hb, by simp, nil⟩
  | cons c cs ih =>
    obtain ⟨hc, hgap, hcs⟩ := cons_iff.mp h
    have hcb := hapart c (by simp)
    have hbehind : ∀ d ∈ cs, c.stop ≤ b.pos → d.Apart b := fun d hd _ => hapart d (by simp [hd])
    rw [insertSpan]
    split
    case isTrue hlt =>
      refine joinRight_mk h hb fun d hd => ?_
      rcases List.mem_cons.mp hd with rfl | hd
      · simp only [Span.Apart, Span.stop] at *
        omega
      · have := hgap d hd
        simp only [Span.Apart, Span.stop] at *
        omega
    case isFalse hge =>
      split
      case isTrue heq =>
        refine joinRight_mk hcs ?_ fun d hd => ?_
        · simp only [Span.stop] at *
          omega
        · have h1 := hgap d hd
          have h2 := hapart d (by simp [hd])
          have h3 := hcs.bounds d hd
          simp only [Span.Apart, Span.stop] at *
          omega
      case isFalse hne =>
        refine cons_iff.mpr ⟨hc, fun d hd => ?_, ih hcs fun d hd => hapart d (by simp [hd])⟩
        rcases pos_insertSpan hd with hpos | ⟨e, he, hpos⟩
        · simp only [Span.Apart, Span.stop] at *
          omega
        · have := hgap e he
          simp only [Span.stop] at *
          omega

end Gapped

end Storage
