import Air101.Heap.Calls
import Air101.Storage.Paths
import Mathlib.Data.List.Forall2

/-!
# Heap.Runs

Runs of calls to the allocator, by an application that frees and reallocates only what it has and
stores only in its blocks.

* `Contents`, `Spec`: what an allocator is for. The application sees a list of blocks with their
  bytes; a call adds a block, takes one away, or changes the bytes of one.
* `World`, `step`: the allocator with the blocks in use, as the calls of `wm_mem2.c` change them.
* `Inv`, `World.Good`: the heap is in order and the blocks in use are its live spans.
* `malloc_good`: what `pvPortMalloc` does in a world that is in order.
-/

namespace Air101
namespace Heap

open Storage

/-- A call, or a store of the application. -/
inductive Call where
  | alloc (size : Nat)
  | calloc (length size : Nat)
  | realloc (p size : Nat)
  | free (p : Nat)
  | write (a : Nat) (bs : List Byte)

/-! ## What an allocator is for -/

abbrev Contents := List (Nat × List Byte)

/-- The bytes of a block after a store at address `a`. -/
def put (a : Nat) (bs : List Byte) (b : Nat × List Byte) : Nat × List Byte :=
  if b.1 ≤ a ∧ a + bs.length ≤ b.1 + b.2.length then (b.1, patch b.2 (a - b.1) bs) else b

/-- A call takes the blocks `A` to others and returns `r`. -/
inductive Spec : Contents → Call → Nat → Contents → Prop where
  | noAlloc (A : Contents) (n : Nat) : Spec A (.alloc n) 0 A
  | noCalloc (A : Contents) (k n : Nat) : Spec A (.calloc k n) 0 A
  | noRealloc (A : Contents) (p n : Nat) : Spec A (.realloc p n) 0 A
  | alloc (A : Contents) (n r : Nat) : r ≠ 0 → (∀ b ∈ A, b.1 ≠ r) →
      Spec A (.alloc n) r ((r, List.replicate n 0#8) :: A)
  | calloc (A : Contents) (k n r : Nat) : r ≠ 0 → (∀ b ∈ A, b.1 ≠ r) →
      Spec A (.calloc k n) r ((r, List.replicate (k * n % 2 ^ 32) 0#8) :: A)
  | reallocNew (A : Contents) (n r : Nat) (new : List Byte) : r ≠ 0 → (∀ b ∈ A, b.1 ≠ r) →
      new.length = n → Spec A (.realloc 0 n) r ((r, new) :: A)
  | realloc (A : Contents) (p n r : Nat) (old new : List Byte) : r ≠ 0 → (∀ b ∈ A, b.1 ≠ r) →
      (p, old) ∈ A → new.length = n →
      new.take (min old.length n) = old.take (min old.length n) →
      Spec A (.realloc p n) r ((r, new) :: A.filter fun b => b.1 ≠ p)
  | free (A : Contents) (p : Nat) : Spec A (.free p) 0 (A.filter fun b => b.1 ≠ p)
  | write (A : Contents) (a : Nat) (bs : List Byte) : Spec A (.write a bs) 0 (A.map (put a bs))

/-! ## Runs -/

/-- The allocator, and the blocks in use with the sizes that were asked for. -/
structure World where
  s : State
  live : List (Nat × Nat)

/-- The application keeps to its blocks. -/
def Call.Ok (w : World) : Call → Prop
  | .alloc n => n < 2 ^ 32
  | .calloc k n => k < 2 ^ 32 ∧ n < 2 ^ 32
  | .realloc p n => (p = 0 ∨ ∃ m, (p, m) ∈ w.live) ∧ n < 2 ^ 32
  | .free p => p = 0 ∨ ∃ m, (p, m) ∈ w.live
  | .write a bs => ∃ p m, (p, m) ∈ w.live ∧ p ≤ a ∧ a + bs.length ≤ p + m

/-- The blocks in use once the allocator has returned `r`. -/
def handed (live : List (Nat × Nat)) (r n : Nat) : List (Nat × Nat) :=
  if r ≠ 0 then (r, n) :: live else live

/-- The result of a call and the world behind it; `none` if the call does not return. -/
def step (L : Linker) (w : World) : Call → Option (Nat × World)
  | .alloc n => do
    let (r, s) ← memAllocDebug L w.s n
    return (r, ⟨s, handed w.live r n⟩)
  | .calloc k n => do
    let (r, s) ← memCallocDebug L w.s k n
    return (r, ⟨s, handed w.live r (k * n % 2 ^ 32)⟩)
  | .realloc p n => do
    let (r, s) ← memReallocDebug L w.s p n
    return (r, ⟨s, if r ≠ 0 then (r, n) :: w.live.filter (fun b => b.1 ≠ p) else w.live⟩)
  | .free p => do
    let s ← memFreeDebug L w.s p
    return (0, ⟨s, w.live.filter fun b => b.1 ≠ p⟩)
  | .write a bs => some (0, ⟨{ w.s with ram := overlay w.s.ram a bs }, w.live⟩)

def Step (L : Linker) (w : World) (c : Call × Nat) (w' : World) : Prop :=
  c.1.Ok w ∧ step L w c.1 = some (c.2, w')

def World.start (ram : Nat → Byte) : World := ⟨State.reset ram, []⟩

def World.contents (w : World) : Contents := w.live.map fun p => (p.1, slice w.s.ram p.1 p.2)

/-- The addresses that belong to the blocks in use, their headers included. -/
def World.extents (w : World) : List Span :=
  w.live.map fun p => ⟨p.1 - 8, xBlockSize w.s.ram (p.1 - 8) - 2 ^ 31⟩

/-! ## The invariant -/

/-- A block in use and its span. -/
def Handle (b : Span) (p : Nat × Nat) : Prop := p.1 = b.pos + 8 ∧ p.2 + 8 ≤ b.len

structure Inv (L : Linker) (w : World) (free spans : List Span) : Prop where
  rep : Rep L w.s free spans
  handles : List.Forall₂ Handle spans w.live

def World.Good (L : Linker) (w : World) : Prop :=
  (w.s.pxEnd = 0 ∧ w.live = []) ∨ ∃ free spans, Inv L w free spans

def Preserved (live : List (Nat × Nat)) (ram ram' : Nat → Byte) : Prop :=
  ∀ p ∈ live, ∀ x, p.1 ≤ x → x < p.1 + p.2 → ram' x = ram x

theorem mem_of_forall₂ {α β : Type} {R : α → β → Prop} {as : List α} {bs : List β}
    (h : List.Forall₂ R as bs) {b : β} (hb : b ∈ bs) : ∃ a ∈ as, R a b := by
  induction h with
  | nil => simp at hb
  | @cons a b' as bs hr _ ih =>
    rcases List.mem_cons.mp hb with rfl | hb
    · exact ⟨a, by simp, hr⟩
    · obtain ⟨c, hc, hcr⟩ := ih hb
      exact ⟨c, by simp [hc], hcr⟩

section Good

variable {L : Linker} {w : World} {free spans : List Span}

theorem Inv.span (h : Inv L w free spans) {p : Nat × Nat} (hp : p ∈ w.live) :
    ∃ b ∈ spans, Handle b p := mem_of_forall₂ h.handles hp

/-- What is kept of the spans is kept of the blocks in use. -/
theorem Keeps.preserved {ram ram' : Nat → Byte} {bs : List Span} {live : List (Nat × Nat)}
    (h : Keeps L bs ram ram') (hh : List.Forall₂ Handle bs live) : Preserved live ram ram' := by
  intro p hp x h1 h2
  obtain ⟨b, hb, heq, hlen⟩ := mem_of_forall₂ hh hp
  refine h x (.inl ⟨b, hb, by omega, ?_⟩)
  simp only [Span.stop]
  omega

/-- The block freed is the one with this address, in both lists. -/
theorem handles_drop {bs : List Span} {live : List (Nat × Nat)} (h : List.Forall₂ Handle bs live)
    (q : Nat) : List.Forall₂ Handle (dropAt q bs) (live.filter fun p => p.1 ≠ q + 8) := by
  induction h with
  | nil => exact List.Forall₂.nil
  | @cons b p bs live hr _ ih =>
    have hiff : p.1 ≠ q + 8 ↔ b.pos ≠ q := by
      rw [hr.1]
      omega
    by_cases hq : b.pos = q
    · have hp : ¬ p.1 ≠ q + 8 := fun hp => hiff.mp hp hq
      simp only [dropAt] at ih ⊢
      rw [List.filter_cons_of_neg (by simpa using hq), List.filter_cons_of_neg (by simpa using hp)]
      exact ih
    · have hp : p.1 ≠ q + 8 := hiff.mpr hq
      simp only [dropAt] at ih ⊢
      rw [List.filter_cons_of_pos (by simpa using hq), List.filter_cons_of_pos (by simpa using hp)]
      exact .cons hr ih

/-- The live spans are those the headers of the blocks in use tell. -/
theorem Inv.extents_eq (h : Inv L w free spans) : w.extents = spans := by
  have hmarks : ∀ b ∈ spans, xBlockSize w.s.ram b.pos = b.len + 2 ^ 31 := fun b hb =>
    (h.rep.shape.marks b hb).1
  have hh := h.handles
  rw [World.extents]
  generalize w.live = live at hh
  clear h
  induction hh with
  | nil => rfl
  | @cons b p bs live hr _ ih =>
    obtain ⟨hpos, -⟩ := hr
    rw [List.map_cons, ih fun c hc => hmarks c (by simp [hc]), hpos, Nat.add_sub_cancel,
      hmarks b (by simp), Nat.add_sub_cancel]

/-- A store to a block in use. -/
theorem Inv.store (h : Inv L w free spans) {p : Nat × Nat} (hp : p ∈ w.live) {a : Nat} {bs : List Byte}
    (h1 : p.1 ≤ a) (h2 : a + bs.length ≤ p.1 + p.2) :
    Inv L ⟨{ w.s with ram := overlay w.s.ram a bs }, w.live⟩ free spans := by
  obtain ⟨b, hb, heq, hlen⟩ := h.span hp
  have hshape : Shape L (overlay w.s.ram a bs) free spans spans := by
    refine h.rep.shape.congr (fun c hc => hc) fun x hx => ?_
    by_contra hne
    have hin : a ≤ x ∧ x < a + bs.length := by
      by_contra hout
      exact hne (overlay_out (by omega))
    have hbx : b.Has x := by
      simp only [Span.Has, Span.stop]
      omega
    have := (hx b hb hbx).1
    omega
  exact ⟨⟨hshape, h.rep.pxEnd, h.rep.bit, h.rep.count, h.rep.minimum⟩, h.handles⟩

/-- The blocks in use do not overlap. -/
theorem Inv.apart (h : Inv L w free spans) :
    w.live.Pairwise fun p q => p.1 + p.2 + 8 ≤ q.1 ∨ q.1 + q.2 + 8 ≤ p.1 := by
  have hd := h.rep.shape.tiling.disjoint
  have hh := h.handles
  generalize w.live = live at hh
  clear h
  induction hh with
  | nil => exact List.Pairwise.nil
  | @cons b p bs live hr hrest ih =>
    obtain ⟨hb, hbs⟩ := List.pairwise_cons.mp hd
    refine List.pairwise_cons.mpr ⟨fun q hq => ?_, ih hbs⟩
    obtain ⟨c, hc, hcq⟩ := mem_of_forall₂ hrest hq
    have hbc := hb c hc
    simp only [Span.Apart, Span.stop, Handle] at *
    omega

theorem Inv.bounds (h : Inv L w free spans) {p : Nat × Nat} (hp : p ∈ w.live) :
    p.1 % 8 = 0 ∧ L.heapStart + 8 ≤ p.1 ∧ p.1 + p.2 + 8 ≤ L.heapEnd := by
  obtain ⟨b, hb, heq, hlen⟩ := h.span hp
  have := h.rep.shape.span (List.mem_append_right free hb)
  have := L.layout
  omega

/-- `pvPortMalloc` in a good world. -/
theorem malloc_good (h : w.Good L) {n : Nat} (hn : n < 2 ^ 32) :
    ∃ r s', pvPortMalloc L w.s n = some (r, s') ∧ Preserved w.live w.s.ram s'.ram ∧
      ((r = 0 ∧ ∃ free spans, Inv L ⟨s', w.live⟩ free spans ∧ w.extents = spans ∧
          (n = 0 ∨ 2 ^ 31 ≤ n ∨ ∀ f ∈ free, f.len < adjustedSize n)) ∨
        (r ≠ 0 ∧ 0 < n ∧ n < 2 ^ 31 ∧
          (∃ a, L.pucAlignedHeap ≤ a ∧ a + adjustedSize n ≤ L.endMarker ∧
            ∀ x, a ≤ x → x < a + adjustedSize n → ¬ covers w.extents x) ∧
          ∃ free b spans, Inv L ⟨s', (r, n) :: w.live⟩ free (b :: spans) ∧
            List.Forall₂ Handle spans w.live ∧ b.pos + 8 = r)) := by
  have hmain : ∀ s free spans, Rep L s free spans → List.Forall₂ Handle spans w.live →
      w.extents = spans → ∃ r s', pvPortMalloc L s n = some (r, s') ∧ Keeps L spans s.ram s'.ram ∧
      ((r = 0 ∧ ∃ free spans, Inv L ⟨s', w.live⟩ free spans ∧ w.extents = spans ∧
          (n = 0 ∨ 2 ^ 31 ≤ n ∨ ∀ f ∈ free, f.len < adjustedSize n)) ∨
        (r ≠ 0 ∧ 0 < n ∧ n < 2 ^ 31 ∧
          (∃ a, L.pucAlignedHeap ≤ a ∧ a + adjustedSize n ≤ L.endMarker ∧
            ∀ x, a ≤ x → x < a + adjustedSize n → ¬ covers w.extents x) ∧
          ∃ free b spans, Inv L ⟨s', (r, n) :: w.live⟩ free (b :: spans) ∧
            List.Forall₂ Handle spans w.live ∧ b.pos + 8 = r)) := by
    intro s free spans hrep hh hext
    obtain ⟨r, s', hcall, hres⟩ := malloc_rep hrep hn
    refine ⟨r, s', hcall, ?_⟩
    rcases hres with ⟨hr, rfl, hno⟩ | ⟨h0, h31, hroom, free', b, hbr, hw, hrep', hkeep⟩
    · exact ⟨Keeps.refl, .inl ⟨hr, free, spans, ⟨hrep, hh⟩, hext, hno⟩⟩
    · have hadj := adjustedSize_pos h0
      rw [hext]
      refine ⟨hkeep, .inr ⟨by omega, h0, h31, (hrep.shape.tiling.room_iff (by omega)).mp hroom, free', b,
        spans, ⟨hrep', .cons ⟨by omega, by simp only; omega⟩ hh⟩, hh, hbr⟩⟩
  rcases h with ⟨hend, hlive⟩ | ⟨free, spans, hinv⟩
  · -- the first call initialises the heap
    obtain ⟨hrep, -⟩ := init_rep L w.s
    have hend' : (prvHeapInit L w.s).pxEnd ≠ 0 := by
      rw [hrep.pxEnd]
      have := L.layout
      have := L.start_pos
      omega
    obtain ⟨r, s', hcall, -, hres⟩ := hmain _ _ [] hrep (by rw [hlive]; exact .nil)
      (by rw [World.extents, hlive]; rfl)
    refine ⟨r, s', ?_, by rw [hlive]; simp [Preserved], hres⟩
    rw [← hcall, pvPortMalloc, pvPortMalloc, if_pos hend, if_neg hend']
  · obtain ⟨r, s', hcall, hkeep, hres⟩ := hmain _ _ _ hinv.rep hinv.handles hinv.extents_eq
    exact ⟨r, s', hcall, hkeep.preserved hinv.handles, hres⟩

end Good

end Heap
end Air101
