import Air101.Heap.Links
import Air101.Storage.Tiling

/-!
# Heap.Inv

The invariant of the allocator and what each call does to it.

* `Shape L ram free live marked`: the RAM holds the list of the blocks `free`; they and the blocks
  `live` divide the heap; the headers of `marked` say that they belong to the application.
* `Rep L s free live`: the shape, with the counters.
* `Keeps L live ram ram'`: the bytes of the blocks `live`, and all bytes outside the heap but those of
  `xStart`, are as they were.
* `init_rep`: `prvHeapInit` makes the heap one free block.
* `insert_shape`: `prvInsertBlockIntoFreeList` returns, and the block is in the list.
-/

namespace Air101
namespace Heap

open Storage

/-! ## The region -/

theorem Linker.layout (L : Linker) : L.heapStart ≤ L.pucAlignedHeap ∧ L.pucAlignedHeap % 8 = 0 ∧
    L.pucAlignedHeap + 8 ≤ L.endMarker ∧ L.endMarker % 8 = 0 ∧ L.endMarker + 8 ≤ L.heapEnd := by
  have h1 := L.room
  have h2 := L.start_pos
  have hpuc : L.heapStart ≤ L.pucAlignedHeap ∧ L.pucAlignedHeap % 8 = 0 ∧
      L.pucAlignedHeap ≤ L.heapStart + 7 := by
    rw [Linker.pucAlignedHeap]
    split
    · omega
    · omega
  have htotal : L.pucAlignedHeap + L.totalHeapSize = L.heapEnd := by
    rw [Linker.totalHeapSize]
    split
    · omega
    · rw [Linker.pucAlignedHeap, if_neg (by assumption)]
      omega
  have hend : L.endMarker = (L.heapEnd - 8) / 8 * 8 := by
    rw [Linker.endMarker, htotal, xHeapStructSize]
  omega

/-- The list head as a block: it lies outside the heap and has size 0. -/
def Linker.headBlock (L : Linker) : Span := ⟨L.xStart, 0⟩

/-- The RAM holds the list `free`, which with `live` divides the heap; `marked` are allocated. -/
structure Shape (L : Linker) (ram : Nat → Byte) (free live marked : List Span) : Prop where
  linked : Linked ram L.xStart (L.headBlock :: free) L.endMarker
  endNext : pxNextFreeBlock ram L.endMarker = 0
  tiling : Tiling L.pucAlignedHeap L.endMarker free live
  grain : ∀ b ∈ free ++ live, b.pos % 8 = 0 ∧ b.len % 8 = 0
  marks : ∀ b ∈ marked, xBlockSize ram b.pos = b.len + 2 ^ 31 ∧ pxNextFreeBlock ram b.pos = 0

/-- The state of the allocator between two calls. -/
structure Rep (L : Linker) (s : State) (free live : List Span) : Prop where
  shape : Shape L s.ram free live live
  pxEnd : s.pxEnd = L.endMarker
  bit : s.xBlockAllocatedBit = 2 ^ 31
  count : s.xFreeBytesRemaining = total free
  minimum : s.xMinimumEverFreeBytesRemaining ≤ total free

/-- The bytes of the live blocks and those outside the heap are kept. -/
def Keeps (L : Linker) (live : List Span) (ram ram' : Nat → Byte) : Prop :=
  ∀ x, (covers live x ∨
    ((x < L.heapStart ∨ L.heapEnd ≤ x) ∧ (x < L.xStart ∨ L.xStart + 8 ≤ x))) → ram' x = ram x

theorem Keeps.refl {L : Linker} {live : List Span} {ram : Nat → Byte} : Keeps L live ram ram :=
  fun _ _ => rfl

theorem Keeps.trans {L : Linker} {live : List Span} {ram ram' ram'' : Nat → Byte}
    (h1 : Keeps L live ram ram') (h2 : Keeps L live ram' ram'') : Keeps L live ram ram'' :=
  fun x hx => (h2 x hx).trans (h1 x hx)

/-- Stores to `xStart` and to headers apart from the live blocks. -/
theorem Same.keeps {L : Linker} {live : List Span} {ram ram' : Nat → Byte} {hs : List Nat}
    (h : Same hs ram ram')
    (hin : ∀ c ∈ live, L.pucAlignedHeap ≤ c.pos ∧ c.stop ≤ L.endMarker)
    (hhs : ∀ a ∈ hs, a = L.xStart ∨ (L.pucAlignedHeap ≤ a ∧ a ≤ L.endMarker ∧
      ∀ c ∈ live, a + 8 ≤ c.pos ∨ c.stop ≤ a)) : Keeps L live ram ram' := by
  have hlay := L.layout
  have hhead := L.head_apart
  intro x hx
  refine h x fun a ha => ?_
  rcases hx with ⟨c, hc, hcx⟩ | ⟨hx1, hx2⟩
  · have hcin := hin c hc
    simp only [Span.Has] at hcx
    rcases hhs a ha with rfl | ⟨-, -, hout⟩
    · omega
    · have := hout c hc
      omega
  · rcases hhs a ha with rfl | ⟨h1, h2, -⟩
    · exact hx2
    · omega

section Facts

variable {L : Linker} {ram : Nat → Byte} {free live marked : List Span}

theorem Shape.span (h : Shape L ram free live marked) {b : Span} (hb : b ∈ free ++ live) :
    L.pucAlignedHeap ≤ b.pos ∧ 8 ≤ b.len ∧ b.pos + b.len ≤ L.endMarker ∧ b.pos % 8 = 0 ∧
      b.len % 8 = 0 := by
  have hg := h.grain b hb
  have hbounds : L.pucAlignedHeap ≤ b.pos ∧ 0 < b.len ∧ b.stop ≤ L.endMarker := by
    rcases List.mem_append.mp hb with hb | hb
    · exact h.tiling.gapped.bounds b hb
    · exact h.tiling.bounds b hb
  simp only [Span.stop] at hbounds
  omega

/-- The headers of the list do not overlap. -/
theorem Shape.spread (h : Shape L ram free live marked) :
    Spread (L.xStart :: free.map Span.pos) := by
  have hlay := L.layout
  have hhead := L.head_apart
  refine List.pairwise_cons.mpr ⟨fun q hq => ?_, ?_⟩
  · obtain ⟨b, hb, rfl⟩ := List.mem_map.mp hq
    have := h.span (List.mem_append_left live hb)
    omega
  · rw [List.pairwise_map]
    refine List.Pairwise.imp_of_mem ?_ h.tiling.gapped.order
    intro b c hb hc hbc
    have := h.span (List.mem_append_left live hb)
    simp only [Span.stop] at hbc
    omega

/-- The header of a live block lies apart from those of the list. -/
theorem Shape.spread_live (h : Shape L ram free live marked) {b : Span} (hb : b ∈ live) :
    Spread (b.pos :: L.xStart :: free.map Span.pos) := by
  have hlay := L.layout
  have hhead := L.head_apart
  have hspan := h.span (List.mem_append_right free hb)
  refine List.pairwise_cons.mpr ⟨?_, h.spread⟩
  intro q hq
  rcases List.mem_cons.mp hq with rfl | hq
  · omega
  · obtain ⟨f, hf, rfl⟩ := List.mem_map.mp hq
    have hapart := h.tiling.apart f hf b hb
    have hfspan := h.span (List.mem_append_left live hf)
    simp only [Span.Apart, Span.stop] at hapart
    omega

theorem Shape.total_lt (h : Shape L ram free live marked) : total free + total live < 2 ^ 31 := by
  have := h.tiling.sum
  have := L.layout
  have := L.top
  omega

theorem total_map_len_le {bs : List Span} (h : ∀ b ∈ bs, 0 < b.len) : bs.length ≤ total bs := by
  induction bs with
  | nil => simp
  | cons b bs ih =>
    have h1 := h b (by simp)
    have h2 := ih fun c hc => h c (by simp [hc])
    rw [total_cons, List.length_cons]
    omega

/-- The walks over the list end. -/
theorem Shape.length_lt (h : Shape L ram free live marked) : free.length < L.heapEnd := by
  have h1 := total_map_len_le fun b hb => (h.tiling.gapped.bounds b hb).2.1
  have := h.tiling.sum
  have := L.layout
  omega

/-- What lies in the heap and outside a list of live blocks may be stored to. -/
theorem Shape.keeps {ram ram' : Nat → Byte} {hs : List Nat} {others : List Span}
    (h : Shape L ram free live marked) (hsame : Same hs ram ram')
    (hsub : ∀ c ∈ others, c ∈ live)
    (hhs : ∀ a ∈ hs, a = L.xStart ∨ (∃ f ∈ free, a = f.pos) ∨
      ∃ b ∈ live, a = b.pos ∧ ∀ c ∈ others, b.Apart c) :
    Keeps L others ram ram' := by
  refine hsame.keeps (fun c hc => ?_) fun a ha => ?_
  · have := h.tiling.bounds c (hsub c hc)
    exact ⟨this.1, this.2.2⟩
  · rcases hhs a ha with rfl | ⟨f, hf, rfl⟩ | ⟨b, hb, rfl, hb'⟩
    · exact .inl rfl
    · have hspan := h.span (List.mem_append_left live hf)
      refine .inr ⟨hspan.1, by omega, fun c hc => ?_⟩
      have := h.tiling.apart f hf c (hsub c hc)
      simp only [Span.Apart, Span.stop] at *
      omega
    · have hspan := h.span (List.mem_append_right free hb)
      refine .inr ⟨hspan.1, by omega, fun c hc => ?_⟩
      have := hb' c hc
      simp only [Span.Apart, Span.stop] at *
      omega

end Facts

/-! ## Initialisation -/

theorem init_rep (L : Linker) (s : State) :
    Rep L (prvHeapInit L s) [⟨L.pucAlignedHeap, L.endMarker - L.pucAlignedHeap⟩] [] ∧
      Keeps L [] s.ram (prvHeapInit L s).ram := by
  have hlay := L.layout
  have hhead := L.head_apart
  have htop := L.top
  have hss : Sep L.xStart L.xStart := .inl rfl
  have hee : Sep L.endMarker L.endMarker := .inl rfl
  have hpp : Sep L.pucAlignedHeap L.pucAlignedHeap := .inl rfl
  have hes : Sep L.endMarker L.xStart := .inr (by omega)
  have hps : Sep L.pucAlignedHeap L.xStart := .inr (by omega)
  have hpe : Sep L.pucAlignedHeap L.endMarker := .inr (by omega)
  have hxs : L.xStart ≠ L.endMarker := by omega
  have hxp : L.xStart ≠ L.pucAlignedHeap := by omega
  have hep : L.endMarker ≠ L.pucAlignedHeap := by omega
  have hb1 : L.pucAlignedHeap < 2 ^ 32 := by omega
  have hb2 : L.endMarker < 2 ^ 32 := by omega
  have hb3 : L.endMarker - L.pucAlignedHeap < 2 ^ 32 := by omega
  have hsame : Same [L.xStart, L.endMarker, L.pucAlignedHeap] s.ram (prvHeapInit L s).ram := by
    simp only [prvHeapInit]
    exact (((((Same.setNext (by simp)).trans (Same.setSize (by simp))).trans
      (Same.setSize (by simp))).trans (Same.setNext (by simp))).trans
      (Same.setSize (by simp))).trans (Same.setNext (by simp))
  have hsize : xBlockSize (prvHeapInit L s).ram L.pucAlignedHeap = L.endMarker - L.pucAlignedHeap := by
    simp only [prvHeapInit]
    rw [size_setNext hpp, size_setSize hb3 hpp, if_pos rfl]
  have hcount : (prvHeapInit L s).xFreeBytesRemaining = L.endMarker - L.pucAlignedHeap := hsize
  have hmin : (prvHeapInit L s).xMinimumEverFreeBytesRemaining = L.endMarker - L.pucAlignedHeap :=
    hsize
  have hlt : L.pucAlignedHeap < L.endMarker := by omega
  have htile := Tiling.start hlt
  refine ⟨⟨⟨⟨rfl, ?_, ?_, ?_, ?_⟩, ?_, htile, ?_, by simp⟩, rfl, rfl, ?_, ?_⟩, ?_⟩
  · simp only [prvHeapInit]
    rw [size_setNext hps, size_setSize hb3 hps, if_neg hxp, size_setNext hes,
      size_setSize (by omega) hes, if_neg hxs, size_setSize (by omega) hss, if_pos rfl]
    rfl
  · simp only [prvHeapInit]
    rw [next_setNext hb2 hps, if_neg hxp, next_setSize hps, next_setNext (by omega) hes, if_neg hxs,
      next_setSize hes, next_setSize hss, next_setNext hb1 hss, if_pos rfl]
  · have hnext : pxNextFreeBlock (prvHeapInit L s).ram L.xStart = L.pucAlignedHeap := by
      simp only [prvHeapInit]
      rw [next_setNext hb2 hps, if_neg hxp, next_setSize hps, next_setNext (by omega) hes,
        if_neg hxs, next_setSize hes, next_setSize hss, next_setNext hb1 hss, if_pos rfl]
    rw [hnext, hsize]
  · have hnext : pxNextFreeBlock (prvHeapInit L s).ram L.xStart = L.pucAlignedHeap := by
      simp only [prvHeapInit]
      rw [next_setNext hb2 hps, if_neg hxp, next_setSize hps, next_setNext (by omega) hes,
        if_neg hxs, next_setSize hes, next_setSize hss, next_setNext hb1 hss, if_pos rfl]
    rw [hnext]
    simp only [prvHeapInit, Linked]
    rw [next_setNext hb2 hpp, if_pos rfl]
  · simp only [prvHeapInit]
    rw [next_setNext hb2 hpe, if_neg hep, next_setSize hpe, next_setNext (by omega) hee, if_pos rfl]
  · intro b hb
    rw [List.append_nil, List.mem_singleton] at hb
    rw [hb]
    simp only
    omega
  · rw [hcount]
    simp
  · rw [hmin]
    simp
  · refine hsame.keeps (by simp) fun a ha => ?_
    simp only [List.mem_cons, List.not_mem_nil, or_false] at ha
    rcases ha with rfl | rfl | rfl
    · exact .inl rfl
    · exact .inr ⟨by omega, by omega, by simp⟩
    · exact .inr ⟨by omega, by omega, by simp⟩

/-! ## Giving a block back -/

/-- The insertion of a block that no one uses. -/
theorem insert_shape {L : Linker} {s : State} {free live marked : List Span} {b : Span}
    (h : Shape L s.ram free live marked) (hend : s.pxEnd = L.endMarker) (hb : b ∈ live)
    (hsize : xBlockSize s.ram b.pos = b.len) (hmarked : ∀ c ∈ marked, c ∈ dropAt b.pos live) :
    ∃ ram', prvInsertBlockIntoFreeList L s b.pos = some { s with ram := ram' } ∧
      Shape L ram' (insertSpan free b) (dropAt b.pos live) marked ∧
      Keeps L (dropAt b.pos live) s.ram ram' := by
  have hlay := L.layout
  have htop := L.top
  have hhead := L.head_apart
  have hspan := h.span (List.mem_append_right free hb)
  have htotal := h.total_lt
  have hble := le_total hb
  have hother : ∀ c ∈ dropAt b.pos live, b.Apart c := by
    intro c hc
    obtain ⟨hc, hne⟩ := mem_dropAt.mp hc
    exact h.tiling.disjoint.forall hb hc fun heq => hne (by rw [heq])
  obtain ⟨it, hit, hwalk, hlink, hsame⟩ := insert_walk (b := b) (c := L.headBlock) h.linked
    h.length_lt hsize
    (h.spread_live hb) (by omega)
    (fun d hd => by
      have := h.span (List.mem_append_left live hd)
      omega)
    (by omega)
    (by
      have : total (L.headBlock :: free) = total free := by simp [Linker.headBlock]
      omega)
    (by omega)
    (fun d hd => by
      have := h.span (List.mem_append_left live hd)
      omega)
  have hins : insertBehind L.headBlock free b = L.headBlock :: insertSpan free b := by
    apply insertBehind_apart h.tiling.gapped.order
    · intro d hd heq
      have hapart := h.tiling.apart d hd b hb
      have hdspan := h.span (List.mem_append_left live hd)
      simp only [Span.Apart, Span.stop] at hapart
      omega
    · simp only [Linker.headBlock, Span.stop]
      omega
  rw [hins] at hlink
  have hhdr : ∀ a ∈ [it, b.pos], a = L.xStart ∨ (∃ f ∈ free, a = f.pos) ∨
      ∃ d ∈ live, a = d.pos ∧ ∀ c ∈ dropAt b.pos live, d.Apart c := by
    intro a ha
    rcases List.mem_cons.mp ha with rfl | ha
    · rcases List.mem_cons.mp hit with heq | hit
      · exact .inl heq
      · obtain ⟨f, hf, heq⟩ := List.mem_map.mp hit
        exact .inr (.inl ⟨f, hf, heq.symm⟩)
    · exact .inr (.inr ⟨b, hb, List.mem_singleton.mp ha, hother⟩)
  have hkeeps : Keeps L (dropAt b.pos live) s.ram (insertAt s.ram L.endMarker it b.pos) :=
    h.keeps hsame (fun c hc => (mem_dropAt.mp hc).1) hhdr
  -- the headers of the other live blocks are among the bytes that are kept
  have hword : ∀ c ∈ dropAt b.pos live, ∀ a ∈ [it, b.pos], c.pos + 8 ≤ a ∨ a + 8 ≤ c.pos := by
    intro c hc a ha
    have hclive := (mem_dropAt.mp hc).1
    have hcspan := h.span (List.mem_append_right free hclive)
    rcases hhdr a ha with rfl | ⟨f, hf, rfl⟩ | ⟨d, hd, rfl, hdc⟩
    · omega
    · have hapart := h.tiling.apart f hf c hclive
      have hfspan := h.span (List.mem_append_left live hf)
      simp only [Span.Apart, Span.stop] at hapart
      omega
    · have hapart := hdc c hc
      have hdspan := h.span (List.mem_append_right free hd)
      simp only [Span.Apart, Span.stop] at hapart
      omega
  have hendout : ∀ a ∈ [it, b.pos], L.endMarker + 8 ≤ a ∨ a + 8 ≤ L.endMarker := by
    intro a ha
    rcases hhdr a ha with rfl | ⟨f, hf, rfl⟩ | ⟨d, hd, rfl, -⟩
    · omega
    · have := h.span (List.mem_append_left live hf)
      omega
    · have := h.span (List.mem_append_right free hd)
      omega
  have htile := h.tiling.give hb
  refine ⟨_, ?_, ⟨hlink, ?_, htile, ?_, ?_⟩, hkeeps⟩
  · simp [prvInsertBlockIntoFreeList, show insertionPoint s.ram b.pos L.heapEnd L.xStart = some it
      from hwalk, hend]
  · rw [hsame.next hendout]
    exact h.endNext
  · intro c hc
    rcases List.mem_append.mp hc with hc | hc
    · exact insertSpan_mod (fun d hd => h.grain d (List.mem_append_left live hd))
        (h.grain b (List.mem_append_right free hb)) c hc
    · exact h.grain c (List.mem_append_right free (mem_dropAt.mp hc).1)
  · intro c hc
    have hcd := hmarked c hc
    rw [hsame.size (hword c hcd), hsame.next (hword c hcd)]
    exact h.marks c hc

end Heap
end Air101
