import Air101.Heap.Steps

/-!
# Heap.Refinement

What an application can rely on, whatever calls it has made.

* `heap_blocks`: the next call returns, the blocks in use lie apart in the heap, and the free bytes and
  theirs are the whole heap.
* `heap_contents`: every run is a run of `Spec` on the bytes of the blocks.
* `alloc_room`: an allocation succeeds exactly if somewhere in the heap there is room for it between
  the blocks in use.
* `heap_stats`: what `vPortGetHeapStats` calls the largest free block decides which allocations
  succeed; it does not return if no block is free.
* `heap_merges`: once every block was given back the heap is one free block.
-/

namespace Air101
namespace Heap

open Storage

section Runs

variable {L : Linker} {ram : Nat → Byte} {cs : List (Call × Nat)} {w : World}

theorem Step.good {w' : World} {c : Call × Nat} (h : Step L w c w') (hg : w.Good L) :
    w'.Good L ∧ Spec w.contents c.1 c.2 w'.contents := by
  obtain ⟨hok, hstep⟩ := h
  obtain ⟨r, v, hv, hgood, hspec⟩ := step_good hg hok
  rw [hstep, Option.some.injEq, Prod.mk.injEq] at hv
  obtain ⟨hr, rfl⟩ := hv
  rw [hr]
  exact ⟨hgood, hspec⟩

theorem run_good (h : Path (Step L) (World.start ram) cs w) : w.Good L :=
  h.inv (World.Good L) (fun _ _ _ hr hg => (hr.good hg).1) (.inl ⟨rfl, rfl⟩)

/-- Two allocations that follow each other from the start. -/
theorem run_two (L : Linker) (ram : Nat → Byte) {m n : Nat} (hm : m < 2 ^ 32) (hn : n < 2 ^ 32) :
    ∃ r q w, Path (Step L) (World.start ram) [(.alloc m, r), (.alloc n, q)] w := by
  obtain ⟨r, v, hv, hgood, -⟩ := step_good (L := L) (w := World.start ram) (.inl ⟨rfl, rfl⟩)
    (c := .alloc m) hm
  obtain ⟨q, w, hw, -⟩ := step_good hgood (c := .alloc n) hn
  exact ⟨r, q, w, .cons ⟨hm, hv⟩ (.cons ⟨hn, hw⟩ (.nil w))⟩

/-- The heap that the witnesses below run on. -/
def smallHeap : Linker where
  heapStart := 20
  heapEnd := 120
  xStart := 4
  start_pos := by decide
  room := by decide
  top := by decide
  head_word := by decide
  head_apart := by decide

/-- The next call returns; the blocks in use are aligned, lie in the heap and apart from each other, a
header's width at least; and the free bytes with theirs are all bytes up to the end marker. -/
theorem heap_blocks (h : Path (Step L) (World.start ram) cs w) :
    (∀ c : Call, c.Ok w → (step L w c).isSome) ∧
    (∀ p ∈ w.live, p.1 % 8 = 0 ∧ L.heapStart + 8 ≤ p.1 ∧ p.1 + p.2 + 8 ≤ L.heapEnd) ∧
    (w.live.Pairwise fun p q => p.1 + p.2 + 8 ≤ q.1 ∨ q.1 + q.2 + 8 ≤ p.1) ∧
    (w.s.pxEnd ≠ 0 →
      w.s.xFreeBytesRemaining + total w.extents = L.endMarker - L.pucAlignedHeap ∧
      w.s.xMinimumEverFreeBytesRemaining ≤ w.s.xFreeBytesRemaining) := by
  have hgood := run_good h
  have hreturns : ∀ c : Call, c.Ok w → (step L w c).isSome := by
    intro c hok
    obtain ⟨r, v, hv, -⟩ := step_good hgood hok
    rw [hv]
    rfl
  rcases hgood with ⟨hend, hlive⟩ | ⟨free, spans, hinv⟩
  · refine ⟨hreturns, ?_, ?_, fun hne => absurd hend hne⟩
    · simp [hlive]
    · simp [hlive]
  · refine ⟨hreturns, fun p hp => hinv.bounds hp, hinv.apart, fun _ => ?_⟩
    rw [hinv.extents_eq, hinv.rep.count]
    have := hinv.rep.shape.tiling.sum
    have := L.layout
    exact ⟨by omega, hinv.rep.minimum⟩

theorem heap_blocks_two : ∃ r q w,
    Path (Step smallHeap) (World.start fun _ => 0#8) [(.alloc 5, r), (.alloc 24, q)] w ∧
    (∀ c : Call, c.Ok w → (step smallHeap w c).isSome) ∧
    (w.live.Pairwise fun p q => p.1 + p.2 + 8 ≤ q.1 ∨ q.1 + q.2 + 8 ≤ p.1) := by
  obtain ⟨r, q, w, h⟩ := run_two smallHeap (fun _ => 0#8) (m := 5) (n := 24) (by decide) (by decide)
  exact ⟨r, q, w, h, (heap_blocks h).1, (heap_blocks h).2.2.1⟩

/-- Every run is a run of the allocator of `Spec`: a block has the bytes last stored to it, a new one
zeros, and a reallocated one the old bytes as far as it goes. -/
theorem heap_contents (h : Path (Step L) (World.start ram) cs w) :
    Path (fun A c B => Spec A c.1 c.2 B) [] cs w.contents :=
  h.refines (World.Good L) World.contents (fun _ _ _ hr hg => hr.good hg) (.inl ⟨rfl, rfl⟩)

theorem heap_contents_two : ∃ r q A,
    Path (fun A c B => Spec A c.1 c.2 B) [] [(.alloc 5, r), (.alloc 24, q)] A := by
  obtain ⟨r, q, w, h⟩ := run_two smallHeap (fun _ => 0#8) (m := 5) (n := 24) (by decide) (by decide)
  exact ⟨r, q, w.contents, heap_contents h⟩

/-- An allocation succeeds exactly if the heap has as many addresses in a row that no block in use has
as the size needs with its header and the alignment. -/
theorem alloc_room (h : Path (Step L) (World.start ram) cs w) {n : Nat} (hn : n < 2 ^ 32) :
    ∃ r s, memAllocDebug L w.s n = some (r, s) ∧ (r ≠ 0 ↔ 0 < n ∧ n < 2 ^ 31 ∧
      ∃ a, L.pucAlignedHeap ≤ a ∧ a + adjustedSize n ≤ L.endMarker ∧
        ∀ x, a ≤ x → x < a + adjustedSize n → ¬ covers w.extents x) := by
  obtain ⟨r, s, hcall, -, ⟨hr, free, spans, hinv, hext, hno⟩ | ⟨hr, h0, h31, hroom, -⟩⟩ :=
    malloc_good (run_good h) hn
  · refine ⟨r, s, by simp [memAllocDebug, hcall, hr], fun hne => absurd hr hne, ?_⟩
    rintro ⟨h0, h31, hroom⟩
    have hadj := adjustedSize_pos h0
    rw [hext] at hroom
    obtain ⟨f, hf, hfit⟩ := (hinv.rep.shape.tiling.room_iff (by omega)).mpr hroom
    rcases hno with hz | hbig | hsmall
    · omega
    · omega
    · have := hsmall f hf
      omega
  · refine ⟨r, { s with ram := overlay s.ram r (List.replicate n 0#8) }, ?_, fun _ => ⟨h0, h31, hroom⟩,
      fun _ => hr⟩
    simp [memAllocDebug, hcall, hr]

theorem alloc_room_two : ∃ w : World, ∃ r s, memAllocDebug smallHeap w.s 40 = some (r, s) ∧
    (r ≠ 0 ↔ 0 < 40 ∧ 40 < 2 ^ 31 ∧ ∃ a, 24 ≤ a ∧ a + 48 ≤ 112 ∧
      ∀ x, a ≤ x → x < a + 48 → ¬ covers w.extents x) := by
  obtain ⟨r, q, w, h⟩ := run_two smallHeap (fun _ => 0#8) (m := 5) (n := 24) (by decide) (by decide)
  exact ⟨w, alloc_room (n := 40) h (by decide)⟩

/-- What `vPortGetHeapStats` finds on the free list. -/
theorem heapStats_rep {s : State} {free live : List Span} (h : Rep L s free live) :
    (free = [] → vPortGetHeapStats L s = none) ∧
    (free ≠ [] → ∃ st, vPortGetHeapStats L s = some st ∧
      st.xAvailableHeapSpaceInBytes = s.xFreeBytesRemaining ∧ st.xNumberOfFreeBlocks = free.length ∧
      ∀ k, 0 < k → (k ≤ st.xSizeOfLargestFreeBlockInBytes ↔ ∃ f ∈ free, k ≤ f.len)) := by
  have hlay := L.layout
  have hpos := L.start_pos
  have hlink := h.shape.linked.2.2
  have hhead : pxNextFreeBlock s.ram L.xStart = headAt L.endMarker free := hlink.head
  constructor
  · -- the walk reads the end marker as a block and goes on behind it
    rintro rfl
    have hfirst : pxNextFreeBlock s.ram L.xStart = L.endMarker := hhead
    obtain ⟨k, hk⟩ : ∃ k, L.heapEnd = k + 2 := ⟨L.heapEnd - 2, by omega⟩
    have hend : L.endMarker ≠ 0 := by omega
    have hwalk : ∀ acc, statsWalk s.ram L.endMarker (k + 2) L.endMarker acc = none := by
      rintro ⟨n, mx, mn⟩
      rw [statsWalk, if_neg hend]
      simp only [h.shape.endNext, ne_eq, hend.symm, not_false_eq_true, if_true]
      rw [statsWalk, if_pos rfl]
    rw [vPortGetHeapStats, hfirst, h.pxEnd, hk]
    simp only [ne_eq, hend, not_false_eq_true, if_true, hwalk]
    rfl
  · intro hne
    obtain ⟨d, ds, rfl⟩ := List.exists_cons_of_ne_nil hne
    have hfirst : pxNextFreeBlock s.ram L.xStart = d.pos := hhead
    have hspan : ∀ c ∈ d :: ds, c.pos ≠ 0 ∧ c.pos ≠ L.endMarker := by
      intro c hc
      have := h.shape.span (List.mem_append_left live hc)
      omega
    have hlen : ds.length + 1 < L.heapEnd := h.shape.length_lt
    rw [hfirst] at hlink
    obtain ⟨mx, mn, hwalk, hmx, -⟩ := statsWalk_linked 0 0 (2 ^ 32 - 1) hlink hlen hspan
    refine ⟨⟨s.xFreeBytesRemaining, mx, mn, 0 + ds.length + 1, s.xMinimumEverFreeBytesRemaining,
      s.xNumberOfSuccessfulAllocations, s.xNumberOfSuccessfulFrees⟩, ?_, rfl, ?_, ?_⟩
    · rw [vPortGetHeapStats, hfirst, h.pxEnd]
      simp only [ne_eq, (hspan d (by simp)).1, not_false_eq_true, if_true, hwalk]
      rfl
    · simp only [List.length_cons]
      omega
    · intro k hk
      rw [hmx k]
      constructor
      · rintro (hz | hfit)
        · omega
        · exact hfit
      · exact .inr

/-- On a heap that is initialised `vPortGetHeapStats` returns exactly if a byte is free, and then the
largest free block decides which allocations succeed. -/
theorem heap_stats (h : Path (Step L) (World.start ram) cs w) (hinit : w.s.pxEnd ≠ 0) :
    ((vPortGetHeapStats L w.s).isSome ↔ 0 < w.s.xFreeBytesRemaining) ∧
    ∀ st, vPortGetHeapStats L w.s = some st →
      st.xAvailableHeapSpaceInBytes + total w.extents = L.endMarker - L.pucAlignedHeap ∧
      ∀ n, n < 2 ^ 32 → ∃ r s, memAllocDebug L w.s n = some (r, s) ∧
        (r ≠ 0 ↔ 0 < n ∧ adjustedSize n ≤ st.xSizeOfLargestFreeBlockInBytes) := by
  obtain ⟨free, spans, hinv⟩ := (run_good h).resolve_left fun hno => hinit hno.1
  obtain ⟨hempty, hsome⟩ := heapStats_rep hinv.rep
  have hcount := hinv.rep.count
  by_cases hfree : free = []
  · rw [hempty hfree, hcount, hfree]
    simp
  · obtain ⟨st, hst, havail, -, hlargest⟩ := hsome hfree
    obtain ⟨d, hd⟩ := List.exists_mem_of_ne_nil free hfree
    have hdspan := hinv.rep.shape.span (List.mem_append_left spans hd)
    have hdle := le_total hd
    refine ⟨?_, ?_⟩
    · rw [hst, Option.isSome_some]
      exact ⟨fun _ => by omega, fun _ => rfl⟩
    · intro st' hst'
      rw [hst, Option.some.injEq] at hst'
      rw [← hst']
      have hsum := hinv.rep.shape.tiling.sum
      have hlay := L.layout
      refine ⟨?_, fun n hn => ?_⟩
      · rw [hinv.extents_eq]
        omega
      · obtain ⟨r, s, hcall, hres⟩ := malloc_rep hinv.rep hn
        rcases hres with ⟨hr, -, hno⟩ | ⟨h0, h31, hfit, free', b, hbr, -⟩
        · refine ⟨r, s, by simp [memAllocDebug, hcall, hr], fun hne => absurd hr hne, ?_⟩
          rintro ⟨h0, hle⟩
          have hadj := adjustedSize_pos h0
          obtain ⟨f, hf, hfit⟩ := (hlargest _ (by omega)).mp hle
          have hfle := le_total hf
          have htotal := hinv.rep.shape.total_lt
          rcases hno with hz | hbig | hsmall
          · omega
          · omega
          · have := hsmall f hf
            omega
        · have hadj := adjustedSize_pos h0
          have hr : r ≠ 0 := by omega
          refine ⟨r, { s with ram := overlay s.ram r (List.replicate n 0#8) }, ?_,
            fun _ => ⟨h0, (hlargest _ (by omega)).mpr hfit⟩, fun _ => hr⟩
          simp [memAllocDebug, hcall, hr]

/-- With a block of 5 bytes in use. -/
theorem heap_stats_first : ∃ w : World, Path (Step smallHeap) (World.start fun _ => 0#8) [(.alloc 5, 32)] w ∧
    ((vPortGetHeapStats smallHeap w.s).isSome ↔ 0 < w.s.xFreeBytesRemaining) ∧
    ∀ st, vPortGetHeapStats smallHeap w.s = some st →
      st.xAvailableHeapSpaceInBytes + total w.extents = 112 - 24 ∧
      ∀ n, n < 2 ^ 32 → ∃ r s, memAllocDebug smallHeap w.s n = some (r, s) ∧
        (r ≠ 0 ↔ 0 < n ∧ adjustedSize n ≤ st.xSizeOfLargestFreeBlockInBytes) := by
  obtain ⟨w, hw, hend⟩ : ∃ w, step smallHeap (World.start fun _ => 0#8) (.alloc 5) = some (32, w) ∧
      w.s.pxEnd = 112 := by
    refine ⟨_, rfl, ?_⟩
    rfl
  have hrun : Path (Step smallHeap) (World.start fun _ => 0#8) [(.alloc 5, 32)] w :=
    .cons ⟨(by decide : 5 < 2 ^ 32), hw⟩ (.nil w)
  have hinit : w.s.pxEnd ≠ 0 := by
    rw [hend]
    decide
  exact ⟨w, hrun, (heap_stats hrun hinit).1, (heap_stats hrun hinit).2⟩

/-- Whatever was handed out and given back: without blocks in use the heap is one free block. -/
theorem heap_merges (h : Path (Step L) (World.start ram) cs w) (hinit : w.s.pxEnd ≠ 0)
    (hlive : w.live = []) :
    ∃ st, vPortGetHeapStats L w.s = some st ∧ st.xNumberOfFreeBlocks = 1 ∧
      st.xSizeOfLargestFreeBlockInBytes = L.endMarker - L.pucAlignedHeap := by
  obtain ⟨free, spans, hinv⟩ := (run_good h).resolve_left fun hno => hinit hno.1
  have hlay := L.layout
  have hspans : spans = [] := by
    have hh := hinv.handles
    rw [hlive] at hh
    exact List.forall₂_nil_right_iff.mp hh
  have htile := hinv.rep.shape.tiling
  rw [hspans] at htile
  have hfree : free = [⟨L.pucAlignedHeap, L.endMarker - L.pucAlignedHeap⟩] := htile.idle (by omega)
  obtain ⟨st, hst, -, hblocks, hlargest⟩ := (heapStats_rep hinv.rep).2 (by rw [hfree]; simp)
  refine ⟨st, hst, by rw [hblocks, hfree]; rfl, ?_⟩
  have hfit : ∀ k, 0 < k → (k ≤ st.xSizeOfLargestFreeBlockInBytes ↔
      k ≤ L.endMarker - L.pucAlignedHeap) := by
    intro k hk
    rw [hlargest k hk, hfree]
    simp
  have h1 := hfit (L.endMarker - L.pucAlignedHeap) (by omega)
  have h2 := hfit st.xSizeOfLargestFreeBlockInBytes (by omega)
  omega

theorem heap_merges_one : ∃ w, Path (Step smallHeap) (World.start fun _ => 0#8)
    [(.alloc 5, 32), (.free 32, 0)] w ∧
    ∃ st, vPortGetHeapStats smallHeap w.s = some st ∧ st.xNumberOfFreeBlocks = 1 ∧
      st.xSizeOfLargestFreeBlockInBytes = 88 := by
  obtain ⟨v, hv, hlive⟩ : ∃ v, step smallHeap (World.start fun _ => 0#8) (.alloc 5) = some (32, v) ∧
      v.live = [(32, 5)] := by
    refine ⟨_, rfl, ?_⟩
    rfl
  have hfree : (step smallHeap v (.free 32)).map (fun y => (y.1, y.2.live, y.2.s.pxEnd)) =
      some (0, [], 112) := by
    have hrun : ((step smallHeap (World.start fun _ => 0#8) (.alloc 5)).bind fun x =>
        (step smallHeap x.2 (.free 32)).map fun y => (y.1, y.2.live, y.2.s.pxEnd)) =
          some (0, [], 112) := by
      decide +kernel
    rw [hv] at hrun
    exact hrun
  obtain ⟨⟨q, w⟩, hw, hres⟩ := Option.map_eq_some_iff.mp hfree
  obtain ⟨rfl, hnone, hend⟩ : q = 0 ∧ w.live = [] ∧ w.s.pxEnd = 112 := by simpa using hres
  have hrun : Path (Step smallHeap) (World.start fun _ => 0#8) [(.alloc 5, 32), (.free 32, 0)] w :=
    .cons ⟨(by decide : 5 < 2 ^ 32), hv⟩ (.cons ⟨.inr ⟨5, by rw [hlive]; simp⟩, hw⟩ (.nil w))
  exact ⟨w, hrun, heap_merges hrun (by rw [hend]; decide) hnone⟩

end Runs

end Heap
end Air101
