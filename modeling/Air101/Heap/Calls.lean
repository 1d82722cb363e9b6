import Air101.Heap.Inv
import Mathlib.Data.Nat.Bitwise

/-!
# Heap.Calls

What `pvPortMalloc` and `vPortFree` do to the invariant.

* `Shape.congr`: stores to the bytes of live blocks keep the shape, the headers of marked ones apart.
* `malloc_rep`: the call returns; either nothing changes and there is no block that is large enough,
  or a block of the heap becomes live.
* `free_rep`: the call returns and the block is free.
-/

namespace Air101
namespace Heap

open Storage

/-! ## Sizes and the top bit -/

theorem and_top {n : Nat} (h : n < 2 ^ 32) : n &&& 2 ^ 31 = 0 ↔ n < 2 ^ 31 := by
  rw [Nat.and_two_pow, Nat.testBit_eq_decide_div_mod_eq]
  rcases Nat.lt_or_ge n (2 ^ 31) with hlt | hge
  · rw [Nat.div_eq_of_lt hlt]
    exact ⟨fun _ => hlt, fun _ => rfl⟩
  · have hone : n / 2 ^ 31 = 1 := by omega
    rw [hone]
    exact ⟨fun hz => absurd hz (by decide), fun hlt => absurd hlt (by omega)⟩

theorem or_top {n : Nat} (h : n < 2 ^ 31) : n ||| 2 ^ 31 = n + 2 ^ 31 := by
  have h1 := Nat.two_pow_add_eq_or_of_lt h 1
  rw [Nat.mul_one] at h1
  rw [Nat.or_comm, ← h1, Nat.add_comm]

theorem unmark {n : Nat} (h : n < 2 ^ 31) : (n + 2 ^ 31) &&& (2 ^ 32 - 1 - 2 ^ 31) = n := by
  have hmask : 2 ^ 32 - 1 - 2 ^ 31 = 2 ^ 31 - 1 := by decide
  rw [hmask, Nat.and_two_pow_sub_one_eq_mod]
  omega

theorem adjustedSize_zero : adjustedSize 0 = 0 := rfl

theorem adjustedSize_pos {n : Nat} (h : 0 < n) :
    adjustedSize n % 8 = 0 ∧ n + 8 ≤ adjustedSize n ∧ adjustedSize n < n + 16 := by
  rw [adjustedSize, if_pos h, xHeapStructSize]
  dsimp only
  split
  · omega
  · omega

/-! ## Stores to live blocks -/

theorem header_congr {ram ram' : Nat → Byte} {q : Nat}
    (h : ∀ x, q ≤ x → x < q + 8 → ram' x = ram x) :
    pxNextFreeBlock ram' q = pxNextFreeBlock ram q ∧ xBlockSize ram' q = xBlockSize ram q :=
  ⟨ldw_congr fun x h1 h2 => h x h1 (by omega), ldw_congr fun x h1 h2 => h x (by omega) (by omega)⟩

section Shape

variable {L : Linker} {ram ram' : Nat → Byte} {free live marked : List Span}

theorem Shape.congr (h : Shape L ram free live marked) (hsub : ∀ c ∈ marked, c ∈ live)
    (hram : ∀ x, (∀ b ∈ live, b.Has x → x < b.pos + 8 ∧ ∃ c ∈ marked, ¬ b.Apart c) → ram' x = ram x) :
    Shape L ram' free live marked := by
  have hlay := L.layout
  have hhead := L.head_apart
  have hbnd : ∀ b ∈ live, ∀ x, b.Has x → L.pucAlignedHeap ≤ x ∧ x < L.endMarker := by
    intro b hb x hx
    have := h.tiling.bounds b hb
    simp only [Span.Has] at hx
    omega
  have hfree : ∀ f ∈ free, ∀ x, f.pos ≤ x → x < f.pos + 8 → ram' x = ram x := by
    intro f hf x h1 h2
    have hspan := h.span (List.mem_append_left live hf)
    refine hram x fun b hb hx => absurd hx ((h.tiling.apart f hf b hb).not_has ?_)
    simp only [Span.Has, Span.stop]
    omega
  have hstart : ∀ x, L.xStart ≤ x → x < L.xStart + 8 → ram' x = ram x := by
    intro x h1 h2
    refine hram x fun b hb hx => ?_
    have := hbnd b hb x hx
    omega
  have hmarked : ∀ c ∈ marked, ∀ x, c.pos ≤ x → x < c.pos + 8 → ram' x = ram x := by
    intro c hc x h1 h2
    have hspan := h.span (List.mem_append_right free (hsub c hc))
    have hcx : c.Has x := by
      simp only [Span.Has, Span.stop]
      omega
    refine hram x fun b hb hx => ?_
    by_cases hbc : b = c
    · rw [hbc]
      refine ⟨h2, c, hc, ?_⟩
      simp only [Span.Apart, Span.stop]
      omega
    · exact absurd hcx ((h.tiling.disjoint.forall hb (hsub c hc) hbc).not_has hx)
  refine ⟨h.linked.congr ?_ ?_, ?_, h.tiling, h.grain, ?_⟩
  · exact List.forall_mem_cons.mpr ⟨(header_congr hstart).1, fun f hf => (header_congr (hfree f hf)).1⟩
  · exact List.forall_mem_cons.mpr ⟨(header_congr hstart).2, fun f hf => (header_congr (hfree f hf)).2⟩
  · refine (header_congr fun x h1 h2 => hram x fun b hb hx => ?_).1.trans h.endNext
    have := hbnd b hb x hx
    omega
  · intro c hc
    have hhdr := header_congr (hmarked c hc)
    rw [hhdr.1, hhdr.2]
    exact h.marks c hc

/-- Stores to headers in live blocks that are not marked. -/
theorem Shape.same (h : Shape L ram free live marked) (hsub : ∀ c ∈ marked, c ∈ live) {hs : List Nat}
    (hsame : Same hs ram ram')
    (hhs : ∀ a ∈ hs, ∃ b ∈ live, b.pos ≤ a ∧ a + 8 ≤ b.stop ∧ ∀ c ∈ marked, b.Apart c) :
    Shape L ram' free live marked := by
  refine h.congr hsub fun x hx => hsame x fun a ha => ?_
  obtain ⟨b, hb, h1, h2, hbm⟩ := hhs a ha
  by_contra hin
  have hbx : b.Has x := by
    simp only [Span.Has]
    omega
  obtain ⟨-, c, hc, hn⟩ := hx b hb hbx
  exact hn (hbm c hc)

end Shape

/-! ## pvPortMalloc -/

section Malloc

variable {L : Linker} {s : State} {free live : List Span}

theorem dropAt_head {b : Span} (h : ∀ c ∈ live, c.pos ≠ b.pos) : dropAt b.pos (b :: live) = live := by
  have hrest : live.filter (fun c => c.pos ≠ b.pos) = live := by
    apply List.filter_eq_self.mpr
    intro c hc
    simpa using h c hc
  simpa [dropAt] using hrest

/-- A block taken out of the list. -/
theorem unlink_shape {pre post : List Span} {b : Span} (h : Rep L s (pre ++ b :: post) live) :
    pxNextFreeBlock s.ram (lastAt L.xStart pre) = b.pos ∧
      ∃ ram, ram = setNext s.ram (lastAt L.xStart pre) (pxNextFreeBlock s.ram b.pos) ∧
        Shape L ram (pre ++ post) (b :: live) live ∧ xBlockSize ram b.pos = b.len ∧
        Keeps L live s.ram ram := by
  have hlay := L.layout
  have hhead := L.head_apart
  obtain ⟨hnext, hsize, hlink⟩ := unlink_linked (c := L.headBlock) h.shape.linked h.shape.spread
  have htake := h.shape.tiling.take
  have hlast : lastAt L.xStart pre = L.xStart ∨ ∃ f ∈ pre, lastAt L.xStart pre = f.pos := by
    rcases List.mem_cons.mp (lastAt_mem L.xStart pre) with heq | hmem
    · exact .inl heq
    · obtain ⟨f, hf, heq⟩ := List.mem_map.mp hmem
      exact .inr ⟨f, hf, heq.symm⟩
  have hfspan : ∀ f ∈ pre, L.pucAlignedHeap ≤ f.pos ∧ 8 ≤ f.len ∧ f.pos + f.len ≤ L.endMarker := by
    intro f hf
    have := h.shape.span (b := f) (by simp [hf])
    omega
  obtain ⟨ram, hram⟩ : ∃ r, r = setNext s.ram (lastAt L.xStart pre) (pxNextFreeBlock s.ram b.pos) :=
    ⟨_, rfl⟩
  have hsame : Same [lastAt L.xStart pre] s.ram ram := by
    rw [hram]
    exact Same.setNext (by simp)
  have hkeep : Keeps L (b :: live) s.ram ram := by
    refine hsame.keeps (fun c hc => ⟨(htake.bounds c hc).1, (htake.bounds c hc).2.2⟩) fun a ha => ?_
    rw [List.mem_singleton.mp ha]
    rcases hlast with heq | ⟨f, hf, heq⟩
    · exact .inl heq
    · have hspan := hfspan f hf
      refine .inr ⟨by omega, by omega, fun c hc => ?_⟩
      have hfc := htake.apart f (by simp [hf]) c hc
      simp only [Span.Apart, Span.stop] at hfc ⊢
      omega
  have hheads : ∀ c ∈ b :: live, ∀ x, c.pos ≤ x → x < c.pos + 8 → ram x = s.ram x := by
    intro c hc x h1 h2
    refine hkeep x (.inl ⟨c, hc, h1, ?_⟩)
    have hcspan := h.shape.span (b := c) (by
      rcases List.mem_cons.mp hc with rfl | hc
      · simp
      · simp [hc])
    simp only [Span.stop]
    omega
  refine ⟨hnext, ram, hram, ⟨hram ▸ hlink, ?_, htake, fun c hc => ?_, fun c hc => ?_⟩, ?_, ?_⟩
  · refine (hsame.next fun a ha => ?_).trans h.shape.endNext
    rw [List.mem_singleton.mp ha]
    rcases hlast with heq | ⟨f, hf, heq⟩
    · omega
    · have := hfspan f hf
      omega
  · refine h.shape.grain c ?_
    simp only [List.mem_append, List.mem_cons] at hc ⊢
    tauto
  · have hhdr := header_congr (hheads c (by simp [hc]))
    rw [hhdr.1, hhdr.2]
    exact h.shape.marks c hc
  · rw [(header_congr (hheads b (by simp))).2, hsize]
  · exact fun x hx => hkeep x (by rw [covers_cons]; tauto)

/-- The block cut in two, and its rest inserted. -/
theorem cut_shape {b : Span} {w : Nat} (h : Shape L s.ram free (b :: live) live)
    (hend : s.pxEnd = L.endMarker) (hw8 : w % 8 = 0) (hw0 : 8 ≤ w) (hlt : w + 16 < b.len) :
    ∃ ram, prvInsertBlockIntoFreeList L
        { s with ram := setSize (setSize s.ram (b.pos + w) (b.len - w)) b.pos w } (b.pos + w) =
          some { s with ram } ∧
      Shape L ram (insertSpan free ⟨b.pos + w, b.len - w⟩) (⟨b.pos, w⟩ :: live) live ∧
      xBlockSize ram b.pos = w ∧ Keeps L live s.ram ram := by
  have hlay := L.layout
  have htop := L.top
  have hspan := h.span (b := b) (by simp)
  have hg := h.grain b (by simp)
  have hsep : Sep (b.pos + w) b.pos := .inr (by omega)
  have hapart : ∀ c ∈ live, b.Apart c := (List.pairwise_cons.mp h.tiling.disjoint).1
  have hcutapart : ∀ c ∈ live, (Span.mk (b.pos + w) (b.len - w)).Apart c ∧
      (Span.mk b.pos w).Apart c := by
    intro c hc
    have hbc := hapart c hc
    simp only [Span.Apart, Span.stop] at hbc ⊢
    omega
  have hcut := h.tiling.cut (w := w) (by omega) (by omega)
  have hshape1 : Shape L s.ram free (⟨b.pos + w, b.len - w⟩ :: ⟨b.pos, w⟩ :: live) live := by
    refine ⟨h.linked, h.endNext, hcut, fun c hc => ?_, h.marks⟩
    simp only [List.mem_append, List.mem_cons] at hc
    rcases hc with hc | rfl | rfl | hc
    · exact h.grain c (by simp [hc])
    · simp only
      omega
    · simp only
      omega
    · exact h.grain c (by simp [hc])
  obtain ⟨ram, hram⟩ : ∃ r, r = setSize (setSize s.ram (b.pos + w) (b.len - w)) b.pos w := ⟨_, rfl⟩
  have hsame : Same [b.pos + w, b.pos] s.ram ram := by
    rw [hram]
    exact (Same.setSize (by simp)).trans (Same.setSize (by simp))
  have hnew : xBlockSize ram (b.pos + w) = b.len - w := by
    rw [hram, size_setSize (by omega) hsep.symm, if_neg (by omega), size_setSize (by omega) (.inl rfl),
      if_pos rfl]
  have hold : xBlockSize ram b.pos = w := by
    rw [hram, size_setSize (by omega) (.inl rfl), if_pos rfl]
  have hshape2 : Shape L ram free (⟨b.pos + w, b.len - w⟩ :: ⟨b.pos, w⟩ :: live) live := by
    refine hshape1.same (fun c hc => by simp [hc]) hsame fun a ha => ?_
    simp only [List.mem_cons, List.not_mem_nil, or_false] at ha
    rcases ha with rfl | rfl
    · exact ⟨_, List.mem_cons_self, Nat.le_refl _, by simp only [Span.stop]; omega,
        fun c hc => (hcutapart c hc).1⟩
    · exact ⟨⟨b.pos, w⟩, by simp, Nat.le_refl _, by simp only [Span.stop]; omega,
        fun c hc => (hcutapart c hc).2⟩
  have hkeep : Keeps L live s.ram ram := by
    refine hsame.keeps (fun c hc => ?_) fun a ha => ?_
    · have := h.tiling.bounds c (by simp [hc])
      exact ⟨this.1, this.2.2⟩
    · simp only [List.mem_cons, List.not_mem_nil, or_false] at ha
      refine .inr ⟨by omega, by omega, fun c hc => ?_⟩
      have hbc := hapart c hc
      simp only [Span.Apart, Span.stop] at hbc ⊢
      omega
  have hdrop : dropAt (b.pos + w) (⟨b.pos + w, b.len - w⟩ :: ⟨b.pos, w⟩ :: live) =
      ⟨b.pos, w⟩ :: live := by
    refine dropAt_head (b := ⟨b.pos + w, b.len - w⟩) fun c hc => ?_
    have hcb := hcut.bounds c (by simp [hc])
    rcases List.mem_cons.mp hc with rfl | hc
    · simp only
      omega
    · have hbc := (hcutapart c hc).1
      simp only [Span.Apart, Span.stop] at hbc hcb ⊢
      omega
  obtain ⟨ram', hins, hshape, hkeep'⟩ := insert_shape (s := { s with ram }) hshape2 hend
    (List.mem_cons_self) hnew (fun c hc => by rw [hdrop]; simp [hc])
  rw [hdrop] at hshape hkeep'
  have hhdr : ∀ x, b.pos ≤ x → x < b.pos + 8 → ram' x = ram x := by
    intro x h1 h2
    refine hkeep' x (.inl ⟨⟨b.pos, w⟩, by simp, h1, ?_⟩)
    simp only [Span.stop]
    omega
  refine ⟨ram', hram ▸ hins, hshape, ?_, ?_⟩
  · rw [(header_congr hhdr).2, hold]
  · refine hkeep.trans fun x hx => hkeep' x ?_
    rw [covers_cons]
    tauto

/-- What is left of a block that is larger than wanted goes back into the list. -/
theorem splitBlock_shape {b : Span} {w : Nat} (h : Shape L s.ram free (b :: live) live)
    (hend : s.pxEnd = L.endMarker) (hsize : xBlockSize s.ram b.pos = b.len) (hw : w ≤ b.len)
    (hw8 : w % 8 = 0) (hw0 : 8 ≤ w) :
    ∃ ram free' n, splitBlock L s w b.pos = some { s with ram } ∧ w ≤ n ∧
      Shape L ram free' (⟨b.pos, n⟩ :: live) live ∧ xBlockSize ram b.pos = n ∧
      Keeps L live s.ram ram ∧ total free' + n = total free + b.len := by
  have hmin : heapMinimumBlockSize = 16 := rfl
  by_cases hlt : w + 16 < b.len
  · obtain ⟨ram, hins, hshape, hsize', hkeep⟩ := cut_shape h hend hw8 hw0 hlt
    have hg := h.grain b (by simp)
    have hguard : (b.pos + w) % 8 = 0 := by omega
    refine ⟨ram, _, w, ?_, Nat.le_refl w, hshape, hsize', hkeep, ?_⟩
    · rw [splitBlock, hsize, hmin, if_pos (by omega)]
      simp only [guard, hguard, if_true]
      exact hins
    · rw [total_insertSpan]
      simp only
      omega
  · refine ⟨s.ram, free, b.len, ?_, hw, h, hsize, Keeps.refl, rfl⟩
    rw [splitBlock, hsize, hmin, if_neg (by omega)]

/-- The block is marked and counted. -/
theorem handOut_rep {b : Span} (h : Shape L s.ram free (b :: live) live) (hend : s.pxEnd = L.endMarker)
    (hbit : s.xBlockAllocatedBit = 2 ^ 31) (hsize : xBlockSize s.ram b.pos = b.len)
    (hcount : s.xFreeBytesRemaining = total free + b.len) :
    Rep L (handOut s b.pos) free (b :: live) ∧ Keeps L live s.ram (handOut s b.pos).ram := by
  have hspan := h.span (b := b) (by simp)
  have htotal := h.total_lt
  have hble : b.len < 2 ^ 31 := by
    rw [total_cons] at htotal
    omega
  have hself : Sep b.pos b.pos := .inl rfl
  have hapart : ∀ c ∈ live, b.Apart c := (List.pairwise_cons.mp h.tiling.disjoint).1
  have hram : (handOut s b.pos).ram = setNext (setSize s.ram b.pos (b.len + 2 ^ 31)) b.pos 0 := by
    simp only [handOut, hsize, hbit, or_top hble]
  have hsame : Same [b.pos] s.ram (handOut s b.pos).ram := by
    rw [hram]
    exact (Same.setSize (by simp)).trans (Same.setNext (by simp))
  have hshape : Shape L (handOut s b.pos).ram free (b :: live) live := by
    refine h.same (fun c hc => by simp [hc]) hsame fun a ha => ?_
    rw [List.mem_singleton.mp ha]
    refine ⟨b, by simp, Nat.le_refl _, ?_, hapart⟩
    simp only [Span.stop]
    omega
  have hmark : xBlockSize (handOut s b.pos).ram b.pos = b.len + 2 ^ 31 ∧
      pxNextFreeBlock (handOut s b.pos).ram b.pos = 0 := by
    rw [hram, size_setNext hself, size_setSize (by omega) hself, if_pos rfl,
      next_setNext (by omega) hself, if_pos rfl]
    exact ⟨rfl, rfl⟩
  refine ⟨⟨⟨hshape.linked, hshape.endNext, hshape.tiling, hshape.grain, ?_⟩, hend, hbit, ?_, ?_⟩, ?_⟩
  · exact List.forall_mem_cons.mpr ⟨hmark, hshape.marks⟩
  · simp only [handOut, hsize]
    omega
  · simp only [handOut, hsize]
    split
    · omega
    · omega
  · refine hsame.keeps (fun c hc => ?_) fun a ha => ?_
    · have := h.tiling.bounds c (by simp [hc])
      exact ⟨this.1, this.2.2⟩
    · rw [List.mem_singleton.mp ha]
      refine .inr ⟨by omega, by omega, fun c hc => ?_⟩
      have hbc := hapart c hc
      simp only [Span.Apart, Span.stop] at hbc ⊢
      omega

/-- A block out of the list, cut if it is too large, and handed out. -/
theorem takeBlock_rep {pre post : List Span} {b : Span} {w : Nat}
    (h : Rep L s (pre ++ b :: post) live) (hw : w ≤ b.len) (hw8 : w % 8 = 0) (hw0 : 8 ≤ w) :
    ∃ s' free' n, takeBlock L s w (lastAt L.xStart pre) b.pos = some (b.pos + 8, s') ∧ w ≤ n ∧
      Rep L s' free' (⟨b.pos, n⟩ :: live) ∧ Keeps L live s.ram s'.ram := by
  obtain ⟨hnext, ram1, hram1, hshape1, hsize1, hkeep1⟩ := unlink_shape h
  obtain ⟨ram2, free', n, hsplit, hn, hshape2, hsize2, hkeep2, htotal⟩ :=
    splitBlock_shape (s := { s with ram := ram1 }) hshape1 h.pxEnd hsize1 hw hw8 hw0
  have hfree : total (pre ++ b :: post) = total free' + n := by
    simp only [total_append, total_cons] at htotal ⊢
    omega
  obtain ⟨hrep, hkeep3⟩ := handOut_rep (s := { s with ram := ram2 }) (b := ⟨b.pos, n⟩) hshape2 h.pxEnd
    h.bit hsize2 (h.count.trans hfree)
  refine ⟨_, free', n, ?_, hn, hrep, (hkeep1.trans hkeep2).trans hkeep3⟩
  rw [takeBlock]
  simp only [hnext, ← hram1, hsplit, Option.bind_eq_bind, Option.bind_some, Option.pure_def,
    xHeapStructSize]

/-- `pvPortMalloc` on a heap that is initialised. -/
theorem malloc_rep (h : Rep L s free live) {n : Nat} (hn : n < 2 ^ 32) :
    ∃ r s', pvPortMalloc L s n = some (r, s') ∧
      ((r = 0 ∧ s' = s ∧ (n = 0 ∨ 2 ^ 31 ≤ n ∨ ∀ f ∈ free, f.len < adjustedSize n)) ∨
        (0 < n ∧ n < 2 ^ 31 ∧ (∃ f ∈ free, adjustedSize n ≤ f.len) ∧ ∃ free' b, b.pos + 8 = r ∧
          adjustedSize n ≤ b.len ∧ Rep L s' free' (b :: live) ∧ Keeps L live s.ram s'.ram)) := by
  have hlay := L.layout
  have hpos := L.start_pos
  have hend : s.pxEnd ≠ 0 := by
    rw [h.pxEnd]
    omega
  rw [pvPortMalloc]
  simp only [if_neg hend]
  rw [h.bit]
  by_cases htop : n < 2 ^ 31
  · rw [if_pos ((and_top hn).mpr htop)]
    by_cases hwant : 0 < adjustedSize n ∧ adjustedSize n ≤ s.xFreeBytesRemaining
    · have hn0 : 0 < n := by
        by_contra hn0
        have hz : n = 0 := by omega
        rw [hz, adjustedSize_zero] at hwant
        omega
      obtain ⟨hw8, hwn, -⟩ := adjustedSize_pos hn0
      have hhead : pxNextFreeBlock s.ram L.xStart = headAt L.endMarker free := h.shape.linked.2.2.head
      rw [if_pos hwant]
      rcases firstFit_linked (w := adjustedSize n) (p := L.xStart) h.shape.linked.2.2
        h.shape.length_lt h.shape.endNext (by omega)
        (fun d hd => by
          have := h.shape.span (List.mem_append_left live hd)
          omega) with ⟨hall, r, hwalk⟩ | ⟨pre, b, post, rfl, hb, hwalk⟩
      · refine ⟨0, s, ?_, .inl ⟨rfl, rfl, .inr (.inr hall)⟩⟩
        rw [hwalk]
        simp [h.pxEnd]
      · obtain ⟨s', free', k, htake, hk, hrep, hkeep⟩ := takeBlock_rep h hb hw8 (by omega)
        have hbspan := h.shape.span (b := b) (by simp)
        have hbend : b.pos ≠ s.pxEnd := by
          rw [h.pxEnd]
          omega
        refine ⟨b.pos + 8, s', ?_, .inr ⟨hn0, htop, ⟨b, by simp, hb⟩, free', ⟨b.pos, k⟩, rfl, hk, hrep,
          hkeep⟩⟩
        have hal : (b.pos + 8) % 8 = 0 := by omega
        rw [hwalk]
        simp [hbend, htake, guard, hal]
    · refine ⟨0, s, by simp [if_neg hwant], .inl ⟨rfl, rfl, ?_⟩⟩
      rcases Nat.eq_zero_or_pos n with hn0 | hn0
      · exact .inl hn0
      · refine .inr (.inr fun f hf => ?_)
        have h1 := adjustedSize_pos hn0
        have h2 := le_total hf
        have h3 := h.count
        omega
  · have hne : ¬ (n &&& 2 ^ 31 = 0) := fun hz => htop ((and_top hn).mp hz)
    refine ⟨0, s, ?_, .inl ⟨rfl, rfl, .inr (.inl (by omega))⟩⟩
    rw [if_neg hne]
    rfl

end Malloc

/-! ## vPortFree -/

/-- `vPortFree` of a live block. -/
theorem free_rep {L : Linker} {s : State} {free live : List Span} {b : Span} (h : Rep L s free live)
    (hb : b ∈ live) : ∃ s', vPortFree L s (b.pos + 8) = some s' ∧
      Rep L s' (insertSpan free b) (dropAt b.pos live) ∧
      Keeps L (dropAt b.pos live) s.ram s'.ram := by
  have hspan := h.shape.span (List.mem_append_right free hb)
  have htotal := h.shape.total_lt
  have hble := le_total hb
  have hb31 : b.len < 2 ^ 31 := by omega
  have hself : Sep b.pos b.pos := .inl rfl
  obtain ⟨hmark, hnext⟩ := h.shape.marks b hb
  have hother : ∀ c ∈ dropAt b.pos live, b.Apart c := by
    intro c hc
    obtain ⟨hc, hne⟩ := mem_dropAt.mp hc
    exact h.shape.tiling.disjoint.forall hb hc fun heq => hne (by rw [heq])
  have hsame : Same [b.pos] s.ram (setSize s.ram b.pos b.len) := Same.setSize (by simp)
  have hshape : Shape L (setSize s.ram b.pos b.len) free live (dropAt b.pos live) := by
    have hless : Shape L s.ram free live (dropAt b.pos live) :=
      ⟨h.shape.linked, h.shape.endNext, h.shape.tiling, h.shape.grain,
        fun c hc => h.shape.marks c (mem_dropAt.mp hc).1⟩
    refine hless.same (fun c hc => (mem_dropAt.mp hc).1) hsame fun a ha => ?_
    rw [List.mem_singleton.mp ha]
    refine ⟨b, hb, Nat.le_refl _, ?_, hother⟩
    simp only [Span.stop]
    omega
  have hkeep : Keeps L (dropAt b.pos live) s.ram (setSize s.ram b.pos b.len) :=
    h.shape.keeps hsame (fun c hc => (mem_dropAt.mp hc).1) fun a ha =>
      .inr (.inr ⟨b, hb, List.mem_singleton.mp ha, hother⟩)
  obtain ⟨ram, hins, hshape', hkeep'⟩ := insert_shape
    (s := { s with
      ram := setSize s.ram b.pos b.len
      xFreeBytesRemaining := s.xFreeBytesRemaining + b.len })
    hshape h.pxEnd hb (by rw [size_setSize (by omega) hself, if_pos rfl]) (fun c hc => hc)
  refine ⟨{ s with
      ram
      xFreeBytesRemaining := s.xFreeBytesRemaining + b.len
      xNumberOfSuccessfulFrees := (s.xNumberOfSuccessfulFrees + 1) % 2 ^ 32 },
    ?_, ⟨hshape', h.pxEnd, h.bit, ?_, ?_⟩, hkeep.trans hkeep'⟩
  · have hbit : ¬ (xBlockSize s.ram b.pos &&& s.xBlockAllocatedBit = 0) := by
      rw [hmark, h.bit, and_top (by omega)]
      omega
    have hlen : xBlockSize s.ram b.pos &&& (2 ^ 32 - 1 - s.xBlockAllocatedBit) = b.len := by
      rw [hmark, h.bit, unmark hb31]
    rw [vPortFree, if_pos (by omega)]
    simp only [xHeapStructSize, Nat.add_sub_cancel, if_neg hbit, hnext, guard, if_true, hlen,
      Option.bind_eq_bind, Option.bind_some, Option.pure_def, hins]
  · rw [total_insertSpan]
    have := h.count
    simp only
    omega
  · rw [total_insertSpan]
    have := h.minimum
    simp only
    omega

end Heap
end Air101
