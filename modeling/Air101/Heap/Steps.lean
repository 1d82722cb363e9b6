import Air101.Heap.Runs

/-!
# Heap.Steps

Each call in a world that is in order: it returns, the world stays in order, and it does to the bytes
of the blocks what `Spec` says.

* `fill_good`: a block handed out and filled.
* `free_good`, `realloc_good`, `write_good`: the calls by themselves.
* `step_good`: all of them.
-/

namespace Air101
namespace Heap

open Storage

/-! ## The bytes of the blocks -/

theorem contents_congr {ram ram' : Nat → Byte} {live : List (Nat × Nat)} (h : Preserved live ram ram') :
    (live.map fun p => (p.1, slice ram' p.1 p.2)) = live.map fun p => (p.1, slice ram p.1 p.2) := by
  apply List.map_congr_left
  intro p hp
  rw [slice_congr fun i hi => h p hp (p.1 + i) (by omega) (by omega)]

theorem Preserved.trans {ram ram' ram'' : Nat → Byte} {live : List (Nat × Nat)}
    (h1 : Preserved live ram ram') (h2 : Preserved live ram' ram'') : Preserved live ram ram'' :=
  fun p hp x hx hx' => (h2 p hp x hx hx').trans (h1 p hp x hx hx')

theorem Preserved.sub {ram ram' : Nat → Byte} {live live' : List (Nat × Nat)}
    (h : Preserved live ram ram') (hsub : ∀ p ∈ live', p ∈ live) : Preserved live' ram ram' :=
  fun p hp => h p (hsub p hp)

theorem contents_filter (ram : Nat → Byte) (live : List (Nat × Nat)) (p : Nat) :
    ((live.filter fun b => b.1 ≠ p).map fun b => (b.1, slice ram b.1 b.2)) =
      (live.map fun b => (b.1, slice ram b.1 b.2)).filter fun b => b.1 ≠ p := by
  rw [List.filter_map]
  rfl

theorem slice_overlay_put {ram : Nat → Byte} {q n a : Nat} {bs : List Byte} (h1 : q ≤ a)
    (h2 : a + bs.length ≤ q + n) :
    slice (overlay ram a bs) q n = patch (slice ram q n) (a - q) bs := by
  have hlen : (patch (slice ram q n) (a - q) bs).length = n := by
    rw [patch_length (by rw [slice_length]; omega), slice_length]
  have hback := overlay_patch ram q n (a - q) bs (by omega)
  rw [Nat.add_sub_cancel' h1] at hback
  have hread := slice_overlay ram q (patch (slice ram q n) (a - q) bs)
  rw [hlen, hback] at hread
  exact hread

section Steps

variable {L : Linker} {w : World} {free spans : List Span}

theorem Inv.good {s : State} {live : List (Nat × Nat)} (h : Inv L ⟨s, live⟩ free spans) :
    World.Good L ⟨s, live⟩ := .inr ⟨free, spans, h⟩

theorem Inv.pos (h : Inv L w free spans) {p : Nat × Nat} (hp : p ∈ w.live) : 8 ≤ p.1 := by
  have := h.bounds hp
  omega

theorem World.Good.of_mem (h : w.Good L) {p : Nat × Nat} (hp : p ∈ w.live) :
    ∃ free spans, Inv L w free spans := by
  rcases h with ⟨-, hlive⟩ | h
  · rw [hlive] at hp
    simp at hp
  · exact h

/-- `NULL` is no block. -/
theorem World.Good.drop_null (h : w.Good L) : (w.live.filter fun b => b.1 ≠ 0) = w.live := by
  rw [List.filter_eq_self]
  intro p hp
  obtain ⟨free, spans, hinv⟩ := h.of_mem hp
  have := hinv.pos hp
  simp only [decide_eq_true_eq]
  omega

/-- A store to one block leaves the others. -/
theorem Inv.others {s : State} {r n : Nat} {live : List (Nat × Nat)}
    (h : Inv L ⟨s, (r, n) :: live⟩ free spans) {bs : List Byte} (hlen : bs.length ≤ n) :
    Preserved live s.ram (overlay s.ram r bs) := by
  intro p hp x h1 h2
  have hap := (List.pairwise_cons.mp h.apart).1 p hp
  simp only at hap
  exact overlay_out (by omega)

/-- The addresses of the blocks that were there differ from that of the new one. -/
theorem Inv.fresh {s : State} {r n : Nat} {live : List (Nat × Nat)}
    (h : Inv L ⟨s, (r, n) :: live⟩ free spans) (ram : Nat → Byte) :
    ∀ b ∈ live.map (fun p => (p.1, slice ram p.1 p.2)), b.1 ≠ r := by
  intro b hb
  obtain ⟨p, hp, rfl⟩ := List.mem_map.mp hb
  have hap := (List.pairwise_cons.mp h.apart).1 p hp
  simp only at hap ⊢
  omega

/-- A block is handed out and filled with bytes. -/
theorem fill_good {s : State} {r n : Nat} {live : List (Nat × Nat)}
    (h : Inv L ⟨s, (r, n) :: live⟩ free spans) (hkeep : Preserved live w.s.ram s.ram)
    {bs : List Byte} (hlen : bs.length ≤ n) :
    Inv L ⟨{ s with ram := overlay s.ram r bs }, (r, n) :: live⟩ free spans ∧
      Preserved live w.s.ram (overlay s.ram r bs) :=
  ⟨h.store (p := (r, n)) (by simp) (Nat.le_refl _) (by simp only; omega), hkeep.trans (h.others hlen)⟩

theorem memCallocDebug_eq (L : Linker) (s : State) (k n : Nat) :
    memCallocDebug L s k n = memAllocDebug L s (k * n % 2 ^ 32) := rfl

/-- The calls that hand out a block of zeros. -/
theorem zeros_good (h : w.Good L) {n : Nat} (hn : n < 2 ^ 32) :
    ∃ r s, memAllocDebug L w.s n = some (r, s) ∧ World.Good L ⟨s, handed w.live r n⟩ ∧
      ((r = 0 ∧ World.contents ⟨s, handed w.live r n⟩ = w.contents) ∨
        (r ≠ 0 ∧ (∀ b ∈ w.contents, b.1 ≠ r) ∧
          World.contents ⟨s, handed w.live r n⟩ = (r, List.replicate n 0#8) :: w.contents)) := by
  obtain ⟨r, s, hcall, hkeep, ⟨hr, free, spans, hinv, -⟩ | ⟨hr, -, -, -, free, b, spans, hinv, -⟩⟩ :=
    malloc_good h hn
  · refine ⟨r, s, ?_, ?_, .inl ⟨hr, ?_⟩⟩
    · simp [memAllocDebug, hcall, hr]
    · rw [handed, if_neg (by omega)]
      exact hinv.good
    · rw [handed, if_neg (by omega)]
      exact contents_congr hkeep
  · have hlen : (List.replicate n (0#8 : Byte)).length = n := List.length_replicate
    obtain ⟨hfill, hkeep'⟩ := fill_good hinv hkeep (Nat.le_of_eq hlen)
    refine ⟨r, { s with ram := overlay s.ram r (List.replicate n 0#8) }, ?_, ?_,
      .inr ⟨hr, hinv.fresh _, ?_⟩⟩
    · simp [memAllocDebug, hcall, hr]
    · rw [handed, if_pos hr]
      exact hfill.good
    · have hself := slice_overlay s.ram r (List.replicate n (0#8 : Byte))
      rw [hlen] at hself
      rw [handed, if_pos hr, World.contents, List.map_cons, contents_congr hkeep', hself]
      rfl

/-- A block in use is given back. -/
theorem Inv.free_block (h : Inv L w free spans) {p m : Nat} (hp : (p, m) ∈ w.live) :
    ∃ s free' spans', vPortFree L w.s p = some s ∧
      Inv L ⟨s, w.live.filter fun b => b.1 ≠ p⟩ free' spans' ∧
      Preserved (w.live.filter fun b => b.1 ≠ p) w.s.ram s.ram := by
  obtain ⟨b, hb, heq, -⟩ := h.span hp
  obtain ⟨s, hcall, hrep, hkeep⟩ := free_rep h.rep hb
  have hh := handles_drop h.handles b.pos
  have hpos : p = b.pos + 8 := heq
  rw [← hpos] at hcall hh
  exact ⟨s, _, _, hcall, ⟨hrep, hh⟩, hkeep.preserved hh⟩

theorem free_good (h : w.Good L) {p : Nat} (hp : p = 0 ∨ ∃ m, (p, m) ∈ w.live) :
    ∃ s, memFreeDebug L w.s p = some s ∧ World.Good L ⟨s, w.live.filter fun b => b.1 ≠ p⟩ ∧
      World.contents ⟨s, w.live.filter fun b => b.1 ≠ p⟩ = w.contents.filter fun b => b.1 ≠ p := by
  rcases hp with rfl | ⟨m, hp⟩
  · refine ⟨w.s, rfl, ?_, contents_filter ..⟩
    rw [h.drop_null]
    exact h
  · obtain ⟨free, spans, hinv⟩ := h.of_mem hp
    obtain ⟨s, free', spans', hcall, hinv', hkeep⟩ := hinv.free_block hp
    have hne : p ≠ 0 := by
      have := hinv.pos hp
      simp only at this
      omega
    refine ⟨s, by rw [memFreeDebug, if_pos hne, hcall], hinv'.good, ?_⟩
    rw [World.contents, contents_congr hkeep]
    exact contents_filter ..

/-- The old bytes are copied to the new block before the old one is given back. -/
theorem realloc_good (h : w.Good L) {p n : Nat} (hp : p = 0 ∨ ∃ m, (p, m) ∈ w.live)
    (hn : n < 2 ^ 32) :
    ∃ r w', step L w (.realloc p n) = some (r, w') ∧ w'.Good L ∧
      Spec w.contents (.realloc p n) r w'.contents := by
  rcases Nat.eq_zero_or_pos n with rfl | hn0
  · exact ⟨0, w, rfl, h, .noRealloc ..⟩
  obtain ⟨r, s, hcall, hkeep, hres⟩ := malloc_good h hn
  rcases hp with rfl | ⟨m, hp⟩
  · -- no old block: the call is `pvPortMalloc`
    have hreal : memReallocDebug L w.s 0 n = some (r, s) := by
      rw [memReallocDebug, pvPortRealloc, if_pos hn0, if_neg (by simp)]
      exact hcall
    rcases hres with ⟨rfl, free, spans, hinv, -⟩ | ⟨hr, -, -, -, free, b, spans, hinv, -⟩
    · refine ⟨0, ⟨s, w.live⟩, ?_, hinv.good, ?_⟩
      · simp [step, hreal]
      · have hsame : World.contents ⟨s, w.live⟩ = w.contents := contents_congr hkeep
        rw [hsame]
        exact .noRealloc ..
    · refine ⟨r, ⟨s, (r, n) :: w.live⟩, ?_, hinv.good, ?_⟩
      · simp only [step, hreal, Option.bind_eq_bind, Option.bind_some, if_pos hr, h.drop_null]
        rfl
      · have hsame : World.contents ⟨s, (r, n) :: w.live⟩ = (r, slice s.ram r n) :: w.contents := by
          rw [World.contents, List.map_cons, contents_congr hkeep]
          rfl
        rw [hsame]
        exact .reallocNew _ _ _ _ hr (hinv.fresh _) (slice_length ..)
  · obtain ⟨free0, spans0, hinv0⟩ := h.of_mem hp
    obtain ⟨b, hb, heq, hlen⟩ := hinv0.span hp
    have hpb : p = b.pos + 8 := heq
    have hmb : m + 8 ≤ b.len := hlen
    have hmark := (hinv0.rep.shape.marks b hb).1
    have htotal := hinv0.rep.shape.total_lt
    have hble := le_total hb
    have hp0 : p ≠ 0 := by omega
    have hbit : xBlockSize w.s.ram (p - 8) &&& w.s.xBlockAllocatedBit ≠ 0 := by
      rw [hpb, Nat.add_sub_cancel, hmark, hinv0.rep.bit]
      intro hz
      have := (and_top (by omega)).mp hz
      omega
    have hsize : xBlockSize w.s.ram (p - 8) &&& (2 ^ 32 - 1 - w.s.xBlockAllocatedBit) = b.len := by
      rw [hpb, Nat.add_sub_cancel, hmark, hinv0.rep.bit, unmark (by omega)]
    rcases hres with ⟨rfl, free, spans, hinv, -⟩ | ⟨hr, -, -, -, free, b', spans, hinv, -⟩
    · refine ⟨0, ⟨s, w.live⟩, ?_, hinv.good, ?_⟩
      · simp [step, memReallocDebug, pvPortRealloc, xHeapStructSize, hn0, hp0, hbit, hcall]
      · have hsame : World.contents ⟨s, w.live⟩ = w.contents := contents_congr hkeep
        rw [hsame]
        exact .noRealloc ..
    · -- the bytes copied fit into the new block, and the bytes asked for are among them
      obtain ⟨k, hk, hkn, hkm⟩ : ∃ k, k = (if b.len - 8 < n then b.len - 8 else n) ∧ k ≤ n ∧
          min m n ≤ k := by
        refine ⟨_, rfl, ?_, ?_⟩
        · split <;> omega
        · split <;> omega
      have hcopy : (slice s.ram p k).length ≤ n := by
        rw [slice_length]
        exact hkn
      obtain ⟨hfill, hkeep'⟩ := fill_good hinv hkeep hcopy
      have hpold : (p, m) ∈ (r, n) :: w.live := List.mem_cons_of_mem _ hp
      obtain ⟨s', free', spans', hfree, hinv', hkeep''⟩ := hfill.free_block hpold
      have hrp : r ≠ p := by
        have := hinv.fresh s.ram (p, slice s.ram p m) (List.mem_map.mpr ⟨(p, m), hp, rfl⟩)
        simp only at this
        omega
      have hfilter : (((r, n) :: w.live).filter fun b => b.1 ≠ p) =
          (r, n) :: w.live.filter fun b => b.1 ≠ p := List.filter_cons_of_pos (by simpa using hrp)
      simp only [hfilter] at hinv' hkeep''
      refine ⟨r, ⟨s', (r, n) :: w.live.filter fun b => b.1 ≠ p⟩, ?_, hinv'.good, ?_⟩
      · have hreal : memReallocDebug L w.s p n = some (r, s') := by
          rw [memReallocDebug, pvPortRealloc, if_pos hn0, if_pos hp0]
          simp only [xHeapStructSize, if_pos hbit, hsize, hcall, Option.bind_eq_bind,
            Option.bind_some, if_pos hr, ← hk]
          rw [hfree]
          rfl
        simp only [step, hreal, Option.bind_eq_bind, Option.bind_some, if_pos hr]
        rfl
      · have hold : Preserved (w.live.filter fun b => b.1 ≠ p) w.s.ram s'.ram :=
          (hkeep'.sub fun q hq => (List.mem_filter.mp hq).1).trans
            (hkeep''.sub fun q hq => List.mem_cons_of_mem _ hq)
        have hsame : World.contents ⟨s', (r, n) :: w.live.filter fun b => b.1 ≠ p⟩ =
            (r, slice s'.ram r n) :: w.contents.filter fun b => b.1 ≠ p := by
          rw [World.contents, List.map_cons, contents_congr hold, contents_filter]
          rfl
        rw [hsame]
        refine .realloc _ p n r (slice w.s.ram p m) _ hr (hinv.fresh _)
          (List.mem_map.mpr ⟨(p, m), hp, rfl⟩) (slice_length ..) ?_
        rw [slice_length, slice_take _ _ _ _ (Nat.min_le_right m n),
          slice_take _ _ _ _ (Nat.min_le_left m n)]
        have hnew : slice s'.ram r (min m n) = slice (overlay s.ram r (slice s.ram p k)) r (min m n) :=
          slice_congr fun i hi => hkeep'' (r, n) (by simp) (r + i) (by omega) (by simp only; omega)
        have hmid : slice (overlay s.ram r (slice s.ram p k)) r (min m n) = slice s.ram p (min m n) := by
          have hlong : 0 + min m n ≤ (slice s.ram p k).length := by
            rw [slice_length]
            omega
          have hin := slice_overlay_in (m := s.ram) (a := r) hlong
          rw [Nat.add_zero, List.drop_zero, slice_take _ _ _ _ hkm] at hin
          exact hin
        have hfrom : slice s.ram p (min m n) = slice w.s.ram p (min m n) :=
          slice_congr fun i hi => hkeep (p, m) hp (p + i) (by omega) (by simp only; omega)
        rw [hnew, hmid, hfrom]

theorem write_good (h : w.Good L) {a : Nat} {bs : List Byte}
    (hok : ∃ p m, (p, m) ∈ w.live ∧ p ≤ a ∧ a + bs.length ≤ p + m) :
    World.Good L ⟨{ w.s with ram := overlay w.s.ram a bs }, w.live⟩ ∧
      World.contents ⟨{ w.s with ram := overlay w.s.ram a bs }, w.live⟩ =
        w.contents.map (put a bs) := by
  obtain ⟨p, m, hp, h1, h2⟩ := hok
  obtain ⟨free, spans, hinv⟩ := h.of_mem hp
  refine ⟨(hinv.store hp h1 h2).good, ?_⟩
  rw [World.contents, World.contents, List.map_map]
  apply List.map_congr_left
  intro q hq
  rw [Function.comp_apply, put]
  simp only [slice_length]
  split
  case isTrue hin => rw [slice_overlay_put hin.1 hin.2]
  case isFalse hin =>
    have hsymm : Std.Symm fun p q : Nat × Nat => p.1 + p.2 + 8 ≤ q.1 ∨ q.1 + q.2 + 8 ≤ p.1 :=
      ⟨fun _ _ => Or.symm⟩
    have hne : (p, m) ≠ q := by
      rintro rfl
      exact hin ⟨h1, h2⟩
    have hap := hinv.apart.forall hp hq hne
    simp only at hap
    rw [slice_overlay_out (by omega)]

/-- Every call returns and keeps the world in order, and its results are those of `Spec`. -/
theorem step_good (h : w.Good L) {c : Call} (hok : c.Ok w) :
    ∃ r w', step L w c = some (r, w') ∧ w'.Good L ∧ Spec w.contents c r w'.contents := by
  cases c with
  | alloc n =>
    obtain ⟨r, s, hcall, hgood, ⟨rfl, hsame⟩ | ⟨hr, hfresh, hsame⟩⟩ := zeros_good h hok
    · refine ⟨0, _, by simp [step, hcall], hgood, ?_⟩
      rw [hsame]
      exact .noAlloc ..
    · refine ⟨r, _, by simp [step, hcall], hgood, ?_⟩
      rw [hsame]
      exact .alloc _ _ _ hr hfresh
  | calloc k n =>
    obtain ⟨r, s, hcall, hgood, ⟨rfl, hsame⟩ | ⟨hr, hfresh, hsame⟩⟩ :=
      zeros_good h (n := k * n % 2 ^ 32) (Nat.mod_lt _ (by decide))
    · refine ⟨0, _, by simp only [step, memCallocDebug_eq, hcall]; rfl, hgood, ?_⟩
      rw [hsame]
      exact .noCalloc ..
    · refine ⟨r, _, by simp only [step, memCallocDebug_eq, hcall]; rfl, hgood, ?_⟩
      rw [hsame]
      exact .calloc _ _ _ _ hr hfresh
  | realloc p n => exact realloc_good h hok.1 hok.2
  | free p =>
    obtain ⟨s, hcall, hgood, hsame⟩ := free_good h hok
    refine ⟨0, _, by simp [step, hcall], hgood, ?_⟩
    rw [hsame]
    exact .free ..
  | write a bs =>
    obtain ⟨hgood, hsame⟩ := write_good h hok
    refine ⟨0, _, rfl, hgood, ?_⟩
    rw [hsame]
    exact .write ..

end Steps

end Heap
end Air101
