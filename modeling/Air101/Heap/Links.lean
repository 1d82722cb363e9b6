import Air101.Heap.Alloc
import Air101.Storage.Spans

/-!
# Heap.Links

The free list as the RAM holds it, and what the two walks over it and the insertion do.

* `Linked ram p bs e`: the headers from `p` on are those of the blocks `bs`, in front of `e`.
* `Same hs ram ram'`: the two memories differ in the headers at the addresses `hs` only.
* `insert_walk`: the insertion of a block turns the list into `insertSpan` of it.
* `firstFit_linked`: the walk of `pvPortMalloc` ends at the first block that is large enough.
* `statsWalk_linked`: the walk of `vPortGetHeapStats` finds the largest block and the smallest.
-/

namespace Air101
namespace Heap

open Storage

/-! ## Headers -/

/-- Two addresses of headers are the same or the headers lie apart. -/
def Sep (p q : Nat) : Prop := p = q ∨ p + 8 ≤ q ∨ q + 8 ≤ p

theorem Sep.symm {p q : Nat} (h : Sep p q) : Sep q p := by
  simp only [Sep] at *
  omega

section Headers

variable {ram : Nat → Byte} {p q v : Nat}

theorem next_setNext (hv : v < 2 ^ 32) (h : Sep p q) :
    pxNextFreeBlock (setNext ram p v) q = if q = p then v else pxNextFreeBlock ram q := by
  simp only [Sep] at h
  simp only [pxNextFreeBlock, setNext]
  split
  case isTrue heq =>
    subst heq
    exact ldw_stw_self hv
  case isFalse => exact ldw_stw_apart (by omega)

theorem size_setSize (hv : v < 2 ^ 32) (h : Sep p q) :
    xBlockSize (setSize ram p v) q = if q = p then v else xBlockSize ram q := by
  simp only [Sep] at h
  simp only [xBlockSize, setSize]
  split
  case isTrue heq =>
    subst heq
    exact ldw_stw_self hv
  case isFalse => exact ldw_stw_apart (by omega)

theorem next_setSize (h : Sep p q) : pxNextFreeBlock (setSize ram p v) q = pxNextFreeBlock ram q := by
  simp only [Sep] at h
  exact ldw_stw_apart (by omega)

theorem size_setNext (h : Sep p q) : xBlockSize (setNext ram p v) q = xBlockSize ram q := by
  simp only [Sep] at h
  exact ldw_stw_apart (by omega)

theorem next_lt : pxNextFreeBlock ram p < 2 ^ 32 := ldw_lt ram p

end Headers

/-- The memories differ in the headers at the addresses `hs` only. -/
def Same (hs : List Nat) (ram ram' : Nat → Byte) : Prop :=
  ∀ x, (∀ h ∈ hs, x < h ∨ h + 8 ≤ x) → ram' x = ram x

namespace Same

variable {hs ks : List Nat} {ram ram' ram'' : Nat → Byte}

theorem trans (h1 : Same hs ram ram') (h2 : Same hs ram' ram'') : Same hs ram ram'' := fun x hx =>
  (h2 x hx).trans (h1 x hx)

theorem mono (h : Same hs ram ram') (hsub : ∀ a ∈ hs, a ∈ ks) : Same ks ram ram' := fun x hx =>
  h x fun a ha => hx a (hsub a ha)

theorem setNext {p v : Nat} (hp : p ∈ hs) : Same hs ram (setNext ram p v) := by
  intro x hx
  have := hx p hp
  exact stw_out (by omega)

theorem setSize {p v : Nat} (hp : p ∈ hs) : Same hs ram (setSize ram p v) := by
  intro x hx
  have := hx p hp
  exact stw_out (by omega)

theorem next (h : Same hs ram ram') {q : Nat} (hq : ∀ a ∈ hs, q + 8 ≤ a ∨ a + 8 ≤ q) :
    pxNextFreeBlock ram' q = pxNextFreeBlock ram q := by
  refine ldw_congr fun x h1 h2 => h x fun a ha => ?_
  have := hq a ha
  omega

theorem size (h : Same hs ram ram') {q : Nat} (hq : ∀ a ∈ hs, q + 8 ≤ a ∨ a + 8 ≤ q) :
    xBlockSize ram' q = xBlockSize ram q := by
  refine ldw_congr fun x h1 h2 => h x fun a ha => ?_
  have := hq a ha
  omega

end Same

/-! ## Lists in memory -/

/-- The headers from `p` on are those of the blocks `bs`; behind the last of them is `e`. -/
def Linked (ram : Nat → Byte) : Nat → List Span → Nat → Prop
  | p, [], e => p = e
  | p, b :: bs, e => p = b.pos ∧ xBlockSize ram p = b.len ∧ Linked ram (pxNextFreeBlock ram p) bs e

/-- The address a list begins at. -/
def headAt (e : Nat) : List Span → Nat
  | [] => e
  | b :: _ => b.pos

theorem Linked.head {ram : Nat → Byte} {p e : Nat} {bs : List Span} (h : Linked ram p bs e) :
    p = headAt e bs := by
  cases bs with
  | nil => exact h
  | cons b bs => exact h.1

/-- A list depends on the headers of its blocks only. -/
theorem Linked.congr {ram ram' : Nat → Byte} {bs : List Span} {p e : Nat} (h : Linked ram p bs e)
    (hn : ∀ b ∈ bs, pxNextFreeBlock ram' b.pos = pxNextFreeBlock ram b.pos)
    (hs : ∀ b ∈ bs, xBlockSize ram' b.pos = xBlockSize ram b.pos) : Linked ram' p bs e := by
  induction bs generalizing p with
  | nil => exact h
  | cons b bs ih =>
    obtain ⟨rfl, hsize, hrest⟩ := h
    refine ⟨rfl, (hs b (by simp)).trans hsize, ?_⟩
    rw [hn b (by simp)]
    exact ih hrest (fun c hc => hn c (by simp [hc])) (fun c hc => hs c (by simp [hc]))

theorem Linked.same {ram ram' : Nat → Byte} {hs : List Nat} {bs : List Span} {p e : Nat}
    (h : Linked ram p bs e) (hsame : Same hs ram ram')
    (hout : ∀ b ∈ bs, ∀ a ∈ hs, b.pos + 8 ≤ a ∨ a + 8 ≤ b.pos) : Linked ram' p bs e :=
  h.congr (fun b hb => hsame.next (hout b hb)) (fun b hb => hsame.size (hout b hb))

/-! ## Insertion -/

/-- `b` behind the block `c`, merged with it and with the first of the rest where they touch. -/
def place (c : Span) (cs : List Span) (b : Span) : List Span :=
  if c.stop = b.pos then joinRight ⟨c.pos, c.len + b.len⟩ cs else c :: joinRight b cs

/-- `b` somewhere behind the block `c`. -/
def insertBehind (c : Span) : List Span → Span → List Span
  | [], b => place c [] b
  | d :: ds, b => if d.pos < b.pos then c :: insertBehind d ds b else place c (d :: ds) b

theorem insertBehind_apart {c b : Span} {cs : List Span} (hgap : cs.Pairwise fun c d => c.stop < d.pos)
    (hcs : ∀ d ∈ cs, d.pos ≠ b.pos) (h : c.stop ≠ b.pos) :
    insertBehind c cs b = c :: insertSpan cs b := by
  induction cs generalizing c with
  | nil => simp [insertBehind, place, h, joinRight, insertSpan]
  | cons d ds ih =>
    obtain ⟨hd, hds⟩ := List.pairwise_cons.mp hgap
    have hdb := hcs d (by simp)
    rw [insertBehind, insertSpan]
    split
    case isTrue hlt =>
      rw [if_neg (by omega)]
      split
      case isTrue heq =>
        -- `d` ends at `b`, so the block behind `d` lies behind `b`
        cases ds with
        | nil => rw [insertBehind, place, if_pos heq]
        | cons f fs =>
          have := hd f (by simp)
          rw [insertBehind, if_neg (by omega), place, if_pos heq]
      case isFalse hne => rw [ih hds (fun f hf => hcs f (by simp [hf])) hne]
    case isFalse hge => rw [if_pos (by omega), place, if_neg h]

/-- Headers that do not overlap. -/
def Spread (ps : List Nat) : Prop := ps.Pairwise fun p q => p + 8 ≤ q ∨ q + 8 ≤ p

theorem Spread.head {p : Nat} {ps : List Nat} (h : Spread (p :: ps)) :
    ∀ q ∈ ps, p + 8 ≤ q ∨ q + 8 ≤ p := (List.pairwise_cons.mp h).1

theorem Spread.tail {p : Nat} {ps : List Nat} (h : Spread (p :: ps)) : Spread ps :=
  (List.pairwise_cons.mp h).2

theorem Spread.skip {p q : Nat} {ps : List Nat} (h : Spread (p :: q :: ps)) : Spread (p :: ps) :=
  List.pairwise_cons.mpr ⟨fun r hr => h.head r (by simp [hr]), h.tail.tail⟩

/-- The second half of an insertion: the block is in front of the rest, or has taken in its first. -/
theorem joinNext_linked {ram : Nat → Byte} {e : Nat} {b : Span} {cs : List Span} {p : Nat}
    (hlink : Linked ram p cs e) (hsize : xBlockSize ram b.pos = b.len)
    (hspread : Spread (b.pos :: cs.map Span.pos)) (hend : ∀ d ∈ cs, d.pos ≠ e) (he : e < 2 ^ 32)
    (hsum : b.len + total cs < 2 ^ 32) (hpos : ∀ d ∈ cs, d.pos < 2 ^ 32) :
    Linked (joinNext ram e b.pos p) b.pos (joinRight b cs) e ∧
      Same [b.pos] ram (joinNext ram e b.pos p) := by
  have hout : ∀ d ∈ cs, ∀ a ∈ [b.pos], d.pos + 8 ≤ a ∨ a + 8 ≤ d.pos := by
    intro d hd a ha
    rw [List.mem_singleton.mp ha]
    exact (hspread.head d.pos (List.mem_map_of_mem hd)).symm
  have hself : Sep b.pos b.pos := .inl rfl
  cases cs with
  | nil =>
    have hset : joinNext ram e b.pos p = setNext ram b.pos e := by
      have hpe : p = e := hlink
      rw [joinNext, hpe]
      simp
    rw [hset]
    refine ⟨⟨rfl, ?_, ?_⟩, Same.setNext (by simp)⟩
    · rw [size_setNext hself, hsize]
    · rw [next_setNext he hself, if_pos rfl]
      rfl
  | cons d ds =>
    obtain ⟨rfl, hdsize, hrest⟩ := hlink
    have hde := hend d (by simp)
    have hbd := hspread.head d.pos (by simp)
    have hsep : Sep b.pos d.pos := .inr hbd
    rw [total_cons] at hsum
    by_cases htouch : b.pos + b.len = d.pos
    · have hset : joinNext ram e b.pos d.pos =
          setNext (setSize ram b.pos (b.len + d.len)) b.pos (pxNextFreeBlock ram d.pos) := by
        rw [joinNext, hsize, if_pos htouch, if_pos hde, hdsize]
        dsimp only
        rw [next_setSize hsep]
      have hsame : Same [b.pos] ram (joinNext ram e b.pos d.pos) := by
        rw [hset]
        exact (Same.setSize (by simp)).trans (Same.setNext (by simp))
      refine ⟨?_, hsame⟩
      rw [joinRight, if_pos (show b.stop = d.pos from htouch)]
      refine ⟨rfl, ?_, ?_⟩
      · rw [hset, size_setNext hself, size_setSize (by omega) hself, if_pos rfl]
      · have hnext : pxNextFreeBlock (joinNext ram e b.pos d.pos) b.pos = pxNextFreeBlock ram d.pos := by
          rw [hset, next_setNext next_lt hself, if_pos rfl]
        rw [hnext]
        exact hrest.same hsame fun f hf => hout f (by simp [hf])
    · have hset : joinNext ram e b.pos d.pos = setNext ram b.pos d.pos := by
        rw [joinNext, hsize, if_neg htouch]
      have hsame : Same [b.pos] ram (joinNext ram e b.pos d.pos) := by
        rw [hset]
        exact Same.setNext (by simp)
      refine ⟨?_, hsame⟩
      rw [joinRight, if_neg (show b.stop ≠ d.pos from htouch)]
      refine ⟨rfl, ?_, ?_⟩
      · rw [hset, size_setNext hself, hsize]
      · have hnext : pxNextFreeBlock (joinNext ram e b.pos d.pos) b.pos = d.pos := by
          rw [hset, next_setNext (hpos d (by simp)) hself, if_pos rfl]
        rw [hnext]
        have hall : Linked ram d.pos (d :: ds) e := ⟨rfl, hdsize, hrest⟩
        exact hall.same hsame hout

/-- An insertion behind the block it is to be linked to. -/
theorem insertAt_linked {ram : Nat → Byte} {e : Nat} {b c : Span} {cs : List Span}
    (hlink : Linked ram c.pos (c :: cs) e) (hsize : xBlockSize ram b.pos = b.len)
    (hspread : Spread (b.pos :: c.pos :: cs.map Span.pos)) (hend : ∀ d ∈ cs, d.pos ≠ e)
    (he : e < 2 ^ 32) (hsum : b.len + total (c :: cs) < 2 ^ 32) (hb : b.pos < 2 ^ 32)
    (hpos : ∀ d ∈ cs, d.pos < 2 ^ 32) :
    Linked (insertAt ram e c.pos b.pos) c.pos (place c cs b) e ∧
      Same [c.pos, b.pos] ram (insertAt ram e c.pos b.pos) := by
  obtain ⟨-, hcsize, hrest⟩ := hlink
  have hbc := hspread.head c.pos (by simp)
  have hself : Sep c.pos c.pos := .inl rfl
  have hsep : Sep c.pos b.pos := .inr hbc.symm
  rw [total_cons] at hsum
  by_cases htouch : c.pos + c.len = b.pos
  · -- the block in front takes `b` in, and then perhaps the block behind
    have hsame : Same [c.pos] ram (setSize ram c.pos (c.len + b.len)) := Same.setSize (by simp)
    have hset : insertAt ram e c.pos b.pos =
        joinNext (setSize ram c.pos (c.len + b.len)) e c.pos (pxNextFreeBlock ram c.pos) := by
      simp only [insertAt, hcsize, htouch, if_true, ne_eq, not_true_eq_false, if_false, hsize]
      rw [next_setSize hself]
    have hout : ∀ d ∈ cs, ∀ a ∈ [c.pos], d.pos + 8 ≤ a ∨ a + 8 ≤ d.pos := by
      intro d hd a ha
      rw [List.mem_singleton.mp ha]
      exact (hspread.tail.head d.pos (List.mem_map_of_mem hd)).symm
    obtain ⟨h1, h2⟩ := joinNext_linked (b := ⟨c.pos, c.len + b.len⟩) (hrest.same hsame hout)
      (by rw [size_setSize (by omega) hself, if_pos rfl]) hspread.tail hend he
      (by simp only; omega) hpos
    rw [hset, place, if_pos (show c.stop = b.pos from htouch)]
    exact ⟨h1, (hsame.trans h2).mono (by simp)⟩
  · have hset : insertAt ram e c.pos b.pos =
        setNext (joinNext ram e b.pos (pxNextFreeBlock ram c.pos)) c.pos b.pos := by
      simp only [insertAt, hcsize, htouch, if_false]
      rw [if_pos (by omega)]
    obtain ⟨h1, h2⟩ := joinNext_linked hrest hsize hspread.skip hend he (by omega) hpos
    have hcout : ∀ a ∈ [b.pos], c.pos + 8 ≤ a ∨ a + 8 ≤ c.pos := by
      intro a ha
      rw [List.mem_singleton.mp ha]
      exact hbc.symm
    rw [hset, place, if_neg (show c.stop ≠ b.pos from htouch)]
    refine ⟨⟨rfl, ?_, ?_⟩, (h2.mono (by simp)).trans (Same.setNext (by simp))⟩
    · rw [size_setNext hself, h2.size hcout, hcsize]
    · rw [next_setNext hb hself, if_pos rfl]
      refine h1.same (show Same [c.pos] _ _ from Same.setNext (by simp)) ?_
      intro d hd a ha
      rw [List.mem_singleton.mp ha]
      rcases pos_joinRight hd with heq | ⟨f, hf, heq⟩
      · rw [heq]
        exact hbc
      · rw [heq]
        exact (hspread.tail.head f.pos (List.mem_map_of_mem hf)).symm

/-- The walk of the insertion and its stores. -/
theorem insert_walk {ram : Nat → Byte} {e : Nat} {b : Span} {cs : List Span} {c : Span} {n : Nat}
    (hlink : Linked ram c.pos (c :: cs) e) (hn : cs.length < n)
    (hsize : xBlockSize ram b.pos = b.len)
    (hspread : Spread (b.pos :: c.pos :: cs.map Span.pos)) (hbe : b.pos ≤ e)
    (hend : ∀ d ∈ cs, d.pos ≠ e) (he : e < 2 ^ 32) (hsum : b.len + total (c :: cs) < 2 ^ 32)
    (hb : b.pos < 2 ^ 32) (hpos : ∀ d ∈ cs, d.pos < 2 ^ 32) :
    ∃ it ∈ c.pos :: cs.map Span.pos, insertionPoint ram b.pos n c.pos = some it ∧
      Linked (insertAt ram e it b.pos) c.pos (insertBehind c cs b) e ∧
      Same [it, b.pos] ram (insertAt ram e it b.pos) := by
  induction cs generalizing c n with
  | nil =>
    obtain ⟨k, rfl⟩ : ∃ k, n = k + 1 := ⟨n - 1, by omega⟩
    have hnext : pxNextFreeBlock ram c.pos = e := hlink.2.2
    refine ⟨c.pos, by simp, ?_, insertAt_linked hlink hsize hspread hend he hsum hb hpos⟩
    rw [insertionPoint, hnext, if_neg (by omega)]
  | cons d ds ih =>
    obtain ⟨k, rfl⟩ : ∃ k, n = k + 1 := ⟨n - 1, by simp at hn; omega⟩
    obtain ⟨-, hcsize, hrest⟩ := id hlink
    have hnext : pxNextFreeBlock ram c.pos = d.pos := hrest.head
    by_cases hlt : d.pos < b.pos
    · rw [hnext] at hrest
      obtain ⟨it, hit, h1, h2, h3⟩ := ih hrest (n := k) (by simp at hn; omega)
        (by
          refine List.pairwise_cons.mpr ⟨fun q hq => hspread.head q ?_, hspread.tail.tail⟩
          exact List.mem_cons_of_mem _ hq)
        (fun f hf => hend f (by simp [hf])) (by simp only [total_cons] at hsum ⊢; omega)
        (fun f hf => hpos f (by simp [hf]))
      have hout : ∀ a ∈ [it, b.pos], c.pos + 8 ≤ a ∨ a + 8 ≤ c.pos := by
        intro a ha
        rcases List.mem_cons.mp ha with rfl | ha
        · exact hspread.tail.head a (by simpa using hit)
        · rw [List.mem_singleton.mp ha]
          exact (hspread.head c.pos (by simp)).symm
      refine ⟨it, List.mem_cons_of_mem _ (by simpa using hit), ?_, ?_, h3⟩
      · rw [insertionPoint, hnext, if_pos hlt, h1]
      · rw [insertBehind, if_pos hlt]
        refine ⟨rfl, (h3.size hout).trans hcsize, ?_⟩
        rw [h3.next hout, hnext]
        exact h2
    · refine ⟨c.pos, by simp, ?_, ?_⟩
      · rw [insertionPoint, hnext, if_neg hlt]
      · rw [insertBehind, if_neg hlt]
        exact insertAt_linked hlink hsize hspread hend he hsum hb hpos

/-! ## Taking a block out -/

/-- The address of the last block of a list that begins behind `p`. -/
def lastAt (p : Nat) : List Span → Nat
  | [] => p
  | b :: bs => lastAt b.pos bs

theorem lastAt_mem (p : Nat) (bs : List Span) : lastAt p bs ∈ p :: bs.map Span.pos := by
  induction bs generalizing p with
  | nil => simp [lastAt]
  | cons b bs ih => exact List.mem_cons_of_mem _ (ih b.pos)

/-- The walk of `pvPortMalloc` ends at the end marker if no block is large enough, and else at the
first one that is. -/
theorem firstFit_linked {ram : Nat → Byte} {e w : Nat} {cs : List Span} {p q n : Nat}
    (hlink : Linked ram q cs e) (hn : cs.length < n) (he : pxNextFreeBlock ram e = 0)
    (he0 : e ≠ 0) (hpos : ∀ d ∈ cs, d.pos ≠ 0) :
    ((∀ d ∈ cs, d.len < w) ∧ ∃ r, firstFit ram w n p q = some (r, e)) ∨
      ∃ pre b post, cs = pre ++ b :: post ∧ w ≤ b.len ∧
        firstFit ram w n p q = some (lastAt p pre, b.pos) := by
  induction cs generalizing p q n with
  | nil =>
    obtain ⟨k, rfl⟩ : ∃ k, n = k + 1 := ⟨n - 1, by omega⟩
    have hq : q = e := hlink
    refine .inl ⟨by simp, p, ?_⟩
    rw [firstFit, hq, he, if_neg (by simp)]
  | cons d ds ih =>
    obtain ⟨k, rfl⟩ : ∃ k, n = k + 1 := ⟨n - 1, by simp at hn; omega⟩
    obtain ⟨rfl, hsize, hrest⟩ := hlink
    by_cases hlt : d.len < w
    · have hnext : pxNextFreeBlock ram d.pos ≠ 0 := by
        rw [hrest.head]
        cases ds with
        | nil => exact he0
        | cons f fs => exact hpos f (by simp)
      have hstep : firstFit ram w (k + 1) p d.pos =
          firstFit ram w k d.pos (pxNextFreeBlock ram d.pos) := by
        rw [firstFit, hsize, if_pos ⟨hlt, hnext⟩]
      rw [hstep]
      rcases ih (p := d.pos) hrest (n := k) (by simp at hn; omega)
        (fun f hf => hpos f (by simp [hf])) with ⟨hall, hres⟩ | ⟨pre, b, post, rfl, hw, hres⟩
      · exact .inl ⟨List.forall_mem_cons.mpr ⟨hlt, hall⟩, hres⟩
      · exact .inr ⟨d :: pre, b, post, rfl, hw, hres⟩
    · refine .inr ⟨[], d, ds, rfl, by omega, ?_⟩
      rw [firstFit, hsize, if_neg (by omega)]
      rfl

theorem le_larger {w x m : Nat} : (w ≤ if x > m then x else m) ↔ w ≤ m ∨ w ≤ x := by
  split <;> omega

theorem smaller_le {w x m : Nat} : (if x < m then x else m) ≤ w ↔ m ≤ w ∨ x ≤ w := by
  split <;> omega

/-- The walk of `vPortGetHeapStats` over a list that is not empty. -/
theorem statsWalk_linked {ram : Nat → Byte} {e : Nat} {ds : List Span} {d : Span} {q n : Nat}
    (k mx mn : Nat) (hlink : Linked ram q (d :: ds) e) (hn : ds.length + 1 < n)
    (hpos : ∀ c ∈ d :: ds, c.pos ≠ 0 ∧ c.pos ≠ e) :
    ∃ mx' mn', statsWalk ram e n q (k, mx, mn) = some (k + ds.length + 1, mx', mn') ∧
      (∀ w, w ≤ mx' ↔ w ≤ mx ∨ ∃ c ∈ d :: ds, w ≤ c.len) ∧
      (∀ w, mn' ≤ w ↔ mn ≤ w ∨ ∃ c ∈ d :: ds, c.len ≤ w) := by
  induction ds generalizing d q n k mx mn with
  | nil =>
    obtain ⟨n, rfl⟩ : ∃ m, n = m + 1 := ⟨n - 1, by omega⟩
    obtain ⟨rfl, hsize, hrest⟩ := hlink
    have hnext : pxNextFreeBlock ram d.pos = e := hrest
    refine ⟨if d.len > mx then d.len else mx, if d.len < mn then d.len else mn, ?_, ?_, ?_⟩
    · rw [statsWalk, if_neg (hpos d (by simp)).1]
      simp only [hnext, ne_eq, not_true_eq_false, if_false, hsize]
      rfl
    · intro w
      rw [le_larger]
      simp
    · intro w
      rw [smaller_le]
      simp
  | cons c cs ih =>
    obtain ⟨n, rfl⟩ : ∃ m, n = m + 1 := ⟨n - 1, by omega⟩
    obtain ⟨rfl, hsize, hrest⟩ := hlink
    have hnext : pxNextFreeBlock ram d.pos = c.pos := hrest.head
    rw [hnext] at hrest
    obtain ⟨mx', mn', hwalk, hmx, hmn⟩ := ih (k + 1)
      (if d.len > mx then d.len else mx) (if d.len < mn then d.len else mn) hrest
      (n := n) (by simp at hn; omega) fun f hf => hpos f (List.mem_cons_of_mem _ hf)
    refine ⟨mx', mn', ?_, ?_, ?_⟩
    · rw [statsWalk, if_neg (hpos d (by simp)).1]
      simp only [hnext, hsize, ne_eq, (hpos c (by simp)).2, not_false_eq_true, if_true]
      rw [hwalk, List.length_cons]
      congr 2
      omega
    · intro w
      rw [hmx w, le_larger, List.exists_mem_cons_iff (a := d), or_assoc]
    · intro w
      rw [hmn w, smaller_le, List.exists_mem_cons_iff (a := d), or_assoc]

/-- A block taken out of the list: the one in front of it gets its next. -/
theorem unlink_linked {ram : Nat → Byte} {e : Nat} {pre post : List Span} {b c : Span}
    (hlink : Linked ram c.pos (c :: (pre ++ b :: post)) e)
    (hspread : Spread (c.pos :: (pre ++ b :: post).map Span.pos)) :
    pxNextFreeBlock ram (lastAt c.pos pre) = b.pos ∧ xBlockSize ram b.pos = b.len ∧
      Linked (setNext ram (lastAt c.pos pre) (pxNextFreeBlock ram b.pos)) c.pos
        (c :: (pre ++ post)) e := by
  induction pre generalizing c with
  | nil =>
    obtain ⟨-, hcsize, hrest⟩ := hlink
    have hnext : pxNextFreeBlock ram c.pos = b.pos := hrest.head
    rw [hnext] at hrest
    obtain ⟨-, hbsize, hpost⟩ := hrest
    refine ⟨hnext, hbsize, rfl, ?_, ?_⟩
    · rw [lastAt, size_setNext (.inl rfl), hcsize]
    · rw [lastAt, next_setNext next_lt (.inl rfl), if_pos rfl]
      refine hpost.same (show Same [c.pos] _ _ from Same.setNext (by simp)) ?_
      intro d hd a ha
      rw [List.mem_singleton.mp ha]
      refine (hspread.head d.pos ?_).symm
      exact List.mem_map_of_mem (by simp [hd])
  | cons d ds ih =>
    obtain ⟨-, hcsize, hrest⟩ := hlink
    have hnext : pxNextFreeBlock ram c.pos = d.pos := hrest.head
    rw [hnext] at hrest
    obtain ⟨h1, h2, h3⟩ := ih hrest hspread.tail
    have hsame : Same [lastAt d.pos ds] ram
        (setNext ram (lastAt d.pos ds) (pxNextFreeBlock ram b.pos)) := Same.setNext (by simp)
    have hout : ∀ a ∈ [lastAt d.pos ds], c.pos + 8 ≤ a ∨ a + 8 ≤ c.pos := by
      intro a ha
      rw [List.mem_singleton.mp ha]
      refine hspread.head _ ?_
      have hmem := lastAt_mem d.pos ds
      simp only [List.cons_append, List.map_cons, List.map_append, List.mem_cons,
        List.mem_append] at hmem ⊢
      rcases hmem with h | h
      · exact .inl h
      · exact .inr (.inl h)
    refine ⟨h1, h2, rfl, (hsame.size hout).trans hcsize, ?_⟩
    rw [lastAt, hsame.next hout, hnext]
    exact h3

end Heap
end Air101
