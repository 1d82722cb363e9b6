import Air101.Maptool.Attribution
import Mathlib.Data.List.Dedup

/-!
# Maptool.Conserve

The sizes of the anonymous objects are shared among their symbols. The shares of an object add up to
its size (`sum_shares`), and the sizes of the functions go up by those that are not dropped:

* a symbol with a section of its own gets nothing (`foldl_allot`);
* an object without symbols gets nothing when its synthetic name is taken.

`size_conserved_iff` says of a map file whether that happens to a byte of it.
-/

namespace Air101
namespace Maptool

open Storage

/-! ## Shares -/

theorem sum_range_extra (q r k : Nat) :
    ((List.range k).map fun i => q + if i < r then 1 else 0).sum = k * q + min k r := by
  induction k with
  | zero => simp
  | succ k ih =>
    rw [List.range_succ, List.map_append, List.sum_append, ih, Nat.succ_mul]
    simp only [List.map_cons, List.map_nil, List.sum_cons, List.sum_nil]
    split <;> omega

theorem share_eq (n count i : Nat) :
    share n count i = n / count + if i < n % count then 1 else 0 := by
  have hrem : n - n / count * count = n % count := by
    rw [Nat.mod_eq_sub, Nat.mul_comm]
  simp only [share, hrem]

/-- No byte is lost in a division. -/
theorem sum_shares (n : Nat) {count : Nat} (h : 0 < count) :
    ((List.range count).map (share n count)).sum = n := by
  have hmod := Nat.mod_lt n h
  rw [show share n count = fun i => n / count + if i < n % count then 1 else 0 from
    funext (share_eq n count), sum_range_extra, Nat.min_eq_right (Nat.le_of_lt hmod)]
  exact Nat.div_add_mod n count

/-- The first `n` places get something. -/
theorem share_eq_zero_iff {n count i : Nat} (h : i < count) : share n count i = 0 ↔ n ≤ i := by
  rw [share_eq]
  by_cases hn : n < count
  · rw [Nat.div_eq_of_lt hn, Nat.mod_eq_of_lt hn]
    split <;> omega
  · have hpos : 0 < n / count := Nat.div_pos (Nat.le_of_not_lt hn) (by omega)
    omega

/-! ## One object -/

/-- A function with a section of its own. -/
def IsNamed (functions : Dict Text FunctionInfo) (x : Text) : Prop :=
  ∃ f, functions.get? x = some f ∧ f.isNamed = true

/-- What of a size goes to some functions: the functions named and known before, those known
behind, and the bytes. -/
structure Gains (functions functions' : Dict Text FunctionInfo) (new : List Text) (n : Nat)
    (kept : Prop) : Prop where
  named : ∀ x, IsNamed functions' x ↔ IsNamed functions x
  known : ∀ x, x ∈ functions'.keys ↔ x ∈ new ∨ x ∈ functions.keys
  le : functions'.total (·.flashSize) ≤ functions.total (·.flashSize) + n
  eq_iff : functions'.total (·.flashSize) = functions.total (·.flashSize) + n ↔ kept

section Gains

variable {functions functions' functions'' : Dict Text FunctionInfo} {new new' : List Text}
  {n n' : Nat} {kept kept' : Prop}

theorem Gains.refl (functions : Dict Text FunctionInfo) : Gains functions functions [] 0 True :=
  ⟨fun _ => Iff.rfl, fun _ => by simp, Nat.le_refl _, by simp⟩

theorem Gains.trans (h : Gains functions functions' new n kept)
    (h' : Gains functions' functions'' new' n' kept') :
    Gains functions functions'' (new ++ new') (n + n') (kept ∧ kept') := by
  refine ⟨fun x => (h'.named x).trans (h.named x), ?_, ?_, ?_⟩
  · intro x
    rw [h'.known, h.known, List.mem_append]
    tauto
  · have := h.le
    have := h'.le
    omega
  · rw [← h.eq_iff, ← h'.eq_iff]
    have := h.le
    have := h'.le
    omega

theorem Gains.congr (h : Gains functions functions' new n kept)
    (hnew : ∀ x, x ∈ new' ↔ x ∈ new) (hn : n' = n) (hkept : kept' ↔ kept) :
    Gains functions functions' new' n' kept' :=
  ⟨h.named, fun x => by rw [h.known, hnew], hn ▸ h.le, by rw [hn, h.eq_iff, hkept]⟩

/-- A new function, or one that is not named. -/
theorem gains_set {x : Text} (hnot : ¬ IsNamed functions x) {f : FunctionInfo}
    (hnamed : f.isNamed = false)
    (hflash : f.flashSize = ((functions.get? x).map (·.flashSize)).getD 0 + n) :
    Gains functions (functions.set x f) [x] n True := by
  have htotal := Dict.total_set (·.flashSize) functions x f
  refine ⟨?_, ?_, by omega, by simp only [iff_true]; omega⟩
  · intro y
    simp only [IsNamed, Dict.get?_set]
    by_cases hy : y = x
    · subst hy
      simp only [if_true, Option.some.injEq, exists_eq_left', hnamed, Bool.false_eq_true, false_iff]
      exact hnot
    · simp [hy]
  · intro y
    rw [Dict.mem_keys_set, List.mem_singleton]

/-- The share of a symbol is dropped when it has a section of its own. -/
theorem allot_gains (objPath : Text) (functions : Dict Text FunctionInfo) (sym : Text)
    (allocated : Nat) :
    Gains functions (allot objPath functions sym allocated) [sym] allocated
      (IsNamed functions sym → allocated = 0) := by
  unfold allot
  cases hget : functions.get? sym with
  | none =>
    have hnot : ¬ IsNamed functions sym := by
      rintro ⟨f, hf, -⟩
      cases hget.symm.trans hf
    refine (gains_set hnot rfl ?_).congr (fun _ => Iff.rfl) rfl (by simp [hnot])
    rw [hget]
    exact (Nat.zero_add allocated).symm
  | some func =>
    simp only
    by_cases hnamed : func.isNamed = true
    · have hin : sym ∈ functions.keys := Dict.mem_keys_iff.mpr ⟨func, hget⟩
      have his : IsNamed functions sym := ⟨func, hget, hnamed⟩
      rw [if_pos hnamed]
      refine ⟨fun _ => Iff.rfl, ?_, Nat.le_add_right _ _, ?_⟩
      · intro x
        rw [List.mem_singleton]
        exact ⟨.inr, fun hx => hx.elim (fun hx => hx ▸ hin) id⟩
      · simp only [his, forall_const]
        omega
    · have hnot : ¬ IsNamed functions sym := by
        rintro ⟨f, hf, h⟩
        cases hget.symm.trans hf
        exact hnamed h
      have hfalse : func.isNamed = false := Bool.eq_false_of_not_eq_true hnamed
      have hgains : Gains functions
          (functions.set sym { func with flashSize := func.flashSize + allocated }) [sym] allocated
          True := gains_set hnot hfalse (by rw [hget]; rfl)
      rw [if_neg hnamed]
      exact hgains.congr (fun _ => Iff.rfl) rfl (by simp [hnot])

/-- Shares in a row. -/
theorem foldl_allot (objPath : Text) (amount : Nat → Nat) (ps : List (Text × Nat))
    (functions : Dict Text FunctionInfo) :
    Gains functions
      (ps.foldl (fun functions (sym, i) => allot objPath functions sym (amount i)) functions)
      (ps.map Prod.fst) (ps.map fun p => amount p.2).sum
      (∀ p ∈ ps, IsNamed functions p.1 → amount p.2 = 0) := by
  induction ps generalizing functions with
  | nil => exact (Gains.refl functions).congr (fun _ => Iff.rfl) rfl (by simp)
  | cons p ps ih =>
    obtain ⟨sym, i⟩ := p
    have hone := allot_gains objPath functions sym (amount i)
    refine (hone.trans (ih _)).congr (fun _ => Iff.rfl) (by simp) ?_
    simp only [List.forall_mem_cons, hone.named]

end Gains

/-- The names that get the bytes of an object. -/
def targets (symbols : FinSet Text) (objPath : Text) : List Text :=
  if symbols.elems = [] then [syntheticName objPath] else sorted (realSymbols symbols).elems

theorem realSymbols_ne_nil {symbols : FinSet Text} (h : symbols.elems ≠ []) :
    (realSymbols symbols).elems ≠ [] := by
  unfold realSymbols
  simp only
  split
  · exact h
  · assumption

/-- An object without symbols: one entry, unless its name is taken. -/
theorem distribute_synthetic (functions : Dict Text FunctionInfo) (objPath name : Text) (n : Nat) :
    Gains functions
      (if functions.contains name then functions
        else functions.set name (newAnonObject name objPath n)) [name] n
      (∀ s ∈ [name].take n, ¬ IsNamed functions s ∧ s ∉ functions.keys) := by
  by_cases hin : name ∈ functions.keys
  · rw [if_pos (Dict.contains_iff.mpr hin)]
    refine ⟨fun _ => Iff.rfl, ?_, Nat.le_add_right _ _, ?_⟩
    · intro x
      rw [List.mem_singleton]
      exact ⟨.inr, fun hx => hx.elim (fun hx => hx ▸ hin) id⟩
    · cases n with
      | zero => simp
      | succ n => simp [hin]
  · have hnone := Dict.get?_eq_none_iff.mpr hin
    have hnot : ¬ IsNamed functions name := by
      rintro ⟨f, hf, -⟩
      cases hnone.symm.trans hf
    have hgains : Gains functions (functions.set name (newAnonObject name objPath n)) [name] n
        True := gains_set hnot rfl (by rw [hnone]; exact (Nat.zero_add n).symm)
    rw [if_neg fun h => hin (Dict.contains_iff.mp h)]
    refine hgains.congr (fun _ => Iff.rfl) rfl ?_
    refine iff_of_true ?_ trivial
    intro s hs
    rw [List.mem_singleton.mp (List.mem_of_mem_take hs)]
    exact ⟨hnot, hin⟩

/-- The first `n` of some symbols get something of `n` bytes. -/
theorem shares_dropped_iff {P : Text → Prop} (names : List Text) (n : Nat) :
    (∀ s ∈ names.take n, ¬ P s) ↔
      ∀ p ∈ names.zipIdx, P p.1 → share n names.length p.2 = 0 := by
  constructor
  · rintro h ⟨s, i⟩ hp hs
    rw [List.mem_zipIdx_iff_getElem?] at hp
    obtain ⟨hi, hget⟩ := List.getElem?_eq_some_iff.mp hp
    rw [share_eq_zero_iff hi]
    by_contra hlt
    exact h s (List.mem_take_iff_getElem.mpr ⟨i, by omega, hget⟩) hs
  · intro h s hs hP
    obtain ⟨i, hi, hget⟩ := List.mem_take_iff_getElem.mp hs
    have hmem : (s, i) ∈ names.zipIdx :=
      List.mem_zipIdx_iff_getElem?.mpr (List.getElem?_eq_some_iff.mpr ⟨by omega, hget⟩)
    have := (share_eq_zero_iff (by omega)).mp (h (s, i) hmem hP)
    omega

theorem distributeObject_gains (t : Tracking) (functions : Dict Text FunctionInfo) (objPath : Text)
    (n : Nat) :
    Gains functions (distributeObject t functions objPath n)
      (targets (t.symbolsOf objPath) objPath) n
      (∀ s ∈ (targets (t.symbolsOf objPath) objPath).take n, ¬ IsNamed functions s ∧
        ((t.symbolsOf objPath).elems = [] → s ∉ functions.keys)) := by
  unfold distributeObject targets
  generalize t.symbolsOf objPath = symbols
  by_cases hempty : symbols.elems = []
  · simp only [hempty, if_true, forall_const]
    exact distribute_synthetic functions objPath (syntheticName objPath) n
  · simp only [hempty, if_false, false_implies, and_true]
    have hreal := realSymbols_ne_nil hempty
    have hlength : (sorted (realSymbols symbols).elems).length = (realSymbols symbols).elems.length :=
      (sorted_perm _).length_eq
    have hpos := List.length_pos_of_ne_nil hreal
    rw [← hlength] at hpos ⊢
    generalize sorted (realSymbols symbols).elems = names at hpos ⊢
    refine (foldl_allot objPath (share n names.length) names.zipIdx functions).congr ?_ ?_
      (shares_dropped_iff names n)
    · intro x
      rw [List.zipIdx_map_fst]
    · have hmap : names.zipIdx.map (fun p => share n names.length p.2) =
          (List.range names.length).map (share n names.length) := by
        rw [List.range_eq_range', ← List.zipIdx_map_snd, List.map_map]
        rfl
      rw [hmap, sum_shares n hpos]

/-! ## All objects -/

/-- No byte of an object goes to a name that does not take it. -/
def Keeps (t : Tracking) (named known : Text → Prop) (objPath : Text) (n : Nat) : Prop :=
  ∀ s ∈ (targets (t.symbolsOf objPath) objPath).take n, ¬ named s ∧
    ((t.symbolsOf objPath).elems = [] → ¬ known s)

/-- The functions, and the names of the objects that came before. -/
def Known (t : Tracking) (functions : Dict Text FunctionInfo) (before : List (Text × Nat))
    (s : Text) : Prop :=
  s ∈ functions.keys ∨ ∃ e ∈ before, s ∈ targets (t.symbolsOf e.1) e.1

/-- The objects in a row. -/
theorem foldl_distribute (t : Tracking) (es : List (Text × Nat))
    (functions : Dict Text FunctionInfo) :
    ∃ new, Gains functions
      (es.foldl (fun functions (objPath, n) => distributeObject t functions objPath n) functions)
      new (es.map Prod.snd).sum
      (∀ before o n after, es = before ++ (o, n) :: after →
        Keeps t (IsNamed functions) (Known t functions before) o n) := by
  induction es generalizing functions with
  | nil => exact ⟨[], (Gains.refl functions).congr (fun _ => Iff.rfl) rfl (by simp)⟩
  | cons e es ih =>
    obtain ⟨o, n⟩ := e
    have hone := distributeObject_gains t functions o n
    obtain ⟨new, hrest⟩ := ih (distributeObject t functions o n)
    have hnamed : IsNamed (distributeObject t functions o n) = IsNamed functions :=
      funext fun x => propext (hone.named x)
    have hknown : ∀ before, Known t (distributeObject t functions o n) before =
        Known t functions ((o, n) :: before) := by
      intro before
      funext s
      simp only [Known, hone.known, List.exists_mem_cons_iff]
      refine propext ?_
      tauto
    have hhead : Keeps t (IsNamed functions) (Known t functions []) o n ↔
        ∀ s ∈ (targets (t.symbolsOf o) o).take n, ¬ IsNamed functions s ∧
          ((t.symbolsOf o).elems = [] → s ∉ functions.keys) := by
      simp [Keeps, Known]
    simp only [hnamed, hknown] at hrest
    refine ⟨_, (hone.trans hrest).congr (fun _ => Iff.rfl) (by simp) ?_⟩
    rw [← hhead]
    constructor
    · intro h
      exact ⟨h [] o n es rfl, fun before o' n' after heq =>
        h ((o, n) :: before) o' n' after (by rw [heq]; rfl)⟩
    · rintro ⟨hfirst, htail⟩ before o' n' after heq
      cases before with
      | nil =>
        cases heq
        exact hfirst
      | cons e' before =>
        cases heq
        exact htail before o' n' after rfl

/-! ## The map file -/

/-- The names that get the bytes of an object, by the calls: its synthetic name without symbols, and
else its symbols in order, synthetic ones apart if there are others. -/
def targetsOf (edges : List CallEdge) (objPath : Text) : List Text :=
  targets ⟨(symbolsOf edges objPath).dedup, List.nodup_dedup _⟩ objPath

/-- Going through the objects with bare sections in order of their first one, no byte of an object
goes to a name with a section of its own; and with no symbols known of the object, none goes to the
name of an anonymous caller or to a name that an earlier object took. -/
def Undropped (edges : List CallEdge) (entries : List MapEntry) : Prop :=
  ∀ before o after, anonObjects entries = before ++ o :: after →
    ∀ s ∈ (targetsOf edges o).take (anonSize entries o), ¬ Named entries s ∧
      (symbolsOf edges o = [] → ¬ AnonCaller edges s ∧ ∀ o' ∈ before, s ∉ targetsOf edges o')

theorem realSymbols_perm {a b : FinSet Text} (h : ∀ s, s ∈ a ↔ s ∈ b) :
    (realSymbols a).elems.Perm (realSymbols b).elems := by
  have hperm : a.elems.Perm b.elems := (List.perm_ext_iff_of_nodup a.nodup b.nodup).mpr h
  have hfilter := hperm.filter fun s => s.head? != some '<'
  unfold realSymbols FinSet.filter
  simp only
  by_cases hb : (b.elems.filter fun s => s.head? != some '<') = []
  · rw [if_pos hb, if_pos (by rw [hb] at hfilter; exact hfilter.eq_nil)]
    exact hperm
  · rw [if_neg hb, if_neg fun ha => hb (by rw [ha] at hfilter; exact hfilter.symm.eq_nil)]
    exact hfilter

theorem targets_congr {a b : FinSet Text} (h : ∀ s, s ∈ a ↔ s ∈ b) (objPath : Text) :
    targets a objPath = targets b objPath := by
  have hperm : a.elems.Perm b.elems := (List.perm_ext_iff_of_nodup a.nodup b.nodup).mpr h
  have hnil : a.elems = [] ↔ b.elems = [] := by
    constructor
    · intro ha
      rw [ha] at hperm
      exact hperm.symm.eq_nil
    · intro hb
      rw [hb] at hperm
      exact hperm.eq_nil
  unfold targets
  simp only [hnil, sorted_eq_of_perm (realSymbols_perm h)]

/-- A split of the objects is a split of their sizes. -/
theorem forall_split_iff {t : Tracking} {edges : List CallEdge} {entries : List MapEntry}
    (h : Tracks t edges entries) {P : List Text → Text → Nat → Prop} :
    (∀ before o n after, t.anonObjSizes.entries = before ++ (o, n) :: after →
        P (before.map Prod.fst) o n) ↔
      ∀ before o after, anonObjects entries = before ++ o :: after →
        P before o (anonSize entries o) := by
  have hsize : ∀ o n, (o, n) ∈ t.anonObjSizes.entries → n = anonSize entries o := by
    intro o n hmem
    rw [← h.sizes, Dict.mem_entries_iff.mp hmem]
    rfl
  rw [← h.objects, Dict.keys]
  constructor
  · intro hes before o after heq
    obtain ⟨es, es', hsplit, rfl, htail⟩ := List.map_eq_append_iff.mp heq
    obtain ⟨⟨o', n⟩, es'', rfl, rfl, rfl⟩ := List.map_eq_cons_iff.mp htail
    rw [← hsize o' n (by rw [hsplit]; simp)]
    exact hes es o' n es'' hsplit
  · intro hkeys before o n after heq
    rw [hsize o n (by rw [heq]; simp)]
    exact hkeys (before.map Prod.fst) o (after.map Prod.fst) (by rw [heq]; simp)

theorem targetsOf_eq {t : Tracking} {edges : List CallEdge} {entries : List MapEntry}
    (h : Tracks t edges entries) (o : Text) :
    targetsOf edges o = targets (t.symbolsOf o) o := by
  refine targets_congr ?_ o
  intro s
  rw [h.symbols]
  exact List.mem_dedup

theorem symbolsOf_eq_nil_iff {t : Tracking} {edges : List CallEdge} {entries : List MapEntry}
    (h : Tracks t edges entries) (o : Text) :
    (t.symbolsOf o).elems = [] ↔ symbolsOf edges o = [] := by
  rw [List.eq_nil_iff_forall_not_mem, List.eq_nil_iff_forall_not_mem]
  exact forall_congr' fun s => not_congr (h.symbols o s)

/-- The sizes of the functions add up to the code sections of the memory map, exactly when no byte
is dropped. -/
theorem size_conserved_iff (decimal : Char → Option Nat) (filepath content : Text) :
    ∃ r, parseMapFile decimal filepath content = some r ∧
      (r.functions.total (·.flashSize) = textBytes (entriesOf decimal (mapFileLines content)) ↔
        Undropped (edgesOf (mapFileLines content)) (entriesOf decimal (mapFileLines content))) := by
  obtain ⟨t, hparse, h⟩ := parse_tracks decimal filepath content
  refine ⟨_, hparse, ?_⟩
  obtain ⟨new, hgains⟩ := foldl_distribute t t.anonObjSizes.entries t.result.functions
  have hsizes : t.anonObjSizes.total id = (t.anonObjSizes.entries.map Prod.snd).sum := by
    rw [Dict.total, List.map_id, Dict.values]
  have hbytes : textBytes (entriesOf decimal (mapFileLines content)) =
      t.result.functions.total (·.flashSize) + (t.anonObjSizes.entries.map Prod.snd).sum := by
    rw [← h.bytes, hsizes]
  rw [hbytes]
  refine hgains.eq_iff.trans ?_
  generalize edgesOf (mapFileLines content) = edges at h ⊢
  generalize entriesOf decimal (mapFileLines content) = entries at h ⊢
  refine Iff.trans ?_ (forall_split_iff h (P := fun before o n =>
    ∀ s ∈ (targetsOf edges o).take n, ¬ Named entries s ∧
      (symbolsOf edges o = [] → ¬ AnonCaller edges s ∧ ∀ o' ∈ before, s ∉ targetsOf edges o')))
  refine forall_congr' fun before => forall_congr' fun o => forall_congr' fun n =>
    forall_congr' fun after => forall_congr' fun _ => ?_
  unfold Keeps
  rw [← targetsOf_eq h o]
  refine forall_congr' fun s => forall_congr' fun _ => ?_
  have hnamed : IsNamed t.result.functions s ↔ Named entries s := h.named s
  have hbefore : (∃ e ∈ before, s ∈ targets (t.symbolsOf e.1) e.1) ↔
      ∃ o' ∈ before.map Prod.fst, s ∈ targetsOf edges o' := by
    simp [targetsOf_eq h]
  rw [hnamed, symbolsOf_eq_nil_iff h, Known, h.known, hbefore]
  refine and_congr_right fun hnot => forall_congr' fun _ => ?_
  constructor
  · intro hno
    exact ⟨fun hc => hno (.inl (.inr hc)), fun o' ho' hs => hno (.inr ⟨o', ho', hs⟩)⟩
  · rintro ⟨hcaller, hall⟩ ((hn | hc) | ⟨o', ho', hs⟩)
    · exact hnot hn
    · exact hcaller hc
    · exact hall o' ho' hs

/-- The decimal digits of a plain file. -/
def asciiDecimal (c : Char) : Option Nat :=
  if '0' ≤ c ∧ c ≤ '9' then some (c.toNat - '0'.toNat) else none

/-- Two objects `f.o` without calls, of 4 and of 8 bytes. -/
def sameObjectNames : Text :=
  ("=======\n=======\n=======\n=======\n0x0 0x4 Code RO 1 .text a/f.o\n" ++
    "0x0 0x8 Code RO 2 .text b/f.o\n").toList

/-- The 8 bytes of the second object are in no function. -/
theorem size_lost_same_object_names :
    ∃ r, parseMapFile asciiDecimal "out.map".toList sameObjectNames = some r ∧
      r.functions.total (·.flashSize) = 4 ∧
      textBytes (entriesOf asciiDecimal (mapFileLines sameObjectNames)) = 12 ∧
      r.functions.total (·.flashSize) ≠
        textBytes (entriesOf asciiDecimal (mapFileLines sameObjectNames)) := by
  refine ⟨_, rfl, ?_, ?_, ?_⟩
  · decide
  · decide
  · decide

/-- Of the 10 bytes of `g.o` the symbol `p`, which has a section of its own, drops 5. -/
example : (parseMapFile asciiDecimal "out.map".toList
    ("=======\na.o(.text) refers to g.o(.text) for p\na.o(.text) refers to g.o(.text) for q\n" ++
      "=======\n=======\n=======\n0x0 0xA Code RO 1 .text g.o\n" ++
      "0x0 0x2 Code RO 2 .text.p h.o\n").toList).map (·.functions.total (·.flashSize)) = some 7 := by
  decide +kernel

end Maptool
end Air101
