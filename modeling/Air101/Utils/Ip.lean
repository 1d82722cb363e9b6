import Air101.Storage.CStr

/-!
# Utils.Ip

Addresses as text (`platform/common/utils/utils.c`): `strtodec`, `strtoip` and `iptostr`.

`strtoip` works in place: it puts a NUL over each of the first three dots while it reads the field
in front of it. A call leaves its result, what it stored in `*ipadr`, the memory and the addresses
it read. The memory begins with the string; a read behind it is a fault. An `int` has 32 bits, and
its arithmetic wraps.

* `strtodec_field`: what `strtodec` makes of a field.
* `strtoip_step`: a field in front of a dot is accepted, or the call ends with the dot overwritten;
  without a dot it reads on behind the NUL.
* `strtoip_codec_iff`: the strings on which `strtoip` is the inverse of the dotted notation.
-/

namespace Air101
namespace Utils

open Storage

def atodec (ch : Byte) : Int := if ch ≥ 0x30#8 ∧ ch ≤ 0x39#8 then ch.toNat - 0x30 else -1

/-- What a call of `strtodec` leaves: its result (`none` after a fault), the number stored at `dec`
if there is one, and the addresses read. -/
structure Dec where
  ret : Option Int
  dec : Option (BitVec 32)
  reads : List Nat

def Dec.log (d : Dec) (p : Nat) : Dec := { d with reads := p :: d.reads }

/-- The loop `while (*str)` and what follows it; `str` is the memory from address `p` on. -/
def strtodecLoop (sign : BitVec 32) : List Byte → Nat → Int → BitVec 32 → Dec
  | [], p, _, _ => ⟨none, none, [p]⟩
  | c :: str, p, i, dd =>
    if c = 0#8 then ⟨some (if i < 0 then -1 else 0), some (dd * sign), [p]⟩
    else
      let i := atodec c
      if i < 0 then ⟨some (-1), none, [p]⟩
      else (strtodecLoop sign str (p + 1) i (dd * 10#32 + BitVec.ofInt 32 i)).log p

def strtodec (m : List Byte) (p : Nat) : Dec :=
  match m.drop p with
  | 0x2D#8 :: str => (strtodecLoop (-1#32) str (p + 1) (-1) 0#32).log p
  | str => strtodecLoop 1#32 str p (-1) 0#32

/-- What a call of `strtoip` leaves. -/
structure Outcome where
  ret : Option Int
  ipadr : Option (BitVec 32)
  mem : List Byte
  reads : List Nat
  deriving DecidableEq

def Outcome.log (o : Outcome) (ps : List Nat) : Outcome := { o with reads := ps ++ o.reads }

def fault (m : List Byte) (ps : List Nat) : Outcome := ⟨none, none, m, ps⟩

/-- `return -1` with nothing stored. -/
def reject (m : List Byte) (ps : List Nat) : Outcome := ⟨some (-1), none, m, ps⟩

/-- `if (strtodec(&n, head) < 0) return -1; if (n < 0 || n > 255) return -1;`, and then `k n`. -/
def Dec.octet (d : Dec) (m : List Byte) (k : BitVec 32 → Option Outcome) : Option Outcome :=
  match d.ret with
  | none => some (fault m d.reads)
  | some r =>
    if r < 0 then some (reject m d.reads)
    else
      let n := d.dec.getD 0#32
      if n.toInt < 0 ∨ n.toInt > 255 then some (reject m d.reads)
      else (k n).map (·.log d.reads)

/-- The last field and the end of the function. -/
def strtoipEnd (ip : BitVec 32) (head : Nat) (m : List Byte) : Option Outcome :=
  (strtodec m head).octet m fun n =>
    let ip := (ip <<< 8) + n
    some ⟨some (if ip = 0#32 then -1 else 0), some ip, m, []⟩

def dot : Byte := 0x2E#8

/-- The loop `for (i = 0; i < 3; )`, which ends only with `i = 3`: the test `i < 3` behind it never
holds. `none` stands for no passes left. -/
def strtoipLoop : Nat → Nat → BitVec 32 → Nat → Nat → List Byte → Option Outcome
  | 0, _, _, _, _, _ => none
  | passes + 1, i, ip, head, tail, m =>
    if i < 3 then
      match m[tail]? with
      | none => some (fault m [tail])
      | some c =>
        if c = dot then
          let cut := m.set tail 0#8
          ((strtodec cut head).octet cut fun n =>
            strtoipLoop passes (i + 1) ((ip <<< 8) + n) (tail + 1) (tail + 1)
              (cut.set tail dot)).map (·.log [tail])
        else (strtoipLoop passes i ip head (tail + 1) m).map (·.log [tail])
    else strtoipEnd ip head m

/-- Each pass reads one byte more of the memory. -/
def strtoip (m : List Byte) : Option Outcome := strtoipLoop (m.length + 2) 0 0#32 0 0 m

/-- `%d` of `sprintf`. -/
def printD (n : BitVec 32) : List Byte :=
  if n.toInt < 0 then 0x2D#8 :: digits n.toInt.natAbs else digits n.toInt.natAbs

def iptostr (ip : BitVec 32) : List Byte :=
  printD ((ip >>> 24) &&& 0xFF#32) ++ dot :: (printD ((ip >>> 16) &&& 0xFF#32) ++
    dot :: (printD ((ip >>> 8) &&& 0xFF#32) ++ dot :: (printD (ip &&& 0xFF#32) ++ [0#8])))

/-! ## One field -/

theorem Outcome.log_log (o : Outcome) (ps qs : List Nat) : (o.log qs).log ps = o.log (ps ++ qs) := by
  simp [log]

theorem map_log_log (o : Option Outcome) (ps qs : List Nat) :
    (o.map (·.log qs)).map (·.log ps) = o.map (·.log (ps ++ qs)) := by
  cases o with
  | none => rfl
  | some o => simp [Outcome.log_log]

theorem octet_log (d : Dec) (p : Nat) (m : List Byte) (k : BitVec 32 → Option Outcome) :
    (d.log p).octet m k = (d.octet m k).map (·.log [p]) := by
  unfold Dec.octet Dec.log
  cases d.ret with
  | none => rfl
  | some r =>
    by_cases hr : r < 0
    · simp [hr, reject, Outcome.log]
    · by_cases hn : (d.dec.getD 0#32).toInt < 0 ∨ (d.dec.getD 0#32).toInt > 255
      · simp [hr, hn, reject, Outcome.log]
      · simp only [hr, hn, if_false, map_log_log, List.singleton_append]

theorem atodec_of_isDigit {c : Byte} (h : isDigit c = true) :
    atodec c = ((c.toNat - 0x30 : Nat) : Int) ∧ c ≠ 0#8 := by
  simp only [isDigit, Bool.and_eq_true, decide_eq_true_eq] at h
  have hlo : 0x30 ≤ c.toNat := h.1
  constructor
  · rw [atodec, if_pos h]
    omega
  · rintro rfl
    simp at hlo

theorem atodec_of_not_isDigit {c : Byte} (h : ¬ isDigit c = true) : atodec c = -1 := by
  simp only [isDigit, Bool.and_eq_true, decide_eq_true_eq] at h
  rw [atodec, if_neg h]

/-- The loop over digits. The accumulator wraps, so it holds the number modulo `2 ^ 32`. -/
theorem strtodecLoop_digits (sign : BitVec 32) (ds rest : List Byte) (p : Nat) (i : Int) (a : Nat)
    (hall : ∀ c ∈ ds, isDigit c = true) :
    strtodecLoop sign (ds ++ 0#8 :: rest) p i (BitVec.ofNat 32 a) =
      ⟨some (if ds = [] ∧ i < 0 then -1 else 0),
        some (BitVec.ofNat 32 (ds.foldl (fun n c => 10 * n + (c.toNat - 0x30)) a) * sign),
        List.range' p (ds.length + 1)⟩ := by
  induction ds generalizing p i a with
  | nil => simp [strtodecLoop]
  | cons c ds ih =>
    obtain ⟨hval, hnul⟩ := atodec_of_isDigit (hall c List.mem_cons_self)
    have hacc : BitVec.ofNat 32 a * 10#32 + BitVec.ofInt 32 (atodec c) =
        BitVec.ofNat 32 (10 * a + (c.toNat - 0x30)) := by
      rw [hval, BitVec.ofInt_natCast, Nat.mul_comm, BitVec.ofNat_add, BitVec.ofNat_mul]
    have hpos : ¬ atodec c < 0 := by omega
    rw [List.cons_append, strtodecLoop, if_neg hnul]
    simp only [hpos, if_false, hacc]
    rw [ih _ _ _ fun c hc => hall c (List.mem_cons_of_mem _ hc)]
    simp [Dec.log, hpos, List.range'_succ]

/-- Another character ends the loop. -/
theorem strtodecLoop_other (sign : BitVec 32) (ds rest : List Byte) (p : Nat) (i : Int)
    (dd : BitVec 32) (hnul : ∀ c ∈ ds, c ≠ 0#8) (hbad : ¬ ∀ c ∈ ds, isDigit c = true) :
    ∃ rs, strtodecLoop sign (ds ++ 0#8 :: rest) p i dd = ⟨some (-1), none, rs⟩ ∧
      ∀ q ∈ rs, q ≤ p + ds.length := by
  induction ds generalizing p i dd with
  | nil => exact absurd (by simp) hbad
  | cons c ds ih =>
    rw [List.cons_append, strtodecLoop, if_neg (hnul c List.mem_cons_self)]
    by_cases hc : isDigit c = true
    · have hpos : ¬ atodec c < 0 := by
        have := (atodec_of_isDigit hc).1
        omega
      have hrest : ¬ ∀ c ∈ ds, isDigit c = true := by
        intro h
        exact hbad (List.forall_mem_cons.mpr ⟨hc, h⟩)
      obtain ⟨rs, heq, hrs⟩ := ih (p + 1) (atodec c) (dd * 10#32 + BitVec.ofInt 32 (atodec c))
        (fun c hc => hnul c (List.mem_cons_of_mem _ hc)) hrest
      refine ⟨p :: rs, ?_, ?_⟩
      · simp only [hpos, if_false, heq]
        rfl
      · intro q hq
        rw [List.length_cons]
        obtain rfl | hq := List.mem_cons.mp hq
        · omega
        · have := hrs q hq
          omega
    · have hneg : atodec c < 0 := by
        rw [atodec_of_not_isDigit hc]
        decide
      refine ⟨[p], ?_, ?_⟩
      · simp [hneg]
      · simp

/-- The sign and the characters behind it. -/
def splitSign : List Byte → BitVec 32 × List Byte
  | 0x2D#8 :: ds => (-1#32, ds)
  | ds => (1#32, ds)

/-- A field that passes `strtodec` and the range test, as its number: digits, perhaps behind a
minus, whose number is 0 to 255 modulo `2 ^ 32`. -/
def fieldValue (f : List Byte) : Option (BitVec 32) :=
  let (sign, ds) := splitSign f
  let n := BitVec.ofNat 32 (decimal ds) * sign
  if ds ≠ [] ∧ (∀ c ∈ ds, isDigit c = true) ∧ n.toNat ≤ 255 then some n else none

/-- What the caller makes of a field: it goes on with the number, or returns -1. -/
def Reads (f : List Byte) (d : Dec) (top : Nat) : Prop :=
  ∃ rs, (∀ q ∈ rs, q ≤ top) ∧ ∀ m k, d.octet m k =
    match fieldValue f with
    | none => some (reject m rs)
    | some n => (k n).map (·.log rs)

theorem out_of_range_iff (n : BitVec 32) : (n.toInt < 0 ∨ n.toInt > 255) ↔ ¬ n.toNat ≤ 255 := by
  have := n.isLt
  rw [BitVec.toInt_eq_toNat_cond]
  split <;> omega

theorem octet_stored (n : BitVec 32) (rs : List Nat) (m : List Byte)
    (k : BitVec 32 → Option Outcome) :
    (⟨some 0, some n, rs⟩ : Dec).octet m k =
      if n.toNat ≤ 255 then (k n).map (·.log rs) else some (reject m rs) := by
  by_cases hn : n.toNat ≤ 255
  · have hin : ¬ (n.toInt < 0 ∨ n.toInt > 255) := fun h => (out_of_range_iff n).mp h hn
    rw [if_pos hn]
    simp only [Dec.octet, Option.getD_some, lt_irrefl, hin, if_false]
  · have hout := (out_of_range_iff n).mpr hn
    rw [if_neg hn]
    simp only [Dec.octet, Option.getD_some, lt_irrefl, hout, if_false, if_true]

theorem fieldValue_le {f : List Byte} {n : BitVec 32} (h : fieldValue f = some n) :
    n.toNat ≤ 255 := by
  simp only [fieldValue] at h
  split at h
  · rename_i hf
    cases h
    exact hf.2.2
  · cases h

theorem reads_loop (sign : BitVec 32) (f ds rest : List Byte) (p : Nat)
    (hf : splitSign f = (sign, ds)) (hnul : ∀ c ∈ ds, c ≠ 0#8) :
    Reads f (strtodecLoop sign (ds ++ 0#8 :: rest) p (-1) 0#32) (p + ds.length) := by
  by_cases hall : ∀ c ∈ ds, isDigit c = true
  · refine ⟨List.range' p (ds.length + 1), ?_, ?_⟩
    · intro q hq
      have := List.mem_range'_1.mp hq
      omega
    · intro m k
      have hloop := strtodecLoop_digits sign ds rest p (-1) 0 hall
      rw [hloop]
      by_cases hds : ds = []
      · simp [Dec.octet, hds, fieldValue, hf]
      · have hret : (if ds = [] ∧ (-1 : Int) < 0 then (-1 : Int) else 0) = 0 := by simp [hds]
        rw [hret, octet_stored]
        by_cases hn : (BitVec.ofNat 32 (decimal ds) * sign).toNat ≤ 255
        · have hval : fieldValue f = some (BitVec.ofNat 32 (decimal ds) * sign) := by
            simp only [fieldValue, hf, if_pos (⟨hds, hall, hn⟩ : ds ≠ [] ∧ _ ∧ _)]
          rw [hval]
          exact if_pos hn
        · have hval : fieldValue f = none := by
            simp only [fieldValue, hf, hn, and_false, if_false]
          rw [hval]
          exact if_neg hn
  · obtain ⟨rs, heq, hrs⟩ := strtodecLoop_other sign ds rest p (-1) 0#32 hnul hall
    refine ⟨rs, hrs, ?_⟩
    intro m k
    rw [heq]
    simp [Dec.octet, fieldValue, hf, hall]

theorem Reads.log {f : List Byte} {d : Dec} {top p : Nat} (h : Reads f d top) (hp : p ≤ top) :
    Reads f (d.log p) top := by
  obtain ⟨rs, hrs, hd⟩ := h
  refine ⟨p :: rs, ?_, ?_⟩
  · intro q hq
    obtain rfl | hq := List.mem_cons.mp hq
    · exact hp
    · exact hrs q hq
  · intro m k
    rw [octet_log, hd]
    cases fieldValue f with
    | none => simp [reject, Outcome.log]
    | some n => simp only [map_log_log, List.singleton_append]

/-- `strtodec` at a field in front of a NUL. -/
theorem strtodec_field (pre f rest : List Byte) (hnul : ∀ c ∈ f, c ≠ 0#8) :
    Reads f (strtodec (pre ++ (f ++ 0#8 :: rest)) pre.length) (pre.length + f.length) := by
  rw [strtodec, List.drop_left]
  cases f with
  | nil => simpa using reads_loop 1#32 [] [] rest pre.length rfl (by simp)
  | cons c ds =>
    have hds : ∀ c ∈ ds, c ≠ 0#8 := fun x hx => hnul x (List.mem_cons_of_mem _ hx)
    by_cases hc : c = 0x2D#8
    · subst hc
      have hloop := reads_loop (-1#32) (0x2D#8 :: ds) ds rest (pre.length + 1) rfl hds
      rw [Nat.add_right_comm] at hloop
      exact hloop.log (by omega)
    · have hsign : splitSign (c :: ds) = (1#32, c :: ds) := by
        unfold splitSign
        split
        · rename_i h
          cases h
          exact absurd rfl hc
        · rfl
      have hloop := reads_loop 1#32 (c :: ds) (c :: ds) rest pre.length hsign hnul
      rw [List.cons_append]
      split
      · rename_i h
        cases h
        exact absurd rfl hc
      · exact hloop

/-! ## The loop over the dots -/

theorem strtoipLoop_skip {passes i head tail : Nat} {ip : BitVec 32} {m : List Byte} {c : Byte}
    (hi : i < 3) (hc : m[tail]? = some c) (hdot : c ≠ dot) :
    strtoipLoop (passes + 1) i ip head tail m =
      (strtoipLoop passes i ip head (tail + 1) m).map (·.log [tail]) := by
  rw [strtoipLoop, if_pos hi, hc]
  exact if_neg hdot

/-- The loop over the characters of a field. -/
theorem strtoipLoop_scan (f pre r : List Byte) (passes i head : Nat) (ip : BitVec 32) (hi : i < 3)
    (hdot : dot ∉ f) :
    strtoipLoop (passes + f.length) i ip head pre.length (pre ++ (f ++ r)) =
      (strtoipLoop passes i ip head (pre.length + f.length) (pre ++ (f ++ r))).map
        (·.log (List.range' pre.length f.length)) := by
  induction f generalizing pre with
  | nil =>
    cases h : strtoipLoop passes i ip head pre.length (pre ++ r) with
    | none => simp [h]
    | some o => simp [h, Outcome.log]
  | cons c f ih =>
    have hc : (pre ++ (c :: f ++ r))[pre.length]? = some c := by simp
    have hne : c ≠ dot := fun h => hdot (h ▸ List.mem_cons_self)
    have hrest := ih (pre ++ [c]) fun h => hdot (List.mem_cons_of_mem c h)
    simp only [List.length_append, List.length_singleton, List.append_assoc,
      List.singleton_append] at hrest
    rw [List.length_cons, ← Nat.add_assoc, strtoipLoop_skip hi hc hne, List.cons_append, hrest,
      map_log_log, List.range'_succ, Nat.add_right_comm, Nat.add_assoc]
    rfl

/-- A field in front of a dot. -/
theorem strtoipLoop_dot (f pre r : List Byte) (passes i : Nat) (ip : BitVec 32) (hi : i < 3)
    (hdot : dot ∉ f) (hnul : ∀ c ∈ f, c ≠ 0#8) :
    ∃ rs, (∀ q ∈ rs, q ≤ pre.length + f.length) ∧
      strtoipLoop (passes + 1 + f.length) i ip pre.length pre.length (pre ++ (f ++ dot :: r)) =
        match fieldValue f with
        | none => some (reject (pre ++ (f ++ 0#8 :: r)) rs)
        | some n =>
          (strtoipLoop passes (i + 1) ((ip <<< 8) + n) (pre.length + f.length + 1)
            (pre.length + f.length + 1) (pre ++ (f ++ dot :: r))).map (·.log rs) := by
  obtain ⟨rs, hrs, hfield⟩ := strtodec_field pre f r hnul
  refine ⟨List.range' pre.length f.length ++ ([pre.length + f.length] ++ rs), ?_, ?_⟩
  · intro q hq
    rw [List.mem_append, List.mem_range'_1, List.mem_append, List.mem_singleton] at hq
    obtain h | h | h := hq
    · omega
    · omega
    · exact hrs q h
  · have hc : (pre ++ (f ++ dot :: r))[pre.length + f.length]? = some dot := by
      rw [← List.append_assoc, ← List.length_append]
      simp
    have hset : ∀ b c : Byte, (pre ++ (f ++ b :: r)).set (pre.length + f.length) c =
        pre ++ (f ++ c :: r) := by
      intro b c
      rw [← List.append_assoc, ← List.append_assoc, ← List.length_append]
      simp
    rw [strtoipLoop_scan f pre (dot :: r) (passes + 1) i pre.length ip hi hdot, strtoipLoop,
      if_pos hi, hc]
    simp only [if_true, hset, hfield]
    cases fieldValue f with
    | none => simp [reject, Outcome.log]
    | some n => simp only [map_log_log]

/-- Without a dot in the rest of the string the loop reads behind the NUL. -/
theorem strtoipLoop_nul (f pre r : List Byte) (passes i head : Nat) (ip : BitVec 32) (hi : i < 3)
    (hdot : dot ∉ f) {o : Outcome}
    (h : strtoipLoop (passes + 2 + f.length) i ip head pre.length (pre ++ (f ++ 0#8 :: r)) =
      some o) : pre.length + f.length + 1 ∈ o.reads := by
  have hc : (pre ++ (f ++ 0#8 :: r))[pre.length + f.length]? = some 0#8 := by
    rw [← List.append_assoc, ← List.length_append]
    simp
  have hnext : ∀ o', strtoipLoop (passes + 1) i ip head (pre.length + f.length + 1)
      (pre ++ (f ++ 0#8 :: r)) = some o' → pre.length + f.length + 1 ∈ o'.reads := by
    intro o' h'
    rw [strtoipLoop, if_pos hi] at h'
    split at h'
    · cases h'
      exact List.mem_cons_self
    · split at h'
      · obtain ⟨x, -, rfl⟩ := Option.map_eq_some_iff.mp h'
        exact List.mem_cons_self
      · obtain ⟨x, -, rfl⟩ := Option.map_eq_some_iff.mp h'
        exact List.mem_cons_self
  rw [strtoipLoop_scan f pre (0#8 :: r) (passes + 2) i head ip hi hdot,
    strtoipLoop_skip hi hc (by decide), map_log_log] at h
  obtain ⟨o', h', rfl⟩ := Option.map_eq_some_iff.mp h
  exact List.mem_append_right _ (hnext o' h')

/-- The text up to the first dot is a field with the number `n`, and `r` is what follows the dot. -/
def FirstField (s f r : List Byte) (n : BitVec 32) : Prop :=
  s = f ++ dot :: r ∧ dot ∉ f ∧ fieldValue f = some n

theorem FirstField.unique {s f r f' r' : List Byte} {n n' : BitVec 32} (h : FirstField s f r n)
    (h' : FirstField s f' r' n') : f = f' ∧ r = r' ∧ n = n' := by
  obtain ⟨rfl, hdot, hn⟩ := h
  obtain ⟨heq, hdot', hn'⟩ := h'
  obtain ⟨rfl, rfl⟩ := cut_unique hdot hdot' heq
  exact ⟨rfl, rfl, Option.some.inj (hn.symm.trans hn')⟩

theorem FirstField.noNul {s f r : List Byte} {n : BitVec 32} (h : FirstField s f r n)
    (hs : ∀ c ∈ s, c ≠ 0#8) : ∀ c ∈ r, c ≠ 0#8 := by
  intro c hc
  refine hs c ?_
  rw [h.1]
  exact List.mem_append_right _ (List.mem_cons_of_mem _ hc)

/-- The call read behind the string `t` or changed it. -/
def Spoilt (t : List Byte) (result : Option Outcome) : Prop :=
  ∀ o, result = some o → (∃ q ∈ o.reads, t.length < q) ∨ o.mem.take t.length ≠ t

theorem Spoilt.log {t : List Byte} {result : Option Outcome} (h : Spoilt t result)
    (ps : List Nat) : Spoilt t (result.map (·.log ps)) := by
  intro o ho
  obtain ⟨o', ho', rfl⟩ := Option.map_eq_some_iff.mp ho
  obtain ⟨q, hq, hlt⟩ | hmem := h o' ho'
  · exact .inl ⟨q, List.mem_append_right _ hq, hlt⟩
  · exact .inr hmem

/-- One field of the loop: accepted, with the dot put back, or the call goes wrong. -/
theorem strtoip_step (pre s rest : List Byte) (passes i : Nat) (ip : BitVec 32) (hi : i < 3)
    (hnul : ∀ c ∈ s, c ≠ 0#8) (hp : s.length + 2 ≤ passes) :
    (∃ f r n pre' passes' rs, FirstField s f r n ∧ pre' ++ r = pre ++ s ∧ r.length + 2 ≤ passes' ∧
      (∀ q ∈ rs, q ≤ (pre ++ s).length) ∧
      strtoipLoop passes i ip pre.length pre.length (pre ++ (s ++ 0#8 :: rest)) =
        (strtoipLoop passes' (i + 1) ((ip <<< 8) + n) pre'.length pre'.length
          (pre' ++ (r ++ 0#8 :: rest))).map (·.log rs)) ∨
    ((¬ ∃ f r n, FirstField s f r n) ∧
      Spoilt (pre ++ s)
        (strtoipLoop passes i ip pre.length pre.length (pre ++ (s ++ 0#8 :: rest)))) := by
  by_cases hs : dot ∈ s
  · obtain ⟨f, r, rfl, hdot⟩ := List.eq_append_cons_of_mem hs
    have hf : ∀ c ∈ f, c ≠ 0#8 := fun c hc => hnul c (List.mem_append_left _ hc)
    have hshort : f.length + 1 + r.length + 2 ≤ passes := by
      simp at hp
      omega
    have hlen : passes = passes - (f.length + 1) + 1 + f.length := by omega
    obtain ⟨rs, hrs, hloop⟩ := strtoipLoop_dot f pre (r ++ 0#8 :: rest)
      (passes - (f.length + 1)) i ip hi hdot hf
    rw [← hlen] at hloop
    simp only [List.append_assoc, List.cons_append]
    cases hval : fieldValue f with
    | some n =>
      rw [hval] at hloop
      refine .inl ⟨f, r, n, pre ++ f ++ [dot], passes - (f.length + 1), rs, ⟨rfl, hdot, hval⟩,
        by simp, by omega, ?_, ?_⟩
      · intro q hq
        have := hrs q hq
        simp
        omega
      · rw [hloop]
        simp [Nat.add_assoc]
    | none =>
      rw [hval] at hloop
      refine .inr ⟨?_, ?_⟩
      · rintro ⟨f', r', n, heq, hdot', hval'⟩
        obtain ⟨rfl, rfl⟩ := cut_unique hdot hdot' heq
        cases hval.symm.trans hval'
      · intro o ho
        rw [hloop] at ho
        cases ho
        refine .inr fun h => ?_
        have hat := congrArg (·[(pre ++ f).length]?) h
        have hlt : (pre ++ f).length < (pre ++ (f ++ dot :: r)).length := by
          simp
        simp only [reject, ← List.append_assoc] at hat
        simp [dot] at hat
  · have hlen : passes = passes - (s.length + 2) + 2 + s.length := by omega
    refine .inr ⟨?_, ?_⟩
    · rintro ⟨f, r, n, rfl, -⟩
      simp at hs
    · intro o ho
      rw [hlen] at ho
      refine .inl ⟨pre.length + s.length + 1, ?_, by simp⟩
      exact strtoipLoop_nul s pre rest _ i pre.length ip hi hs ho

/-! ## The codec -/

/-- A decimal number 0 to 255. -/
def IsOctet (f : List Byte) : Prop := f ≠ [] ∧ (∀ c ∈ f, isDigit c = true) ∧ decimal f ≤ 255

def address (a b c d : Nat) : BitVec 32 :=
  BitVec.ofNat 32 (a * 2 ^ 24 + b * 2 ^ 16 + c * 2 ^ 8 + d)

/-- The text is four decimal numbers 0 to 255 with single dots between them, and `a` is the address
they denote. -/
def Denotes (t : List Byte) (a : BitVec 32) : Prop :=
  ∃ f1 f2 f3 f4, t = f1 ++ dot :: (f2 ++ dot :: (f3 ++ dot :: f4)) ∧
    (∀ f ∈ [f1, f2, f3, f4], IsOctet f) ∧
    a = address (decimal f1) (decimal f2) (decimal f3) (decimal f4)

/-- The call decodes the string `t`: it returns a value exactly for a dotted address and then that
address, rejects every other string, reads nothing behind the NUL and leaves the string as it was. -/
structure Decodes (t : List Byte) (o : Outcome) : Prop where
  returns : ∀ a, (o.ret = some 0 ∧ o.ipadr = some a) ↔ Denotes t a
  rejects : (∀ a, ¬ Denotes t a) → o.ret = some (-1)
  inside : ∀ q ∈ o.reads, q ≤ t.length
  unchanged : o.mem.take t.length = t

/-- The three fields in front of dots, their numbers, and the text behind the third dot. -/
def Fields (t f1 f2 f3 f4 : List Byte) (n1 n2 n3 : BitVec 32) : Prop :=
  ∃ r1 r2, FirstField t f1 r1 n1 ∧ FirstField r1 f2 r2 n2 ∧ FirstField r2 f3 f4 n3

/-- The strings that `strtoip` gets right. The three fields in front of dots pass `strtodec` and
the range test; and what follows the third dot does not, or the four fields are plain decimal
numbers 0 to 255 and not all zero, or some is not plain and the four numbers are all zero. -/
def Handled (t : List Byte) : Prop :=
  ∃ f1 f2 f3 f4 n1 n2 n3, Fields t f1 f2 f3 f4 n1 n2 n3 ∧ ∀ n4, fieldValue f4 = some n4 →
    ((∀ f ∈ [f1, f2, f3, f4], IsOctet f) ↔
      ¬ (n1 = 0#32 ∧ n2 = 0#32 ∧ n3 = 0#32 ∧ n4 = 0#32))

theorem Spoilt.not_decodes {t : List Byte} {result : Option Outcome} (h : Spoilt t result) :
    ¬ ∃ o, result = some o ∧ Decodes t o := by
  rintro ⟨o, ho, hdec⟩
  obtain ⟨q, hq, hlt⟩ | hmem := h o ho
  · have := hdec.inside q hq
    omega
  · exact hmem hdec.unchanged

theorem IsOctet.fieldValue {f : List Byte} (h : IsOctet f) :
    fieldValue f = some (BitVec.ofNat 32 (decimal f)) ∧ dot ∉ f := by
  obtain ⟨hne, hall, hle⟩ := h
  have hsign : splitSign f = (1#32, f) := by
    unfold splitSign
    split
    · exact absurd (hall _ List.mem_cons_self) (by decide)
    · rfl
  have hmod : (BitVec.ofNat 32 (decimal f)).toNat ≤ 255 := by
    rw [BitVec.toNat_ofNat]
    omega
  constructor
  · simp only [Utils.fieldValue, hsign, BitVec.mul_one]
    exact if_pos ⟨hne, hall, hmod⟩
  · intro hdot
    exact absurd (hall dot hdot) (by decide)

/-- The number that the shifts put together. -/
theorem shifts_eq_address (n1 n2 n3 n4 : BitVec 32) :
    ((((0#32 <<< 8) + n1) <<< 8 + n2) <<< 8 + n3) <<< 8 + n4 =
      address n1.toNat n2.toNat n3.toNat n4.toNat := by
  apply BitVec.eq_of_toNat_eq
  simp only [address, BitVec.toNat_add, BitVec.toNat_shiftLeft, BitVec.toNat_ofNat,
    Nat.shiftLeft_eq]
  omega

theorem address_eq_zero_iff {a b c d : Nat} (ha : a ≤ 255) (hb : b ≤ 255) (hc : c ≤ 255)
    (hd : d ≤ 255) : address a b c d = 0#32 ↔ a = 0 ∧ b = 0 ∧ c = 0 ∧ d = 0 := by
  rw [← BitVec.toNat_inj, address, BitVec.toNat_ofNat, BitVec.toNat_ofNat]
  omega

theorem strtoipEnd_eq (ip : BitVec 32) (pre f rest : List Byte) (hnul : ∀ c ∈ f, c ≠ 0#8) :
    ∃ rs, (∀ q ∈ rs, q ≤ (pre ++ f).length) ∧
      strtoipEnd ip pre.length (pre ++ (f ++ 0#8 :: rest)) =
        match fieldValue f with
        | none => some (reject (pre ++ (f ++ 0#8 :: rest)) rs)
        | some n =>
          some ⟨some (if (ip <<< 8) + n = 0#32 then -1 else 0), some ((ip <<< 8) + n),
            pre ++ (f ++ 0#8 :: rest), rs⟩ := by
  obtain ⟨rs, hrs, hfield⟩ := strtodec_field pre f rest hnul
  refine ⟨rs, by simpa using hrs, ?_⟩
  rw [strtoipEnd, hfield]
  cases fieldValue f with
  | none => rfl
  | some n => simp [Outcome.log]

/-- The outcome when the loop ends: the last field decides. -/
def ended (f4 : List Byte) (n1 n2 n3 : BitVec 32) (m : List Byte) (rs : List Nat) : Outcome :=
  match fieldValue f4 with
  | none => reject m rs
  | some n4 =>
    let ip := address n1.toNat n2.toNat n3.toNat n4.toNat
    ⟨some (if ip = 0#32 then -1 else 0), some ip, m, rs⟩

theorem ended_log (f4 : List Byte) (n1 n2 n3 : BitVec 32) (m : List Byte) (rs ps : List Nat) :
    (ended f4 n1 n2 n3 m rs).log ps = ended f4 n1 n2 n3 m (ps ++ rs) := by
  unfold ended
  cases fieldValue f4 with
  | none => rfl
  | some n4 => rfl

/-- A call on a string: the loop ends behind the third dot, or the call goes wrong. -/
theorem strtoip_mem (s : CStr) (rest : List Byte) :
    (∃ f1 f2 f3 f4 n1 n2 n3 rs, Fields s.chars f1 f2 f3 f4 n1 n2 n3 ∧
      (∀ q ∈ rs, q ≤ s.chars.length) ∧
      strtoip (s.mem rest) = some (ended f4 n1 n2 n3 (s.mem rest) rs)) ∨
    ((¬ ∃ f1 f2 f3 f4 n1 n2 n3, Fields s.chars f1 f2 f3 f4 n1 n2 n3) ∧
      Spoilt s.chars (strtoip (s.mem rest))) := by
  have hpasses : s.chars.length + 2 ≤ (s.mem rest).length + 2 := by simp [CStr.mem]
  obtain ⟨f1, r1, n1, pre1, passes1, rs1, h1, hpre1, hp1, hrs1, hloop1⟩ | ⟨hno, hsp⟩ :=
    strtoip_step [] s.chars rest _ 0 0#32 (by omega) s.noNul hpasses
  · have hcall : strtoip (s.mem rest) = _ := hloop1
    have hnul1 := h1.noNul s.noNul
    obtain ⟨f2, r2, n2, pre2, passes2, rs2, h2, hpre2, hp2, hrs2, hloop2⟩ | ⟨hno, hsp⟩ :=
      strtoip_step pre1 r1 rest passes1 1 ((0#32 <<< 8) + n1) (by omega) hnul1 hp1
    · have hnul2 := h2.noNul hnul1
      obtain ⟨f3, f4, n3, pre3, passes3, rs3, h3, hpre3, hp3, hrs3, hloop3⟩ | ⟨hno, hsp⟩ :=
        strtoip_step pre2 r2 rest passes2 2 ((((0#32 <<< 8) + n1) <<< 8) + n2) (by omega) hnul2 hp2
      · have hnul3 := h3.noNul hnul2
        have hchars : pre3 ++ f4 = s.chars := hpre3.trans (hpre2.trans hpre1)
        have hmem : pre3 ++ (f4 ++ 0#8 :: rest) = s.mem rest := by
          rw [← List.append_assoc, hchars]
          rfl
        obtain ⟨rs4, hrs4, hend⟩ := strtoipEnd_eq
          ((((((0#32 <<< 8) + n1) <<< 8) + n2) <<< 8) + n3) pre3 f4 rest hnul3
        obtain ⟨p, rfl⟩ : ∃ p, passes3 = p + 1 := ⟨passes3 - 1, by omega⟩
        have hthree : strtoipLoop (p + 1) 3 ((((((0#32 <<< 8) + n1) <<< 8) + n2) <<< 8) + n3)
            pre3.length pre3.length (pre3 ++ (f4 ++ 0#8 :: rest)) =
              some (ended f4 n1 n2 n3 (s.mem rest) rs4) := by
          rw [strtoipLoop, if_neg (by omega), hend, hmem, ended]
          cases fieldValue f4 with
          | none => rfl
          | some n4 => simp only [shifts_eq_address]
        refine .inl ⟨f1, f2, f3, f4, n1, n2, n3, rs1 ++ (rs2 ++ (rs3 ++ rs4)),
          ⟨r1, r2, h1, h2, h3⟩, ?_, ?_⟩
        · intro q hq
          rw [← hchars]
          rw [← hpre3] at hrs3
          rw [← hpre2, ← hpre3] at hrs2
          rw [← hpre1, ← hpre2, ← hpre3] at hrs1
          simp only [List.mem_append] at hq
          obtain h | h | h | h := hq
          · exact hrs1 q h
          · exact hrs2 q h
          · exact hrs3 q h
          · exact hrs4 q h
        · rw [hcall, hloop2, hloop3, hthree]
          simp [ended_log]
      · refine .inr ⟨?_, ?_⟩
        · rintro ⟨g1, g2, g3, g4, k1, k2, k3, q1, q2, hg1, hg2, hg3⟩
          obtain ⟨-, rfl, -⟩ := h1.unique hg1
          obtain ⟨-, rfl, -⟩ := h2.unique hg2
          exact hno ⟨g3, g4, k3, hg3⟩
        · rw [hpre2, hpre1] at hsp
          rw [hcall, hloop2]
          exact (hsp.log rs2).log rs1
    · refine .inr ⟨?_, ?_⟩
      · rintro ⟨g1, g2, g3, g4, k1, k2, k3, q1, q2, hg1, hg2, hg3⟩
        obtain ⟨-, rfl, -⟩ := h1.unique hg1
        exact hno ⟨g2, q2, k2, hg2⟩
      · rw [hpre1] at hsp
        rw [hcall]
        exact hsp.log rs1
  · refine .inr ⟨?_, hsp⟩
    rintro ⟨g1, g2, g3, g4, k1, k2, k3, q1, q2, hg1, hg2, hg3⟩
    exact hno ⟨g1, q1, k1, hg1⟩

theorem Fields.unique {t f1 f2 f3 f4 g1 g2 g3 g4 : List Byte} {n1 n2 n3 k1 k2 k3 : BitVec 32}
    (h : Fields t f1 f2 f3 f4 n1 n2 n3) (h' : Fields t g1 g2 g3 g4 k1 k2 k3) :
    (f1 = g1 ∧ f2 = g2 ∧ f3 = g3 ∧ f4 = g4) ∧ n1 = k1 ∧ n2 = k2 ∧ n3 = k3 := by
  obtain ⟨r1, r2, h1, h2, h3⟩ := h
  obtain ⟨q1, q2, h1', h2', h3'⟩ := h'
  obtain ⟨rfl, rfl, rfl⟩ := h1.unique h1'
  obtain ⟨rfl, rfl, rfl⟩ := h2.unique h2'
  obtain ⟨rfl, rfl, rfl⟩ := h3.unique h3'
  exact ⟨⟨rfl, rfl, rfl, rfl⟩, rfl, rfl, rfl⟩

theorem Fields.numbers_le {t f1 f2 f3 f4 : List Byte} {n1 n2 n3 : BitVec 32}
    (h : Fields t f1 f2 f3 f4 n1 n2 n3) : n1.toNat ≤ 255 ∧ n2.toNat ≤ 255 ∧ n3.toNat ≤ 255 := by
  obtain ⟨r1, r2, h1, h2, h3⟩ := h
  exact ⟨fieldValue_le h1.2.2, fieldValue_le h2.2.2, fieldValue_le h3.2.2⟩

theorem IsOctet.toNat_eq {f : List Byte} {n : BitVec 32} (h : IsOctet f)
    (hn : Utils.fieldValue f = some n) : n.toNat = decimal f := by
  have hle := h.2.2
  cases h.fieldValue.1.symm.trans hn
  rw [BitVec.toNat_ofNat]
  omega

theorem fields_of_octets {f1 f2 f3 : List Byte} (f4 : List Byte) (h1 : IsOctet f1) (h2 : IsOctet f2)
    (h3 : IsOctet f3) :
    Fields (f1 ++ dot :: (f2 ++ dot :: (f3 ++ dot :: f4))) f1 f2 f3 f4
      (BitVec.ofNat 32 (decimal f1)) (BitVec.ofNat 32 (decimal f2))
      (BitVec.ofNat 32 (decimal f3)) :=
  ⟨_, _, ⟨rfl, h1.fieldValue.2, h1.fieldValue.1⟩, ⟨rfl, h2.fieldValue.2, h2.fieldValue.1⟩,
    ⟨rfl, h3.fieldValue.2, h3.fieldValue.1⟩⟩

/-- Among the strings whose loop ends, a dotted address is one whose four fields are plain. -/
theorem Fields.denotes_iff {t f1 f2 f3 f4 : List Byte} {n1 n2 n3 : BitVec 32}
    (h : Fields t f1 f2 f3 f4 n1 n2 n3) (a : BitVec 32) :
    Denotes t a ↔ (∀ f ∈ [f1, f2, f3, f4], IsOctet f) ∧
      ∃ n4, fieldValue f4 = some n4 ∧ a = address n1.toNat n2.toNat n3.toNat n4.toNat := by
  constructor
  · rintro ⟨g1, g2, g3, g4, rfl, hoct, rfl⟩
    have ho := hoct
    simp only [List.forall_mem_cons, List.not_mem_nil, false_implies, implies_true,
      and_true] at ho
    obtain ⟨ho1, ho2, ho3, ho4⟩ := ho
    obtain ⟨⟨rfl, rfl, rfl, rfl⟩, rfl, rfl, rfl⟩ := h.unique (fields_of_octets _ ho1 ho2 ho3)
    refine ⟨hoct, _, ho4.fieldValue.1, ?_⟩
    rw [ho1.toNat_eq ho1.fieldValue.1, ho2.toNat_eq ho2.fieldValue.1,
      ho3.toNat_eq ho3.fieldValue.1, ho4.toNat_eq ho4.fieldValue.1]
  · rintro ⟨hoct, n4, hn4, rfl⟩
    have ho := hoct
    simp only [List.forall_mem_cons, List.not_mem_nil, false_implies, implies_true,
      and_true] at ho
    obtain ⟨ho1, ho2, ho3, ho4⟩ := ho
    obtain ⟨r1, r2, h1, h2, h3⟩ := h
    refine ⟨f1, f2, f3, f4, ?_, hoct, ?_⟩
    · rw [h1.1, h2.1, h3.1]
    · rw [ho1.toNat_eq h1.2.2, ho2.toNat_eq h2.2.2, ho3.toNat_eq h3.2.2, ho4.toNat_eq hn4]

theorem toNat_eq_zero_iff (n : BitVec 32) : n.toNat = 0 ↔ n = 0#32 := by
  rw [← BitVec.toNat_inj]
  rfl

/-- When the loop ends, the call decodes its string exactly under the condition on the last field. -/
theorem Fields.decodes_iff {t f1 f2 f3 f4 m : List Byte} {n1 n2 n3 : BitVec 32} {rs : List Nat}
    (h : Fields t f1 f2 f3 f4 n1 n2 n3) (hrs : ∀ q ∈ rs, q ≤ t.length)
    (hm : m.take t.length = t) :
    Decodes t (ended f4 n1 n2 n3 m rs) ↔ ∀ n4, fieldValue f4 = some n4 →
      ((∀ f ∈ [f1, f2, f3, f4], IsOctet f) ↔
        ¬ (n1 = 0#32 ∧ n2 = 0#32 ∧ n3 = 0#32 ∧ n4 = 0#32)) := by
  cases hf4 : fieldValue f4 with
  | none =>
    have hno : ∀ a, ¬ Denotes t a := by
      intro a ha
      obtain ⟨-, n4, hn4, -⟩ := (h.denotes_iff a).mp ha
      cases hf4.symm.trans hn4
    have hend : ended f4 n1 n2 n3 m rs = reject m rs := by simp [ended, hf4]
    rw [hend]
    constructor
    · intro _ n4 hn4
      cases hn4
    · intro _
      refine ⟨?_, fun _ => rfl, hrs, hm⟩
      intro a
      constructor
      · rintro ⟨hret, -⟩
        cases hret
      · intro ha
        exact absurd ha (hno a)
  | some n4 =>
    obtain ⟨h1, h2, h3⟩ := h.numbers_le
    have hzero := address_eq_zero_iff h1 h2 h3 (fieldValue_le hf4)
    simp only [toNat_eq_zero_iff] at hzero
    have hden : ∀ a, Denotes t a ↔ (∀ f ∈ [f1, f2, f3, f4], IsOctet f) ∧
        a = address n1.toNat n2.toNat n3.toNat n4.toNat := by
      intro a
      rw [h.denotes_iff, hf4]
      simp
    have hend : ended f4 n1 n2 n3 m rs =
        ⟨some (if address n1.toNat n2.toNat n3.toNat n4.toNat = 0#32 then -1 else 0),
          some (address n1.toNat n2.toNat n3.toNat n4.toNat), m, rs⟩ := by
      simp [ended, hf4]
    simp only [Option.some.injEq, forall_eq']
    rw [hend, ← hzero]
    generalize hip : address n1.toNat n2.toNat n3.toNat n4.toNat = ip at hden ⊢
    constructor
    · intro hdec
      have hret := hdec.returns ip
      rw [hden] at hret
      by_cases h0 : ip = 0#32
      · simpa [h0] using hret
      · simpa [h0] using hret
    · intro hoct
      refine ⟨?_, ?_, hrs, hm⟩
      · intro a
        rw [hden, hoct]
        by_cases h0 : ip = 0#32
        · simp [h0]
        · simp [h0, eq_comm]
      · intro hno
        have hzero : ip = 0#32 := by
          by_contra h0
          exact hno ip ((hden ip).mpr ⟨hoct.mpr h0, rfl⟩)
        simp [hzero]

theorem isOctet_digits {n : Nat} (h : n ≤ 255) : IsOctet (digits n) ∧ decimal (digits n) = n := by
  obtain ⟨hall, hval⟩ := digits_read n
  exact ⟨⟨digits_ne_nil n, List.all_eq_true.mp hall, by omega⟩, hval⟩

/-- A byte of the address in print. -/
theorem printD_byte (y : BitVec 32) : printD (y &&& 0xFF#32) = digits (y.toNat % 256) := by
  have hand : (y &&& 0xFF#32).toNat = y.toNat % 256 := by
    rw [BitVec.toNat_and]
    exact Nat.and_two_pow_sub_one_eq_mod y.toNat 8
  have hint : (y &&& 0xFF#32).toInt = ((y.toNat % 256 : Nat) : Int) := by
    rw [BitVec.toInt_eq_toNat_cond, hand, if_pos (by omega)]
  rw [printD, hint, if_neg (by omega), Int.natAbs_natCast]

theorem IsOctet.noNul {f : List Byte} (h : IsOctet f) : ∀ c ∈ f, c ≠ 0#8 :=
  fun c hc => (atodec_of_isDigit (h.2.1 c hc)).2

/-- The decoder on what the printer wrote. -/
theorem strtoip_iptostr (x : BitVec 32) (rest : List Byte) :
    ∃ o, strtoip (iptostr x ++ rest) = some o ∧ o.ipadr = some x ∧
      o.ret = some (if x = 0#32 then -1 else 0) := by
  have hx := x.isLt
  obtain ⟨o1, d1⟩ := isOctet_digits (n := (x >>> 24).toNat % 256) (by omega)
  obtain ⟨o2, d2⟩ := isOctet_digits (n := (x >>> 16).toNat % 256) (by omega)
  obtain ⟨o3, d3⟩ := isOctet_digits (n := (x >>> 8).toNat % 256) (by omega)
  obtain ⟨o4, d4⟩ := isOctet_digits (n := x.toNat % 256) (by omega)
  have htext : iptostr x ++ rest = (digits ((x >>> 24).toNat % 256) ++ dot ::
      (digits ((x >>> 16).toNat % 256) ++ dot :: (digits ((x >>> 8).toNat % 256) ++ dot ::
        digits (x.toNat % 256)))) ++ 0#8 :: rest := by
    simp [iptostr, printD_byte]
  generalize digits ((x >>> 24).toNat % 256) = f1 at *
  generalize digits ((x >>> 16).toNat % 256) = f2 at *
  generalize digits ((x >>> 8).toNat % 256) = f3 at *
  generalize digits (x.toNat % 256) = f4 at *
  have hnul : ∀ c ∈ f1 ++ dot :: (f2 ++ dot :: (f3 ++ dot :: f4)), c ≠ 0#8 := by
    intro c hc
    simp only [List.mem_append, List.mem_cons] at hc
    obtain h | rfl | h | rfl | h | rfl | h := hc
    · exact o1.noNul c h
    · decide
    · exact o2.noNul c h
    · decide
    · exact o3.noNul c h
    · decide
    · exact o4.noNul c h
  have hfields := fields_of_octets f4 o1 o2 o3
  have haddr : address (decimal f1) (decimal f2) (decimal f3) (decimal f4) = x := by
    apply BitVec.eq_of_toNat_eq
    rw [d1, d2, d3, d4]
    simp only [address, BitVec.toNat_ofNat, BitVec.toNat_ushiftRight, Nat.shiftRight_eq_div_pow]
    omega
  obtain ⟨g1, g2, g3, g4, n1, n2, n3, rs, hf, -, heq⟩ | ⟨hno, -⟩ := strtoip_mem ⟨_, hnul⟩ rest
  · obtain ⟨⟨rfl, rfl, rfl, rfl⟩, rfl, rfl, rfl⟩ := hfields.unique hf
    have hend : ∀ m, ended f4 (BitVec.ofNat 32 (decimal f1)) (BitVec.ofNat 32 (decimal f2))
        (BitVec.ofNat 32 (decimal f3)) m rs =
          ⟨some (if x = 0#32 then -1 else 0), some x, m, rs⟩ := by
      intro m
      simp only [ended, o4.fieldValue.1, o1.toNat_eq o1.fieldValue.1, o2.toNat_eq o2.fieldValue.1,
        o3.toNat_eq o3.fieldValue.1, o4.toNat_eq o4.fieldValue.1, haddr]
    rw [htext]
    refine ⟨_, heq, ?_, ?_⟩
    · rw [hend]
    · rw [hend]
  · exact absurd ⟨_, _, _, _, _, _, _, hfields⟩ hno

/-- `strtoip` decodes exactly the strings of `Handled`, and reads back what `iptostr` prints for
every address that is not zero. -/
theorem strtoip_codec_iff (s : CStr) (x : BitVec 32) (rest : List Byte) :
    ((∃ o, strtoip (s.mem rest) = some o ∧ Decodes s.chars o) ↔ Handled s.chars) ∧
      ((∃ o, strtoip (iptostr x ++ rest) = some o ∧ o.ret = some 0 ∧ o.ipadr = some x) ↔
        x ≠ 0#32) := by
  constructor
  · have htake : (s.mem rest).take s.chars.length = s.chars := List.take_left
    obtain ⟨f1, f2, f3, f4, n1, n2, n3, rs, hf, hrs, heq⟩ | ⟨hno, hsp⟩ := strtoip_mem s rest
    · have hdec := hf.decodes_iff hrs htake
      constructor
      · rintro ⟨o, ho, hd⟩
        cases heq.symm.trans ho
        exact ⟨f1, f2, f3, f4, n1, n2, n3, hf, hdec.mp hd⟩
      · rintro ⟨g1, g2, g3, g4, k1, k2, k3, hg, hcond⟩
        obtain ⟨⟨rfl, rfl, rfl, rfl⟩, rfl, rfl, rfl⟩ := hf.unique hg
        exact ⟨_, heq, hdec.mpr hcond⟩
    · constructor
      · intro h
        exact absurd h hsp.not_decodes
      · rintro ⟨g1, g2, g3, g4, k1, k2, k3, hg, -⟩
        exact absurd ⟨g1, g2, g3, g4, k1, k2, k3, hg⟩ hno
  · obtain ⟨o, ho, hip, hret⟩ := strtoip_iptostr x rest
    constructor
    · rintro ⟨o', ho', hret', -⟩
      cases ho.symm.trans ho'
      rintro rfl
      cases hret.symm.trans hret'
    · intro hx
      rw [if_neg hx] at hret
      exact ⟨o, ho, hret, hip⟩

/-- `"1.2"` with nothing behind its NUL: the loop runs past the NUL, out of the memory. -/
theorem strtoip_two_fields :
    ¬ ∀ (s : CStr) (rest : List Byte),
      ∃ o, strtoip (s.mem rest) = some o ∧ Decodes s.chars o := by
  intro h
  obtain ⟨o, ho, hdec⟩ := h ⟨[0x31#8, dot, 0x32#8], by decide⟩ []
  have hrun : strtoip (CStr.mem ⟨[0x31#8, dot, 0x32#8], by decide⟩ []) =
      some (fault [0x31#8, dot, 0x32#8, 0#8] [0, 1, 0, 1, 2, 3, 4]) := by decide
  cases hrun.symm.trans ho
  exact absurd (hdec.inside 4 (by simp [fault])) (by decide)

end Utils
end Air101
