import Air101.Param.Durable

/-!
# Param.Load

What `tls_param_init` touches while it scans the two partitions. The record in a partition brings its
own 16-bit length, and that length says how far the CRC goes, where the CRC is, and how much is
copied to RAM, all of it before the CRC is known to match.

* `Access`, `initAccesses`: the accesses to the buffer and to `flash_param`, pass by pass.
* `loop_turns`: the scan as a number of turns, and `turns_at`, `turns_stay`: it is over after two,
  whatever the partitions hold. The restart with `i = -1` is never taken.
* `load_robust_iff`: the accesses stay inside exactly if every record with the right magic has a
  length from 4 to 2036.
-/

namespace Air101
namespace Param

open Storage
open Crypto
open Fls
open Utils

/-! ## Accesses -/

/-- An access of `n` bytes at a distance `i` from the start of the buffer, or of `flash_param`. -/
inductive Access where
  | buffer (i : Int) (n : Nat)
  | ram (i : Int) (n : Nat)
  deriving DecidableEq

/-- All bytes of the access lie in the 2036 bytes of a `struct tls_param_flash`. -/
def Access.Inside : Access → Prop
  | .buffer i n => ∀ k : Nat, k < n → 0 ≤ i + k ∧ i + k < 2036
  | .ram i n => ∀ k : Nat, k < n → 0 ≤ i + k ∧ i + k < 2036

/-- `flash->length - 4`, taken as an unsigned number. -/
def bodySize (flash : List Byte) : Nat :=
  (BitVec.ofInt 32 ((ParamFlash.ofBytes flash).length.toNat - 4)).toNat

/-- The accesses of the test of a partition: the magic number, the length, the bytes that the CRC
engine fetches (its length register has 16 bits), and the stored CRC. -/
def testAccesses (flash : List Byte) : List Access :=
  let p := ParamFlash.ofBytes flash
  .buffer 0 4 ::
    if p.magic ≠ paramMagic then []
    else [.buffer 14 2, .buffer 0 (bodySize flash % 2 ^ 16), .buffer (p.length.toNat - 4) 4]

/-- The accesses of the copy to RAM. -/
def loadAccesses (flash : List Byte) : List Access :=
  if (ParamFlash.ofBytes flash).length ≠ 2036#16 then
    [.buffer 0 (bodySize flash), .ram 0 (bodySize flash)]
  else [.buffer 0 2036, .ram 0 2036]

section Turns

variable (hw : Engine) (c : Chip) (around : Int → Byte)

/-- What `tls_fls_read` leaves in the buffer for pass `i`. -/
def Scan.fetch (s : Scan) (i : Nat) : List Byte :=
  match tlsFlsRead s.dev true (c.partAddr (BitVec.ofNat 16 i)) 2036 with
  | (.ok, bs) => bs
  | _ => s.flash

/-- The accesses of one pass: the read, the test, and for a partition that passes it the comparison
of `modify_count`, the copy if it is due, and the `memset` of the buffer. -/
def Scan.passAccesses (s : Scan) (i : Nat) : List Access :=
  let flash := s.fetch c i
  .buffer 0 2036 :: testAccesses flash ++
    if partitionOk hw around flash = false then []
    else
      .buffer 6 2 ::
        (if s.flashParam.magic = 0#32 ∨
            s.flashParam.modifyCount < (ParamFlash.ofBytes flash).modifyCount then
          loadAccesses flash else []) ++ [.buffer 0 2036]

/-- One turn of the scan, on its variables and `i`: a pass, and the restart if it is due. -/
def Scan.turn (x : Scan × Nat) : Scan × Nat :=
  if 2 ≤ x.2 then x
  else
    match x.1.pass hw c around x.2 with
    | (s, true) =>
      if s.tryrestore = false ∧ 2 ≤ s.damaged then
        ({ s with
            dev := (tlsFlsErase s.dev (c.restoreAddr / 4096)).2, flashParam := .zero,
            isDamage := fun _ => false, damaged := 0, tryrestore := true }, 0)
      else (s, x.2 + 1)
    | (s, false) => (s, x.2 + 1)

/-- The accesses of one turn; the restart clears `flash_param`. -/
def Scan.turnAccesses (x : Scan × Nat) : List Access :=
  if 2 ≤ x.2 then []
  else
    x.1.passAccesses hw c around x.2 ++
      if (x.1.pass hw c around x.2).2 = true ∧ (x.1.pass hw c around x.2).1.tryrestore = false ∧
          2 ≤ (x.1.pass hw c around x.2).1.damaged then
        [.ram 0 2036] else []

/-- The variables after `n` turns. -/
def Scan.turns : Nat → Scan × Nat → Scan × Nat
  | 0, x => x
  | n + 1, x => Scan.turns n (Scan.turn hw c around x)

/-- The accesses of `n` turns. -/
def Scan.accesses : Nat → Scan × Nat → List Access
  | 0, _ => []
  | n + 1, x => Scan.turnAccesses hw c around x ++ Scan.accesses n (Scan.turn hw c around x)

end Turns

/-- `tls_param_init` gets as far as the scan: it has not run before, and it gets its semaphore and its
buffer. -/
def Scans (env : InitEnv) (s : State) : Prop :=
  s.flashParam.magic ≠ paramMagic ∧ env.sem = true ∧ env.heap 0 = true

instance (env : InitEnv) (s : State) : Decidable (Scans env s) :=
  inferInstanceAs (Decidable (_ ∧ _ ∧ _))

section Init

variable (hw : Engine) (c : Chip) (env : InitEnv) (s : State)

/-- The accesses of `tls_param_init` up to turn `n` of the scan, where it gets that far: it clears the
buffer and `flash_param` first. -/
def initAccesses (n : Nat) : List Access :=
  if Scans env s then
    .ram 0 2036 :: .buffer 0 2036 :: Scan.accesses hw c env.around n (Scan.start s.dev, 0)
  else []

/-- In some turn of the scan a partition passes the test. -/
def Accepts (b : Bool) : Prop :=
  Scans env s ∧ ∃ n, (Scan.turns hw c env.around n (Scan.start s.dev, 0)).2 < 2 ∧
    isSecond (BitVec.ofNat 16 (Scan.turns hw c env.around n (Scan.start s.dev, 0)).2) = b ∧
    ((Scan.turns hw c env.around n (Scan.start s.dev, 0)).1.pass hw c env.around
      (Scan.turns hw c env.around n (Scan.start s.dev, 0)).2).2 = true

/-- The magic number matches, and the CRC at the end of the record is the CRC of the bytes in front of
it; the record is as long as its length field says. -/
def Authentic (bs : List Byte) : Prop :=
  (ParamFlash.ofBytes bs).magic = paramMagic ∧
    BitVec.ofNat 32 (field bs ((ParamFlash.ofBytes bs).length.toNat - 4) 4) =
      getCrc32 (bs.take ((ParamFlash.ofBytes bs).length.toNat - 4))

/-- Loading is robust: every access stays inside, the scan ends, and it accepts authentic records
only. -/
structure Robust : Prop where
  inside : ∀ n, ∀ a ∈ initAccesses hw c env s n, a.Inside
  ends : ∃ n, 2 ≤ (Scan.turns hw c env.around n (Scan.start s.dev, 0)).2
  accepted : ∀ b, Accepts hw c env s b → Authentic (c.part s.dev.mem b)

/-- The length field of the record stays inside a `struct tls_param_flash` and has room for the CRC. -/
def LengthFits (bs : List Byte) : Prop :=
  4 ≤ (ParamFlash.ofBytes bs).length.toNat ∧ (ParamFlash.ofBytes bs).length.toNat ≤ 2036

end Init

/-! ## The scan ends -/

section Scan

variable {hw : Engine} {c : Chip} {around : Int → Byte} {d : Dev}

/-- The loop with its fuel is that number of turns. -/
theorem loop_turns (fuel : Nat) (s : Scan) (i : Nat) :
    s.loop hw c around fuel i = (Scan.turns hw c around fuel (s, i)).1 := by
  induction fuel generalizing s i with
  | zero => rfl
  | succ fuel ih =>
    unfold Scan.loop Scan.turns Scan.turn
    by_cases hi : 2 ≤ i
    · -- past the end nothing happens any more
      rw [if_pos hi, if_pos hi, ← ih]
      cases fuel with
      | zero => rfl
      | succ fuel => rw [Scan.loop, if_pos hi]
    · rw [if_neg hi, if_neg hi]
      obtain ⟨⟨s', good⟩, hpass⟩ : ∃ r, s.pass hw c around i = r := ⟨_, rfl⟩
      rw [hpass]
      cases good with
      | false => exact ih s' (i + 1)
      | true =>
        simp only []
        split
        · exact ih _ 0
        · exact ih s' (i + 1)

variable (hw) (c) (around) in
/-- A turn with at most `i` damaged partitions seen goes on to the next partition. -/
theorem turn_eq {s : Scan} {i : Nat} (hi : i < 2) (hdam : s.damaged ≤ i) :
    Scan.turn hw c around (s, i) = ((s.pass hw c around i).1, i + 1) ∧
      (s.pass hw c around i).1.dev = s.dev ∧ (s.pass hw c around i).1.damaged ≤ i + 1 ∧
      Scan.turnAccesses hw c around (s, i) = s.passAccesses hw c around i := by
  obtain ⟨⟨s', good⟩, hpass⟩ : ∃ r, s.pass hw c around i = r := ⟨_, rfl⟩
  obtain ⟨hdev, hle, hgood⟩ := pass_dev hpass
  unfold Scan.turn Scan.turnAccesses
  simp only [hpass]
  rw [if_neg (by omega), if_neg (by omega)]
  cases good with
  | false => exact ⟨rfl, hdev, by omega, by simp⟩
  | true =>
    have hsame := hgood rfl
    have hno : ¬ 2 ≤ s'.damaged := by omega
    exact ⟨by simp [hno], hdev, by omega, by simp [hno]⟩

variable (hw) (c) (around) (d) in
/-- The first two turns take the partitions one by one, and leave the flash as it is. -/
theorem turns_at {n : Nat} (hn : n ≤ 2) :
    (Scan.turns hw c around n (Scan.start d, 0)).2 = n ∧
      (Scan.turns hw c around n (Scan.start d, 0)).1.dev = d ∧
      (Scan.turns hw c around n (Scan.start d, 0)).1.damaged ≤ n := by
  have hrun : ∀ k i (s : Scan), s.dev = d → s.damaged ≤ i → i + k ≤ 2 →
      (Scan.turns hw c around k (s, i)).2 = i + k ∧
        (Scan.turns hw c around k (s, i)).1.dev = d ∧
        (Scan.turns hw c around k (s, i)).1.damaged ≤ i + k := by
    intro k
    induction k with
    | zero => exact fun i s hdev hdam _ => ⟨rfl, hdev, hdam⟩
    | succ k ih =>
      intro i s hdev hdam hle
      obtain ⟨hturn, hdev', hdam', _⟩ := turn_eq hw c around
        (show i < 2 by omega) hdam
      unfold Scan.turns
      rw [hturn, show i + (k + 1) = i + 1 + k by omega]
      exact ih (i + 1) _ (hdev'.trans hdev) hdam' (by omega)
  have h := hrun n 0 (Scan.start d) rfl (Nat.le_refl _) (by omega)
  simpa using h

/-- Past the last partition the variables stay, and nothing is touched. -/
theorem turns_stay (n : Nat) {x : Scan × Nat} (h : 2 ≤ x.2) :
    Scan.turns hw c around n x = x ∧ Scan.accesses hw c around n x = [] := by
  have hturn : Scan.turn hw c around x = x := if_pos h
  have hnone : Scan.turnAccesses hw c around x = [] := if_pos h
  induction n with
  | zero => exact ⟨rfl, rfl⟩
  | succ n ih =>
    unfold Scan.turns Scan.accesses
    rw [hturn, hnone]
    exact ⟨ih.1, by rw [ih.2, List.append_nil]⟩

theorem turns_add (m n : Nat) (x : Scan × Nat) :
    Scan.turns hw c around (m + n) x = Scan.turns hw c around n (Scan.turns hw c around m x) := by
  induction m generalizing x with
  | zero => rw [Nat.zero_add, Scan.turns]
  | succ m ih =>
    rw [show m + 1 + n = m + n + 1 by omega]
    exact ih _

/-- However many turns the scan is given, from two on it is the same. -/
theorem scan_turns (d : Dev) {n : Nat} (hn : 2 ≤ n) :
    (Scan.turns hw c around n (Scan.start d, 0)).1 = scan hw c around d := by
  have hover : ∀ m, 2 ≤ m → Scan.turns hw c around m (Scan.start d, 0) =
      Scan.turns hw c around 2 (Scan.start d, 0) := by
    intro m hm
    have hend := (turns_at hw c around d (Nat.le_refl 2)).1
    rw [show m = 2 + (m - 2) by omega, turns_add, (turns_stay (m - 2) (Nat.le_of_eq hend.symm)).1]
  rw [scan, loop_turns, hover n hn, hover 5 (by omega)]

/-- An access of the scan is one of a pass over one of the partitions. -/
theorem mem_accesses {n : Nat} {a : Access}
    (h : a ∈ Scan.accesses hw c around n (Scan.start d, 0)) : ∃ i, i < 2 ∧
      a ∈ (Scan.turns hw c around i (Scan.start d, 0)).1.passAccesses hw c around i := by
  have hrun : ∀ n m, m ≤ 2 →
      a ∈ Scan.accesses hw c around n (Scan.turns hw c around m (Scan.start d, 0)) → ∃ i, i < 2 ∧
        a ∈ (Scan.turns hw c around i (Scan.start d, 0)).1.passAccesses hw c around i := by
    intro n
    induction n with
    | zero =>
      intro m _ hmem
      simp [Scan.accesses] at hmem
    | succ n ih =>
      intro m hm hmem
      obtain ⟨hi, -, hdam⟩ := turns_at hw c around d hm
      by_cases hend : m < 2
      · unfold Scan.accesses at hmem
        rw [List.mem_append] at hmem
        rcases hmem with hmem | hmem
        · -- the access is one of this turn
          obtain ⟨-, -, -, hacc⟩ := turn_eq hw c around hend hdam
          refine ⟨m, hend, ?_⟩
          rw [← hacc]
          rwa [← Prod.eta (Scan.turns hw c around m (Scan.start d, 0)), hi] at hmem
        · apply ih (m + 1) (by omega)
          rw [turns_add]
          exact hmem
      · rw [(turns_stay (n + 1) (by omega)).2] at hmem
        simp at hmem
  exact hrun n 0 (by omega) h

/-- The pass over a partition belongs to the accesses of two turns. -/
theorem accesses_of_pass {i : Nat} (hi : i < 2) {a : Access}
    (h : a ∈ (Scan.turns hw c around i (Scan.start d, 0)).1.passAccesses hw c around i) :
    a ∈ Scan.accesses hw c around 2 (Scan.start d, 0) := by
  have hturn : ∀ m, m < 2 → Scan.turnAccesses hw c around (Scan.turns hw c around m (Scan.start d, 0)) =
      (Scan.turns hw c around m (Scan.start d, 0)).1.passAccesses hw c around m := by
    intro m hm
    obtain ⟨hi, -, hdam⟩ := turns_at hw c around d (n := m) (by omega)
    obtain ⟨-, -, -, hacc⟩ := turn_eq hw c around hm hdam
    rw [← hacc, ← Prod.eta (Scan.turns hw c around m (Scan.start d, 0)), hi]
  have hboth : Scan.accesses hw c around 2 (Scan.start d, 0) =
      Scan.turnAccesses hw c around (Scan.turns hw c around 0 (Scan.start d, 0)) ++
        (Scan.turnAccesses hw c around (Scan.turns hw c around 1 (Scan.start d, 0)) ++ []) := rfl
  rw [hboth, hturn 0 (by omega), hturn 1 (by omega), List.append_nil, List.mem_append]
  rcases (show i = 0 ∨ i = 1 by omega) with rfl | rfl
  · exact .inl h
  · exact .inr h

end Scan

/-! ## The accesses of a pass -/

section Pass

variable {hw : Engine} {c : Chip} {around : Int → Byte} {d : Dev}

theorem fetch_part (hd : d.insideFls = some c.density) {s : Scan} (hs : s.dev = d) (i : Nat) :
    s.fetch c i = c.part d.mem (isSecond (BitVec.ofNat 16 i)) := by
  unfold Scan.fetch
  rw [hs, read_part hd]

theorem inside_front {n : Nat} (h : n ≤ 2036) : (Access.buffer 0 n).Inside ∧ (Access.ram 0 n).Inside := by
  constructor
  all_goals
    intro k hk
    omega

theorem bodySize_eq {flash : List Byte} (h : LengthFits flash) :
    bodySize flash = (ParamFlash.ofBytes flash).length.toNat - 4 := by
  obtain ⟨hlo, -⟩ := h
  exact ofInt_length (by omega)

/-- The test touches nothing outside exactly if the length of a record with the right magic fits. -/
theorem test_inside (flash : List Byte) : (∀ a ∈ testAccesses flash, a.Inside) ↔
    ((ParamFlash.ofBytes flash).magic = paramMagic → LengthFits flash) := by
  unfold testAccesses
  simp only []
  by_cases hm : (ParamFlash.ofBytes flash).magic = paramMagic
  · rw [if_neg (not_not.mpr hm)]
    constructor
    · -- the first and the last byte of the stored CRC
      intro h _
      have hcrc : (Access.buffer ((ParamFlash.ofBytes flash).length.toNat - 4) 4).Inside := h _ (by simp)
      have hfirst := hcrc 0 (by omega)
      have hlast := hcrc 3 (by omega)
      refine ⟨?_, ?_⟩
      · omega
      · omega
    · intro hfit a ha
      have hfit := hfit hm
      have hbody := bodySize_eq hfit
      obtain ⟨hlo, hhi⟩ := hfit
      simp only [List.mem_cons, List.not_mem_nil, or_false] at ha
      rcases ha with rfl | rfl | rfl | rfl
      · exact (inside_front (by omega)).1
      · intro k hk
        omega
      · rw [hbody]
        exact (inside_front (by omega)).1
      · intro k hk
        omega
  · rw [if_pos hm]
    refine ⟨fun _ h => absurd h hm, fun _ a ha => ?_⟩
    rw [List.mem_singleton] at ha
    subst ha
    exact (inside_front (by omega)).1

theorem load_inside {flash : List Byte} (h : LengthFits flash) : ∀ a ∈ loadAccesses flash, a.Inside := by
  have hbody := bodySize_eq h
  obtain ⟨hlo, hhi⟩ := h
  have hcopy := inside_front (n := bodySize flash) (by omega)
  have hall := inside_front (Nat.le_refl 2036)
  unfold loadAccesses
  split
  · simpa using hcopy
  · simpa using hall

theorem partitionOk_magic {flash : List Byte} (h : partitionOk hw around flash = true) :
    (ParamFlash.ofBytes flash).magic = paramMagic := by
  by_contra hm
  have hdamaged : Damaged hw flash := damaged_of_magic hm
  rw [hdamaged around] at h
  exact Bool.false_ne_true h

variable (hw) (c) (around) in
/-- A pass touches nothing outside exactly if the length of a record with the right magic fits. -/
theorem pass_inside (s : Scan) (i : Nat) : (∀ a ∈ s.passAccesses hw c around i, a.Inside) ↔
    ((ParamFlash.ofBytes (s.fetch c i)).magic = paramMagic → LengthFits (s.fetch c i)) := by
  rw [← test_inside]
  unfold Scan.passAccesses
  simp only []
  generalize s.fetch c i = flash
  constructor
  · intro h a ha
    exact h a (by simp [ha])
  · intro htest a ha
    rw [List.cons_append, List.mem_cons, List.mem_append] at ha
    rcases ha with rfl | ha | ha
    · exact (inside_front (Nat.le_refl _)).1
    · exact htest a ha
    · split at ha
      · simp at ha
      · rename_i hok
        rw [Bool.not_eq_false] at hok
        have hfit := (test_inside flash).1 htest (partitionOk_magic hok)
        rw [List.cons_append, List.mem_cons, List.mem_append, List.mem_singleton] at ha
        rcases ha with rfl | ha | rfl
        · intro k hk
          omega
        · split at ha
          · exact load_inside hfit a ha
          · simp at ha
        · exact (inside_front (Nat.le_refl _)).1

end Pass

/-! ## Robustness -/

section Load

variable {hw : Engine} {c : Chip} {env : InitEnv} {s : State}

theorem part_index (b : Bool) : ∃ i, i < 2 ∧ isSecond (BitVec.ofNat 16 i) = b := by
  cases b with
  | false => exact ⟨0, by omega, rfl⟩
  | true => exact ⟨1, by omega, rfl⟩

/-- The accesses stay inside exactly if the lengths fit. -/
theorem init_inside_iff (hd : s.dev.insideFls = some c.density) (hscan : Scans env s) :
    (∀ n, ∀ a ∈ initAccesses hw c env s n, a.Inside) ↔
      ∀ b, (ParamFlash.ofBytes (c.part s.dev.mem b)).magic = paramMagic →
        LengthFits (c.part s.dev.mem b) := by
  have hfetch : ∀ i, i < 2 → (Scan.turns hw c env.around i (Scan.start s.dev, 0)).1.fetch c i =
      c.part s.dev.mem (isSecond (BitVec.ofNat 16 i)) := fun i hi =>
    fetch_part hd (turns_at hw c env.around s.dev (by omega)).2.1 i
  have hinit : ∀ n, initAccesses hw c env s n = .ram 0 2036 :: .buffer 0 2036 ::
      Scan.accesses hw c env.around n (Scan.start s.dev, 0) := fun n => if_pos hscan
  constructor
  · intro h b
    obtain ⟨i, hi, rfl⟩ := part_index b
    rw [← hfetch i hi]
    refine (pass_inside hw c env.around _ i).1 fun a ha => h 2 a ?_
    rw [hinit]
    exact List.mem_cons_of_mem _ (List.mem_cons_of_mem _ (accesses_of_pass hi ha))
  · intro hfit n a ha
    rw [hinit, List.mem_cons, List.mem_cons] at ha
    rcases ha with rfl | rfl | ha
    · exact (inside_front (Nat.le_refl _)).2
    · exact (inside_front (Nat.le_refl _)).1
    · obtain ⟨i, hi, hmem⟩ := mem_accesses ha
      refine (pass_inside hw c env.around _ i).2 ?_ a hmem
      rw [hfetch i hi]
      exact hfit _

/-- A partition is accepted only if it is authentic, when its length fits. -/
theorem accepts_authentic (hr : Reflected hw) (hd : s.dev.insideFls = some c.density) {b : Bool}
    (hfit : (ParamFlash.ofBytes (c.part s.dev.mem b)).magic = paramMagic →
      LengthFits (c.part s.dev.mem b)) (h : Accepts hw c env s b) : Authentic (c.part s.dev.mem b) := by
  obtain ⟨-, n, hlt, hb, hpass⟩ := h
  have hn : n < 2 := by
    by_contra hn
    have hend := (turns_at hw c env.around s.dev (Nat.le_refl 2)).1
    rw [show n = 2 + (n - 2) by omega, turns_add, (turns_stay _ (Nat.le_of_eq hend.symm)).1] at hlt
    omega
  obtain ⟨hi, hdev, -⟩ := turns_at hw c env.around s.dev
    (n := n) (by omega)
  rw [hi] at hb hpass
  have hok : partitionOk hw env.around (c.part s.dev.mem b) = true := by
    have hread := read_part (d := s.dev) hd (BitVec.ofNat 16 n)
    rw [hb] at hread
    unfold Scan.pass at hpass
    rw [hdev, hread] at hpass
    by_contra hno
    rw [Bool.not_eq_true] at hno
    simp [hno] at hpass
  obtain ⟨hlo, hhi⟩ := hfit (partitionOk_magic hok)
  exact (partitionOk_inside hr (c.part_length _ b) (by omega) (by omega) env.around).1 hok

/-- Loading is robust against the content of the two partitions exactly if every record with the right
magic number in them has a length from 4 to 2036. -/
theorem load_robust_iff (hw : Engine) (hr : Reflected hw) (c : Chip) (env : InitEnv) (s : State)
    (hd : s.dev.insideFls = some c.density) :
    Robust hw c env s ↔ (Scans env s → ∀ b,
      (ParamFlash.ofBytes (c.part s.dev.mem b)).magic = paramMagic →
        LengthFits (c.part s.dev.mem b)) := by
  constructor
  · intro h hscan
    exact (init_inside_iff hd hscan).1 h.inside
  · intro hfit
    have hend := (turns_at hw c env.around s.dev (Nat.le_refl 2)).1
    refine ⟨fun n a ha => ?_, ⟨2, Nat.le_of_eq hend.symm⟩, fun b hb => ?_⟩
    · by_cases hscan : Scans env s
      · exact (init_inside_iff hd hscan).2 (hfit hscan) n a ha
      · rw [initAccesses, if_neg hscan] at ha
        simp at ha
    · exact accepts_authentic hr hd (hfit hb.1 b) hb

/-- Both partitions hold a record of this layout. -/
theorem load_robust_iff_filled :
    Robust softEngine air101Chip plenty (State.reset (air101Chip.filled .zero)) := by
  refine (load_robust_iff softEngine softEngine_reflected air101Chip plenty _ rfl).2 fun _ b _ => ?_
  have hvalid : Valid (air101Chip.part (air101Chip.filled .zero).mem b) := filled_both _ _ b
  have hlen := hvalid.2.2.1
  unfold LengthFits
  simp only [State.reset, hlen]
  decide

end Load

/-- An erased chip with a record in the first partition. -/
def Chip.first (c : Chip) (p : ParamFlash) : Dev :=
  { insideFls := some c.density, mem := overlay (fun _ => 0xFF#8) (c.base false) p.bytes, log := [] }

theorem part_overlay (c : Chip) (m : Nat → Byte) (b : Bool) {r : List Byte} (h : r.length = 2036) :
    c.part (overlay m (c.base b) r) b = r := by
  have hslice := slice_overlay m (c.base b) r
  rw [h] at hslice
  exact hslice

theorem Chip.first_part (c : Chip) (p : ParamFlash) : c.part (c.first p).mem false = p.bytes := by
  have hpart := part_overlay c (fun _ => 0xFF#8) false p.bytes_length
  rw [Chip.first]
  simp only [hpart]

/-- A record that claims to have 65535 bytes. -/
def longRecord : ParamFlash := { ParamFlash.zero with magic := paramMagic, length := 0xFFFF#16 }

/-- The CRC engine is sent 65531 bytes into a buffer of 2036. -/
theorem load_long_record :
    ¬ ∀ (d : Dev), d.insideFls = some air101Chip.density →
      Robust softEngine air101Chip plenty (State.reset d) := by
  intro h
  have hrobust := h (air101Chip.first longRecord) rfl
  have hscan : Scans plenty (State.reset (air101Chip.first longRecord)) := by decide
  have hfit := (init_inside_iff rfl hscan).1 hrobust.inside false
  rw [State.reset, air101Chip.first_part, ParamFlash.ofBytes_bytes] at hfit
  have hlong := (hfit rfl).2
  rw [ParamFlash.ofBytes_bytes] at hlong
  exact absurd hlong (by decide)

end Param
end Air101
