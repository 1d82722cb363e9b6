import Air101.Libc.Scanf

/-!
# Libc.ScanSet

`wm_vsscanf` behind a set `%[...]`: the state is not put back, so the characters that follow count as
members of the set.

* `scanLoop_append`: the scanner on a format in two parts.
* `scanLoop_set`: it reads no more of the buffer once a set was matched.
* `behind_set`: what the format says behind a set, up to another closing bracket, has no effect.
-/

namespace Air101
namespace Libc

open Storage

variable {st : Strto}

/-- The scanner is in the middle of a set. -/
def InSet (s : Scan) : Prop := s.state = .matchSet ∨ s.state = .matchRange

theorem scanLoop_cons {c : Byte} (hc : c ≠ 0#8) (format : List Byte) (s : Scan) :
    scanLoop st (c :: format) s =
      if s.bail ≠ .none then some s else (scanStep st c s).bind fun s => scanLoop st format s := by
  rw [scanLoop, if_neg hc]
  cases scanStep st c s with
  | none => rfl
  | some s' => rfl

/-- A format in two parts: the second one goes on where the first one ends. -/
theorem scanLoop_append {pre : List Byte} (hpre : ∀ c ∈ pre, c ≠ 0#8) (c : Byte) (format : List Byte)
    (s : Scan) : scanLoop st (pre ++ c :: format) s =
      (scanLoop st (pre ++ [0#8]) s).bind fun s => scanLoop st (c :: format) s := by
  induction pre generalizing s with
  | nil => rfl
  | cons d pre ih =>
    have hd : d ≠ 0#8 := hpre d (by simp)
    rw [List.cons_append, List.cons_append, scanLoop, scanLoop, if_neg hd, if_neg hd]
    by_cases hb : s.bail ≠ .none
    · rw [if_pos hb, if_pos hb, Option.bind_some, scanLoop, if_pos hb, ite_self]
    · rw [if_neg hb, if_neg hb]
      cases scanStep st d s with
      | none => rfl
      | some s' => exact ih (fun e he => hpre e (List.mem_cons_of_mem _ he)) s'

/-- In a set a character without a closing bracket changes the set only. -/
theorem scanStep_set (st : Strto) {s : Scan} (hs : InSet s) {c : Byte} (hc : c ≠ chr ']') :
    ∃ s', scanStep st c s = some s' ∧ InSet s' ∧ s'.bail = s.bail ∧ s'.converted = s.converted ∧
      s'.stores = s.stores := by
  rcases hs with hs | hs
  · rw [scanStep, hs]
    simp only [if_neg hc]
    split
    · exact ⟨_, rfl, .inr rfl, rfl, rfl, rfl⟩
    · exact ⟨_, rfl, .inl hs, rfl, rfl, rfl⟩
  · rw [scanStep, hs]
    simp only [if_neg hc]
    exact ⟨_, rfl, .inl rfl, rfl, rfl, rfl⟩

/-- So nothing more is read, converted or stored. -/
theorem scanLoop_set (st : Strto) {s : Scan} (hs : InSet s) {format : List Byte}
    (hf : ∀ c ∈ format, c ≠ 0#8 ∧ c ≠ chr ']') (rest : List Byte) :
    ∃ s', scanLoop st (format ++ 0#8 :: rest) s = some s' ∧ s'.bail = s.bail ∧
      s'.converted = s.converted ∧ s'.stores = s.stores := by
  induction format generalizing s with
  | nil => exact ⟨s, rfl, rfl, rfl, rfl⟩
  | cons c format ih =>
    obtain ⟨h0, hc⟩ := hf c (by simp)
    rw [List.cons_append, scanLoop, if_neg h0]
    by_cases hb : s.bail ≠ .none
    · rw [if_pos hb]
      exact ⟨s, rfl, rfl, rfl, rfl⟩
    · obtain ⟨s1, hs1, hin, hb1, hc1, hst1⟩ := scanStep_set st hs hc
      obtain ⟨s', hs', hb', hc', hst'⟩ := ih hin fun d hd => hf d (List.mem_cons_of_mem _ hd)
      rw [if_neg hb, hs1]
      exact ⟨s', hs', hb'.trans hb1, hc'.trans hc1, hst'.trans hst1⟩

/-- The state stays that of a set when the set was matched. -/
theorem matchRun_inSet {s s' : Scan} (hs : InSet s) (h : matchRun s = some s') : InSet s' := by
  rw [matchRun] at h
  simp only [Option.bind_eq_bind, Option.bind_eq_some_iff] at h
  obtain ⟨⟨cs, q⟩, -, h⟩ := h
  simp only at h
  split at h
  · cases h
    exact hs
  · cases q with
    | nil => cases h
    | cons c q =>
      cases h
      exact hs

theorem closeSet_inSet {s s' : Scan} (hs : InSet s) (h : scanStep st (chr ']') s = some s') :
    InSet s' := by
  rcases hs with hs | hs
  · rw [scanStep, hs] at h
    exact matchRun_inSet (.inl hs) h
  · rw [scanStep, hs] at h
    exact matchRun_inSet (s := s.setBit (chr '-')) (.inr hs) h

/-- What the format says behind a set is not looked at: neither literals nor conversions. -/
theorem behind_set {buffer pre format : List Byte} {va : List Nat} {s : Scan}
    (hpre : ∀ c ∈ pre, c ≠ 0#8) (h : scanLoop st (pre ++ [0#8]) (Scan.start buffer va) = some s)
    (hs : InSet s) (hf : ∀ c ∈ format, c ≠ 0#8 ∧ c ≠ chr ']') (rest : List Byte) :
    wmVsscanf st buffer (pre ++ chr ']' :: (format ++ 0#8 :: rest)) va =
      wmVsscanf st buffer (pre ++ chr ']' :: 0#8 :: rest) va := by
  rw [wmVsscanf, wmVsscanf, scanLoop_append hpre _ (format ++ 0#8 :: rest),
    scanLoop_append hpre _ (0#8 :: rest), h]
  simp only [Option.bind_eq_bind, Option.bind_some]
  have hne : chr ']' ≠ 0#8 := by decide
  rw [scanLoop_cons hne, scanLoop_cons hne]
  by_cases hb : s.bail ≠ .none
  · rw [if_pos hb, if_pos hb]
  · rw [if_neg hb, if_neg hb]
    cases hstep : scanStep st (chr ']') s with
    | none => rfl
    | some s1 =>
      have hin := closeSet_inSet hs hstep
      obtain ⟨s2, hs2, hb2, hc2, hst2⟩ := scanLoop_set st hin hf rest
      simp only [hs2, scanLoop, if_true, Option.bind_some, hb2, hc2, hst2]

/-- `%[b],%d` on `b,12`: the number is not read. -/
theorem behind_set_number :
    wmVsscanf ⟨fun q => ([], q), fun q => ([], q)⟩ [chr 'b', chr ',', chr '1', chr '2', 0#8]
        ([chr '%', chr '[', chr 'b'] ++ chr ']' :: ([chr ',', chr '%', chr 'd'] ++ 0#8 :: []))
        [0x100, 0x200] =
      wmVsscanf ⟨fun q => ([], q), fun q => ([], q)⟩ [chr 'b', chr ',', chr '1', chr '2', 0#8]
        ([chr '%', chr '[', chr 'b'] ++ chr ']' :: 0#8 :: []) [0x100, 0x200] :=
  behind_set (by decide) rfl (.inl rfl) (by decide) []

end Libc
end Air101
