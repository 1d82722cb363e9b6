import Air101.Libc.Printf
import Mathlib.Data.Option.Basic

/-!
# Libc.Sink

`_vsnprintf` puts out the same characters through every output function.

* `text`: the characters of a call, put out to a list.
* `Writes`: an output function has got the characters of the list, and no others.
* `Writes.formatLoop`: the loop of `_vsnprintf` keeps that, one lemma for each function it calls.
* `vsnprintf_text`: what a call leaves, from the characters alone.
* `printf_truncates`: a buffer gets what the UART gets, cut to its size.
-/

namespace Air101
namespace Libc

open Storage

/-- Characters put out to a list. -/
def outText (c : Byte) (cs : List Byte) (_ _ : Nat) : List Byte := cs ++ [c]

/-- The characters of a call. -/
def text (fp : Floats) (format : List Byte) (va : List Arg) : Option (List Byte) :=
  (formatLoop outText 0 fp (format.length + 1) format va ⟨[], 0⟩).map Out.buffer

section Writes

variable {σ : Type} {out : Byte → σ → Nat → Nat → σ} {maxlen : Nat} {b : σ}

theorem putAll_append (o : Out σ) (cs ds : List Byte) :
    putAll out maxlen o (cs ++ ds) = putAll out maxlen (putAll out maxlen o cs) ds :=
  List.foldl_append

theorem putAll_snoc (o : Out σ) (cs : List Byte) (c : Byte) :
    putAll out maxlen o (cs ++ [c]) = put out maxlen (putAll out maxlen o cs) c := by
  rw [putAll_append]
  rfl

theorem putAll_idx (cs : List Byte) :
    (putAll out maxlen ⟨b, 0⟩ cs).idx = cs.length % 2 ^ 32 := by
  induction cs using List.reverseRecOn with
  | nil => rfl
  | append_singleton cs c ih =>
    rw [putAll_snoc, put, ih, List.length_append, List.length_singleton, Nat.mod_add_mod]

/-- The output function has got the characters of the list. -/
structure Writes (out : Byte → σ → Nat → Nat → σ) (maxlen : Nat) (b : σ) (o : Out σ)
    (t : Out (List Byte)) : Prop where
  all : o = putAll out maxlen ⟨b, 0⟩ t.buffer
  idx : t.idx = o.idx

variable {o : Out σ} {t : Out (List Byte)}

theorem Writes.start : Writes out maxlen b ⟨b, 0⟩ ⟨[], 0⟩ := ⟨rfl, rfl⟩

theorem Writes.put (h : Writes out maxlen b o t) (c : Byte) :
    Writes out maxlen b (put out maxlen o c) (put outText 0 t c) where
  all := by
    rw [h.all, ← putAll_snoc]
    rfl
  idx := by
    simp only [Libc.put, h.idx]

theorem Writes.putAll (h : Writes out maxlen b o t) (cs : List Byte) :
    Writes out maxlen b (putAll out maxlen o cs) (putAll outText 0 t cs) := by
  induction cs generalizing o t with
  | nil => exact h
  | cons c cs ih => exact ih (h.put c)

theorem Writes.padTo (h : Writes out maxlen b o t) (start width : Nat) :
    Writes out maxlen b (padTo out maxlen o start width) (padTo outText 0 t start width) :=
  h.putAll _

theorem Writes.padBehind (h : Writes out maxlen b o t) (startIdx width n : Nat) :
    Writes out maxlen b (padBehind out maxlen startIdx width n o)
      (padBehind outText 0 startIdx width n t) := by
  induction n generalizing o t with
  | zero => exact h
  | succ n ih =>
    simp only [Libc.padBehind, h.idx]
    split
    · exact ih (h.put _)
    · exact h

theorem Writes.outRev (h : Writes out maxlen b o t) (buf : List Byte) (width : Nat) (flags : Flags) :
    Writes out maxlen b (outRev out maxlen o buf width flags) (outRev outText 0 t buf width flags) := by
  simp only [Libc.outRev, h.idx]
  have hfront : Writes out maxlen b
      (if !flags.left && !flags.zeropad then Libc.padTo out maxlen o buf.length width else o)
      (if !flags.left && !flags.zeropad then Libc.padTo outText 0 t buf.length width else t) := by
    split
    · exact h.padTo _ _
    · exact h
  have hmid := hfront.putAll buf.reverse
  by_cases hleft : flags.left = true
  · rw [if_pos hleft, if_pos hleft]
    exact hmid.padBehind _ _ _
  · rw [if_neg hleft, if_neg hleft]
    exact hmid

theorem Writes.ntoaLong (h : Writes out maxlen b o t) (value : Nat) (negative : Bool)
    (base prec width : Nat) (flags : Flags) :
    Writes out maxlen b (ntoaLong out maxlen o value negative base prec width flags)
      (ntoaLong outText 0 t value negative base prec width flags) :=
  h.outRev _ _ _

/-! ## Calls that may fail -/

theorem rel_bind {α β γ δ : Type} {R : α → β → Prop} {S : γ → δ → Prop} {x : Option α} {y : Option β}
    {f : α → Option γ} {g : β → Option δ} (h : Option.Rel R x y)
    (hfg : ∀ a c, R a c → Option.Rel S (f a) (g c)) : Option.Rel S (x >>= f) (y >>= g) := by
  cases h with
  | none => exact .none
  | some h => exact hfg _ _ h

theorem rel_same {α γ δ : Type} {S : γ → δ → Prop} (x : Option α) {f : α → Option γ}
    {g : α → Option δ} (hfg : ∀ a, Option.Rel S (f a) (g a)) : Option.Rel S (x >>= f) (x >>= g) := by
  cases x with
  | none => exact .none
  | some a => exact hfg a

theorem rel_ite {γ δ : Type} {S : γ → δ → Prop} {p : Prop} [Decidable p] {x x' : Option γ}
    {y y' : Option δ} (h : Option.Rel S x y) (h' : Option.Rel S x' y') :
    Option.Rel S (if p then x else x') (if p then y else y') := by
  split
  · exact h
  · exact h'

theorem Writes.putString (h : Writes out maxlen b o t) (cs : List Byte) (limit : Option Nat) :
    Option.Rel (Writes out maxlen b) (putString out maxlen cs limit o)
      (putString outText 0 cs limit t) := by
  induction cs generalizing o t limit with
  | nil => exact .none
  | cons c cs ih =>
    simp only [Libc.putString]
    split
    · exact .some h
    · cases limit with
      | none => exact ih (h.put c) none
      | some n =>
        cases n with
        | zero => exact .some h
        | succ n => exact ih (h.put c) (some n)

theorem Writes.putField (h : Writes out maxlen b o t) (flags : Flags) (width precision l : Nat)
    (p : List Byte) :
    Option.Rel (Writes out maxlen b) (putField out maxlen o flags width precision l p)
      (putField outText 0 t flags width precision l p) := by
  simp only [Libc.putField]
  generalize (if flags.precision then (if l < precision then l else precision) else l) = k
  by_cases hleft : flags.left = true
  · simp only [hleft, Bool.not_true, Bool.false_eq_true, if_false, if_true]
    exact rel_bind (h.putString p _) fun a c hac => .some (hac.padTo _ _)
  · simp only [Bool.not_eq_true] at hleft
    simp only [hleft, Bool.not_false, Bool.false_eq_true, if_false, if_true]
    exact rel_bind ((h.padTo _ _).putString p _) fun a c hac => .some hac

/-- The same arguments are left. -/
def WritesVa (out : Byte → σ → Nat → Nat → σ) (maxlen : Nat) (b : σ) (x : Out σ × List Arg)
    (y : Out (List Byte) × List Arg) : Prop := Writes out maxlen b x.1 y.1 ∧ x.2 = y.2

theorem Writes.putInteger (h : Writes out maxlen b o t) (s : Spec) (va : List Arg) :
    Option.Rel (WritesVa out maxlen b) (putInteger out maxlen o s va) (putInteger outText 0 t s va) := by
  refine rel_same _ fun v => ?_
  simp only
  split
  · exact .some ⟨h.ntoaLong _ _ _ _ _ _, rfl⟩
  · exact .some ⟨h.ntoaLong _ _ _ _ _ _, rfl⟩

theorem Writes.convert (h : Writes out maxlen b o t) (fp : Floats) (s : Spec) (va : List Arg) :
    Option.Rel (WritesVa out maxlen b) (convert out maxlen fp o s va) (convert outText 0 fp t s va) := by
  have hfield : ∀ l p (va : List Arg), Option.Rel (WritesVa out maxlen b)
      (Libc.putField out maxlen o s.flags s.width s.precision l p >>= fun o => some (o, va))
      (Libc.putField outText 0 t s.flags s.width s.precision l p >>= fun o => some (o, va)) :=
    fun l p va => rel_bind (h.putField _ _ _ _ _) fun a c hac => .some ⟨hac, rfl⟩
  rw [Libc.convert, Libc.convert]
  refine rel_ite (h.putInteger s va) ?_
  refine rel_ite (rel_same _ fun v => .some ⟨h.putAll _, rfl⟩) ?_
  refine rel_ite (rel_same _ fun v => .some ⟨h.putAll _, rfl⟩) ?_
  refine rel_ite (rel_same _ fun v => ?char) ?_
  case char =>
    by_cases hleft : s.flags.left = true
    · simp only [hleft, Bool.not_true, Bool.false_eq_true, if_false, if_true]
      exact .some ⟨(h.put _).padTo _ _, rfl⟩
    · simp only [Bool.not_eq_true] at hleft
      simp only [hleft, Bool.not_false, Bool.false_eq_true, if_false, if_true]
      exact .some ⟨(h.padTo _ _).put _, rfl⟩
  refine rel_ite (rel_same _ fun v => rel_same _ fun l => hfield l _ _) ?_
  refine rel_ite (rel_same _ fun v => .some ⟨h.ntoaLong _ _ _ _ _ _, rfl⟩) ?_
  refine rel_ite (rel_same _ fun v => rel_same _ fun p => hfield _ p _) ?_
  refine rel_ite (rel_same _ fun v => hfield _ _ _) ?_
  refine rel_ite (rel_same _ fun v => rel_same _ fun p => hfield _ p _) ?_
  exact .some ⟨h.put _, rfl⟩

theorem Writes.formatLoop (h : Writes out maxlen b o t) (fp : Floats) (n : Nat) (format : List Byte)
    (va : List Arg) : Option.Rel (Writes out maxlen b) (formatLoop out maxlen fp n format va o)
      (formatLoop outText 0 fp n format va t) := by
  induction n generalizing format va o t with
  | zero => exact .none
  | succ n ih =>
    cases format with
    | nil => exact .none
    | cons c format =>
      simp only [Libc.formatLoop]
      split
      · exact .some h
      split
      · exact ih (h.put c) format va
      · refine rel_same _ fun x => rel_bind (h.convert fp _ _) fun y z hyz => ?_
        rw [hyz.2]
        exact ih hyz.1 _ _

end Writes

/-- What a call leaves, and its result, from the characters alone. -/
theorem vsnprintf_text {σ : Type} (out : Byte → σ → Nat → Nat → σ) (maxlen : Nat) (fp : Floats) (b : σ)
    (format : List Byte) (va : List Arg) :
    vsnprintf out maxlen fp b format va = (text fp format va).map fun cs =>
      (out 0#8 (putAll out maxlen ⟨b, 0⟩ cs).buffer
        (if cs.length % 2 ^ 32 < maxlen then cs.length % 2 ^ 32 else (maxlen + 2 ^ 32 - 1) % 2 ^ 32)
        maxlen, (BitVec.ofNat 32 (cs.length % 2 ^ 32)).toInt) := by
  have hstart : Writes out maxlen b ⟨b, 0⟩ ⟨[], 0⟩ := .start
  have hrel := hstart.formatLoop fp (format.length + 1) format va
  rw [vsnprintf, text]
  revert hrel
  generalize formatLoop out maxlen fp (format.length + 1) format va ⟨b, 0⟩ = x
  generalize formatLoop outText 0 fp (format.length + 1) format va ⟨[], 0⟩ = y
  intro hrel
  cases hrel with
  | none => rfl
  | some h =>
    simp only [Option.bind_eq_bind, Option.bind_some, Option.map_some, Option.pure_def]
    rw [h.all, putAll_idx]

/-! ## The two outputs -/

/-- A buffer holds the characters as far as they fit. -/
theorem putAll_outBuffer {base count : Nat} {ram : Nat → Byte} {cs : List Byte}
    (h : cs.length < 2 ^ 32) :
    (putAll (outBuffer base) count ⟨ram, 0⟩ cs).buffer = overlay ram base (cs.take count) := by
  induction cs using List.reverseRecOn with
  | nil => simp [putAll]
  | append_singleton cs c ih =>
    rw [List.length_append, List.length_singleton] at h
    rw [putAll_snoc, put]
    simp only [putAll_idx, Nat.mod_eq_of_lt (show cs.length < 2 ^ 32 by omega), outBuffer]
    rw [ih (by omega)]
    split
    case isTrue hlt =>
      rw [List.take_of_length_le (by omega), List.take_of_length_le (by simp; omega), overlay_append]
    case isFalse hge => rw [List.take_append_of_le_length (by omega)]

theorem putAll_outUart {maxlen : Nat} {u : Uart} {cs : List Byte} (h : u.printfPort = 0#8) :
    (putAll outUart maxlen ⟨u, 0⟩ cs).buffer = { u with tx0 := u.tx0 ++ cs } := by
  induction cs using List.reverseRecOn with
  | nil => simp [putAll]
  | append_singleton cs c ih =>
    rw [putAll_snoc, put]
    simp only [ih, outUart, sendchar, h, if_true, List.append_assoc]

/-- The terminator goes behind the characters, or over the last one that fits. -/
theorem terminate {base count : Nat} {ram : Nat → Byte} {cs : List Byte} (hc : 0 < count)
    (hc32 : count < 2 ^ 32) :
    outBuffer base 0#8 (overlay ram base (cs.take count))
        (if cs.length < count then cs.length else (count + 2 ^ 32 - 1) % 2 ^ 32) count =
      overlay ram base (cs.take (count - 1) ++ [0#8]) := by
  split
  case isTrue hlt =>
    rw [outBuffer, if_pos hlt, List.take_of_length_le (by omega), List.take_of_length_le (by omega),
      overlay_append]
  case isFalse hge =>
    have hlast : (count + 2 ^ 32 - 1) % 2 ^ 32 = count - 1 := by omega
    obtain ⟨k, rfl⟩ : ∃ k, count = k + 1 := ⟨count - 1, by omega⟩
    have hk : k < cs.length := by omega
    have hlen : (cs.take k).length = k := by
      rw [List.length_take]
      omega
    rw [hlast, outBuffer, if_pos (by omega), Nat.add_sub_cancel, List.take_succ_eq_append_getElem hk,
      overlay_append, overlay_append, hlen]
    funext x
    by_cases hx : x = base + k
    · rw [overlay_in (by omega) (by simp; omega), overlay_in (by omega) (by simp; omega)]
    · have hone : ∀ c : Byte, x < base + k ∨ base + k + [c].length ≤ x := by
        intro c
        rw [List.length_singleton]
        omega
      rw [overlay_out (hone _), overlay_out (hone _), overlay_out (hone _)]

/-- What `wm_printf` sends. -/
theorem wmPrintf_text {fp : Floats} {format : List Byte} {va : List Arg} {cs : List Byte}
    (h : text fp format va = some cs) : wmPrintf fp ⟨0#8, [], []⟩ format va =
      some (⟨0#8, cs ++ [0#8], []⟩, (BitVec.ofNat 32 (cs.length % 2 ^ 32)).toInt) := by
  rw [wmPrintf, vsnprintf_text, h, Option.map_some, putAll_outUart rfl, outUart, sendchar, if_pos rfl]
  rfl

/-- A buffer of `count` bytes gets the first `count - 1` of the characters that the UART gets, and a
terminator; the result does not depend on `count`. -/
theorem printf_truncates (fp : Floats) (ram : Nat → Byte) {buffer count : Nat} (format : List Byte)
    (va : List Arg) (hb : buffer ≠ 0) (hc : 0 < count) (hc32 : count < 2 ^ 32) :
    (wmPrintf fp ⟨0#8, [], []⟩ format va = none ∧
      wmVsnprintf fp ram buffer count format va = none) ∨
    ∃ cs r, wmPrintf fp ⟨0#8, [], []⟩ format va = some (⟨0#8, cs ++ [0#8], []⟩, r) ∧
      (cs.length < 2 ^ 32 → wmVsnprintf fp ram buffer count format va =
        some (overlay ram buffer (cs.take (count - 1) ++ [0#8]), r)) := by
  cases htext : text fp format va with
  | none =>
    refine .inl ⟨?_, ?_⟩
    · rw [wmPrintf, vsnprintf_text, htext]
      rfl
    · rw [wmVsnprintf, if_neg hb, vsnprintf_text, htext]
      rfl
  | some cs =>
    refine .inr ⟨cs, _, wmPrintf_text htext, fun hlen => ?_⟩
    rw [wmVsnprintf, if_neg hb, vsnprintf_text, htext, Option.map_some, putAll_outBuffer hlen,
      Nat.mod_eq_of_lt hlen, terminate hc hc32]

theorem printf_truncates_four :
    (wmPrintf ⟨fun _ _ _ _ => [], fun _ _ _ _ => []⟩ ⟨0#8, [], []⟩
        [chr 'v', chr '=', chr '%', chr 'd', 0#8] [.word 1234#32] = none ∧
      wmVsnprintf ⟨fun _ _ _ _ => [], fun _ _ _ _ => []⟩ (fun _ => 0xFF#8) 0x20001000 4
        [chr 'v', chr '=', chr '%', chr 'd', 0#8] [.word 1234#32] = none) ∨
    ∃ cs r, wmPrintf ⟨fun _ _ _ _ => [], fun _ _ _ _ => []⟩ ⟨0#8, [], []⟩
        [chr 'v', chr '=', chr '%', chr 'd', 0#8] [.word 1234#32] =
          some (⟨0#8, cs ++ [0#8], []⟩, r) ∧
      (cs.length < 2 ^ 32 →
        wmVsnprintf ⟨fun _ _ _ _ => [], fun _ _ _ _ => []⟩ (fun _ => 0xFF#8) 0x20001000 4
          [chr 'v', chr '=', chr '%', chr 'd', 0#8] [.word 1234#32] =
            some (overlay (fun _ => 0xFF#8) 0x20001000 (cs.take 3 ++ [0#8]), r)) :=
  printf_truncates _ _ _ _ (by decide) (by decide) (by decide)

end Libc
end Air101
