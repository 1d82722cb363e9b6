import Mathlib.Data.List.Basic

/-!
# Storage.Link

A device behind a link: it gets one message after the other, and each of them can fail. What a failed
message leaves in the device is not known; a message that is taken has its effect.

* `Clear io a n`: the `n` messages from number `a` on are all taken.
* `Sends io f n g`: `f` sends `n` messages; it succeeds, with the effect `g`, exactly if all of them
  are taken.
* `Sends.andThen`, `Sends.loop`: one piece of code behind the other, and a loop, each left at the first
  failure.
-/

namespace Storage

variable {α : Type}

/-- What becomes of a message: it is taken, or it fails and leaves the device as `left` says. -/
inductive Answer (α : Type) where
  | ok
  | failed (left : α → α)

/-- The content of the device, and the number of messages sent so far. -/
structure Link (α : Type) where
  mem : α
  sent : Nat

namespace Link

/-- One message with its effect. -/
def send (io : Nat → Answer α) (effect : α → α) (s : Link α) : Bool × Link α :=
  match io s.sent with
  | .ok => (true, ⟨effect s.mem, s.sent + 1⟩)
  | .failed left => (false, ⟨left s.mem, s.sent + 1⟩)

/-- Goes on with `k` after a success. -/
def andThen (r : Bool × Link α) (k : Link α → Bool × Link α) : Bool × Link α :=
  if r.1 then k r.2 else r

/-- Does `f i`, `f (i + 1)`, … `n` times, up to the first failure. -/
def loop (f : Nat → Link α → Bool × Link α) : Nat → Nat → Link α → Bool × Link α
  | 0, _, s => (true, s)
  | n + 1, i, s => andThen (f i s) (loop f n (i + 1))

end Link

/-- The `n` messages from number `a` on are all taken. -/
def Clear (io : Nat → Answer α) (a n : Nat) : Prop := ∀ k, k < n → io (a + k) = .ok

theorem clear_add (io : Nat → Answer α) (a m n : Nat) :
    Clear io a (m + n) ↔ Clear io a m ∧ Clear io (a + m) n := by
  constructor
  · intro h
    refine ⟨fun k hk => h k (by omega), fun k hk => ?_⟩
    have hk' := h (m + k) (by omega)
    rwa [← Nat.add_assoc] at hk'
  · rintro ⟨hm, hn⟩ k hk
    by_cases hlt : k < m
    · exact hm k hlt
    · have hk' := hn (k - m) (by omega)
      rwa [show a + m + (k - m) = a + k by omega] at hk'

/-- `f` sends `n` messages, up to the first one that fails; when all are taken it succeeds with the
effect `g`. -/
structure Sends (io : Nat → Answer α) (f : Link α → Bool × Link α) (n : Nat) (g : α → α) : Prop where
  done : ∀ s : Link α, Clear io s.sent n → f s = (true, ⟨g s.mem, s.sent + n⟩)
  fails : ∀ s : Link α, ¬ Clear io s.sent n → (f s).1 = false

namespace Sends

variable {io : Nat → Answer α} {f f' : Link α → Bool × Link α} {m n : Nat} {g g' : α → α}

theorem send (io : Nat → Answer α) (effect : α → α) : Sends io (Link.send io effect) 1 effect := by
  refine ⟨fun s h => ?_, fun s h => ?_⟩
  · have hok := h 0 Nat.zero_lt_one
    rw [Nat.add_zero] at hok
    rw [Link.send, hok]
  · unfold Link.send
    cases hio : io s.sent with
    | ok =>
      refine absurd (fun k hk => ?_) h
      rw [show k = 0 by omega, Nat.add_zero, hio]
    | failed left => rfl

/-- It succeeds exactly if all its messages are taken. -/
theorem ok_iff (h : Sends io f n g) (s : Link α) : (f s).1 = true ↔ Clear io s.sent n := by
  constructor
  · intro hok
    by_cases hclear : Clear io s.sent n
    · exact hclear
    · rw [h.fails s hclear] at hok
      exact absurd hok Bool.false_ne_true
  · intro hclear
    rw [h.done s hclear]

/-- What a success leaves. -/
theorem of_ok (h : Sends io f n g) {s : Link α} (hok : (f s).1 = true) :
    Clear io s.sent n ∧ f s = (true, ⟨g s.mem, s.sent + n⟩) :=
  ⟨(h.ok_iff s).1 hok, h.done s ((h.ok_iff s).1 hok)⟩

theorem andThen (hf : Sends io f m g) (hf' : Sends io f' n g') :
    Sends io (fun s => Link.andThen (f s) f') (m + n) (g' ∘ g) := by
  refine ⟨fun s h => ?_, fun s h => ?_⟩
  · obtain ⟨hm, hn⟩ := (clear_add io s.sent m n).1 h
    simp only [Link.andThen, hf.done s hm, if_true]
    rw [hf'.done _ hn]
    simp only [Function.comp, Nat.add_assoc]
  · by_cases hm : Clear io s.sent m
    · simp only [Link.andThen, hf.done s hm, if_true]
      exact hf'.fails _ fun hn => h ((clear_add io s.sent m n).2 ⟨hm, hn⟩)
    · have hbad := hf.fails s hm
      simp only [Link.andThen, hbad, Bool.false_eq_true, if_false]

/-- The loop has the effects of its passes, one after the other. -/
theorem loop {f : Nat → Link α → Bool × Link α} {g : Nat → α → α} (n i : Nat)
    (h : ∀ j, j < n → Sends io (f (i + j)) m (g (i + j))) :
    Sends io (Link.loop f n i) (n * m) fun x => (List.range' i n).foldl (fun x j => g j x) x := by
  induction n generalizing i with
  | zero =>
    refine ⟨fun s _ => ?_, fun s hno => absurd (fun k hk => ?_) hno⟩
    · simp [Link.loop]
    · omega
  | succ n ih =>
    have hfirst := h 0 (by omega)
    have hrest := ih (i + 1) fun j hj => by
      rw [show i + 1 + j = i + (j + 1) by omega]
      exact h (j + 1) (by omega)
    have hboth := hfirst.andThen hrest
    rw [show (n + 1) * m = m + n * m by rw [Nat.add_mul, Nat.one_mul, Nat.add_comm]]
    exact hboth

end Sends

end Storage
