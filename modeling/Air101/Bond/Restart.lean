import Air101.Bond.Flush

/-!
# Bond.Restart

The bond database over a flush and a restart, for every run of calls from empty tables. The first store into a record
copies a peer's key and descriptors to a constant address instead of into the record, and every first store after a flush
is one into a free record: a peer's key never comes back. Descriptors come back under the address of the record they went
to.

* `State.restoreTo_flushed`: what the records give back.
* `flush_restart`: the tables come back when there is no peer's key and the descriptors' peers come in the order of our
  keys, in every run in which the descriptors fit `cccd_nvram_array`.
* `bonds_lost`: a run for each of the two ways to lose an entry.
-/

namespace Air101
namespace Bond

open Storage

/-! ## A restart -/

theorem bits_alone : (1 : Nat) &&& 0x02 = 0 ∧ (1 : Nat) &&& 0xFFFFFFFC = 0 := by decide

theorem bits_both : ∀ c, c ≤ maxCccds → (c <<< 2 ||| (1 &&& 0x03)) &&& 0x01 ≠ 0 ∧
    (c <<< 2 ||| (1 &&& 0x03)) &&& 0x02 = 0 ∧ ((c <<< 2 ||| (1 &&& 0x03)) &&& 0xFFFFFFFC ≠ 0 ↔ c ≠ 0) ∧
    (c <<< 2 ||| (1 &&& 0x03)) >>> 2 = c := by
  decide

namespace State

theorem restore_free {s : State} {d : Device} (h : d.validTag ≠ tagValid) : s.restore d = some s := by
  simp [restore, h]

theorem restore_alone {s : State} {d : Device} {v : Sec} :
    s.restore (withOurSec d v) = some { s with ourSecs := s.ourSecs ++ [v] } := by
  obtain ⟨h1, h2⟩ := bits_alone
  simp [restore, withOurSec, h1, h2]

theorem restore_both {s : State} {d : Device} {v : Sec} {g : CccdNvram} (hg : g.offset ≤ maxCccds) :
    s.restore (withCccds (withOurSec d v) g) = some { s with
      ourSecs := s.ourSecs ++ [v]
      cccds := s.cccds ++ (List.range g.offset).map fun j => ⟨v.peerAddr, g.value j⟩ } := by
  obtain ⟨h0, h1, h2, h3⟩ := bits_both g.offset hg
  have hle : g.offset ≤ 6 := hg
  simp only [restore, withCccds, withOurSec, if_pos, h0, h1, h3, ne_eq, not_true_eq_false, not_false_eq_true, if_false,
    if_pos hle]
  by_cases hz : g.offset = 0
  · rw [if_neg (fun h => h2.mp h hz)]
    simp [hz]
  · rw [if_pos (h2.mpr hz)]

/-- The records below `n` give the first `n` of our keys back, and the descriptors of the first `n` peers. -/
theorem restoreTo_flushed {s t : State} (hf : Flushed s t.params) (hs : Flushable s) (hc : s.cccds.length ≤ maxBonds)
    (ht : t.ourSecs = [] ∧ t.peerSecs = [] ∧ t.cccds = []) (n : Nat) (hn : n ≤ maxBonds) :
    ∃ t', restoreTo n t = some t' ∧ t'.ourSecs = s.ourSecs.take n ∧ t'.peerSecs = [] ∧
      t'.cccds = ((keys Cccd.peerAddr s.cccds).take n).flatMap fun a => group Cccd.peerAddr a s.cccds := by
  induction n with
  | zero => exact ⟨t, rfl, by simp [ht.1], ht.2.1, by simp [ht.2.2]⟩
  | succ n ih =>
    obtain ⟨t', hto, ho, hp, hcc⟩ := ih (by omega)
    simp only [restoreTo, hto, List.take_add_one, List.flatMap_append]
    cases hv : s.ourSecs[n]? with
    | none =>
      rw [restore_free (hf.free n hv (by omega)), hs.keys_none hv]
      exact ⟨t', rfl, by simp [ho], hp, by simp [hcc]⟩
    | some v =>
      cases ha : (keys Cccd.peerAddr s.cccds)[n]? with
      | none =>
        obtain ⟨d, hd⟩ := hf.alone n v hv ha
        rw [hd, restore_alone]
        exact ⟨_, rfl, by simp [ho], hp, by simp [hcc]⟩
      | some a =>
        obtain ⟨rfl, d, g, hg, hd⟩ := hf.both n v a hv ha
        have hle : g.offset ≤ maxCccds := by
          rw [hg.offset]
          exact le_trans length_group_le (le_trans hc (by decide))
        have hback := hg.cccds fun c hc => by simpa [group] using (List.mem_filter.mp hc).2
        rw [hd, restore_both hle, hback]
        exact ⟨_, rfl, by simp [ho], hp, by simp [hcc]⟩

end State

/-! ## Runs -/

/-- A call of the database. -/
inductive Call where
  | write (v : Value)
  | delete (k : Key)

namespace State

def call (e : Env) (s : State) : Call → Option (State × Int)
  | .write v => s.write e v
  | .delete k => some (s.delete k)

/-- The table of descriptors as a call writes it, before the pass over it. -/
def cccdsAfter (s : State) : Call → List Cccd
  | .write (.cccd v) => (put (maxCccds * maxBonds) (findCccd v.key s.cccds) v s.cccds).getD s.cccds
  | _ => s.cccds

/-- At most `BLE_STORE_MAX_CCCDS` descriptors of every peer. -/
def PerPeer (s : State) (c : Call) : Prop :=
  ∀ a, (group Cccd.peerAddr a (s.cccdsAfter c)).length ≤ maxCccds

/-- The table has not more descriptors than `cccd_nvram_array` has entries. -/
def Roomy (s : State) (c : Call) : Prop := (s.cccdsAfter c).length ≤ maxBonds

theorem Roomy.perPeer {s : State} {c : Call} (h : s.Roomy c) : s.PerPeer c :=
  fun _ => le_trans length_group_le (le_trans h (by decide))

end State

/-- The states that calls which all return 0 reach from empty tables, each call under the condition `ok`. -/
inductive Run (e : Env) (ok : State → Call → Prop) : State → Prop where
  | empty {s : State} : s.ourSecs = [] → s.peerSecs = [] → s.cccds = [] → Run e ok s
  | call {s s' : State} {c : Call} : Run e ok s → ok s c → s.call e c = some (s', 0) → Run e ok s'

theorem length_put {α : Type} {cap : Nat} {found : Option Nat} {v : α} {xs ys : List α}
    (h : put cap found v xs = some ys) (hx : xs.length ≤ cap) : ys.length ≤ cap := by
  cases found with
  | some idx =>
    obtain rfl := Option.some.inj h
    rwa [List.length_set]
  | none =>
    simp only [put] at h
    split at h
    · cases h
    · obtain rfl := Option.some.inj h
      simp only [List.length_append, List.length_singleton]
      omega

namespace State

theorem persistPeerSecs_params {s s' : State} {rc : Int} (h : s.persistPeerSecs = some (s', rc)) :
    ∃ recs, s' = { s with params := recs } := by
  unfold persistPeerSecs at h
  split at h
  · cases h
  · rename_i recs _ _
    cases h
    exact ⟨recs, rfl⟩

theorem persistOurSecs_params {s s' : State} {rc : Int} (h : s.persistOurSecs = some (s', rc)) :
    ∃ recs, s' = { s with params := recs } := by
  unfold persistOurSecs at h
  split at h
  · cases h
  · rename_i recs _ _
    cases h
    exact ⟨recs, rfl⟩

theorem persistCccds_params {e : Env} {s s' : State} {rc : Int} (hc : s.cccds.length ≤ maxBonds)
    (h : s.persistCccds e = some (s', rc)) : ∃ arr recs, s' = { s with nvramArray := arr, params := recs } := by
  simp only [persistCccds, if_neg (Nat.not_lt.mpr hc)] at h
  split at h
  · cases h
  · cases h
    exact ⟨_, _, rfl⟩

/-- The tables that fit `cccd_nvram_array` and the records. -/
def Fits (s : State) : Prop := s.ourSecs.length ≤ maxBonds ∧ s.cccds.length ≤ maxBonds

theorem Fits.write {e : Env} {s s' : State} {v : Value} {rc : Int} (hs : s.Fits) (hr : s.Roomy (.write v))
    (h : s.write e v = some (s', rc)) : s'.Fits := by
  obtain ⟨ho, hc⟩ := hs
  cases v with
  | ourSec v =>
    simp only [State.write] at h
    split at h
    · cases h
      exact ⟨ho, hc⟩
    · rename_i secs hput
      obtain ⟨recs, rfl⟩ := persistOurSecs_params h
      exact ⟨length_put hput ho, hc⟩
  | peerSec v =>
    simp only [State.write] at h
    split at h
    · cases h
      exact ⟨ho, hc⟩
    · obtain ⟨recs, rfl⟩ := persistPeerSecs_params h
      exact ⟨ho, hc⟩
  | cccd v =>
    simp only [State.write] at h
    split at h
    · cases h
      exact ⟨ho, hc⟩
    · rename_i cccds hput
      have hle : cccds.length ≤ maxBonds := by simpa [Roomy, cccdsAfter, hput] using hr
      obtain ⟨arr, recs, rfl⟩ := persistCccds_params (s := { s with cccds := cccds }) hle h
      exact ⟨ho, hle⟩

theorem Fits.delete {s : State} (hs : s.Fits) (k : Key) : (s.delete k).1.Fits := by
  obtain ⟨ho, hc⟩ := hs
  cases k with
  | ourSec k =>
    simp only [State.delete]
    split
    · exact ⟨ho, hc⟩
    · exact ⟨le_trans (List.length_eraseIdx_le _ _) ho, hc⟩
  | peerSec k =>
    simp only [State.delete]
    split
    · exact ⟨ho, hc⟩
    · exact ⟨ho, hc⟩
  | cccd k =>
    simp only [State.delete]
    split
    · exact ⟨ho, hc⟩
    · exact ⟨ho, le_trans (List.length_eraseIdx_le _ _) hc⟩

end State

theorem Run.fits {e : Env} {s : State} (h : Run e State.Roomy s) : s.Fits := by
  induction h with
  | empty ho _ hc => simp [State.Fits, ho, hc]
  | @call s s' c _ hr hcall ih =>
    cases c with
    | write v => exact ih.write hr hcall
    | delete k =>
      obtain rfl : (s.delete k).1 = s' := congrArg Prod.fst (Option.some.inj hcall)
      exact ih.delete k

/-- The tables of `s'` are those of `s`, up to the order. -/
structure Survives (s s' : State) : Prop where
  ourSecs : s'.ourSecs.Perm s.ourSecs
  peerSecs : s'.peerSecs.Perm s.peerSecs
  cccds : s'.cccds.Perm s.cccds

/-- In every run in which the descriptors fit their array, tables that are `Flushable` come back after a flush and a
restart. -/
theorem flush_restart (e : Env) {s : State} (hrun : Run e State.Roomy s) (hs : Flushable s) :
    ∃ s₁ s₂, s.flush e = some (s₁, 0) ∧ s₁.restart = some s₂ ∧ Survives s s₂ := by
  obtain ⟨ho, hc⟩ := hrun.fits
  obtain ⟨s₁, hflush, hf⟩ := State.flush_flushed e ho hc hs
  obtain ⟨s₂, hrestart, ho₂, hp₂, hc₂⟩ := State.restoreTo_flushed
    (t := { s₁ with
      ourSecs := [], peerSecs := [], cccds := [],
      nvramArray := fun _ => ⟨Addr.any, 0, fun _ => ⟨0, 0, false⟩⟩ }) hf hs hc ⟨rfl, rfl, rfl⟩ maxBonds le_rfl
  refine ⟨s₁, s₂, hflush, hrestart, ?_, ?_, ?_⟩
  · rw [ho₂, List.take_of_length_le ho]
  · rw [hp₂, hs.noPeerSec]
  · rw [hc₂, List.take_of_length_le (le_trans length_keys_le hc)]
    exact groups_perm

/-- Calls one after the other, as long as they return 0 and the descriptors fit their array. -/
def runCalls (e : Env) : State → List Call → Option State
  | s, [] => some s
  | s, c :: cs =>
    if (s.cccdsAfter c).length ≤ maxBonds then
      match s.call e c with
      | some (s', 0) => runCalls e s' cs
      | _ => none
    else none

theorem run_of_runCalls {e : Env} {s s' : State} {cs : List Call} (hs : Run e State.Roomy s)
    (h : runCalls e s cs = some s') : Run e State.Roomy s' := by
  induction cs generalizing s with
  | nil =>
    obtain rfl := Option.some.inj h
    exact hs
  | cons c cs ih =>
    simp only [runCalls] at h
    split at h
    · rename_i hr
      split at h
      · rename_i t hcall
        exact ih (.call hs hr hcall) h
      · cases h
    · cases h

theorem Run.mono {e : Env} {ok ok' : State → Call → Prop} {s : State} (h : Run e ok s)
    (hok : ∀ s c, ok s c → ok' s c) : Run e ok' s := by
  induction h with
  | empty ho hp hc => exact .empty ho hp hc
  | call _ hc hcall ih => exact .call ih (hok _ _ hc) hcall

/-- A key that belongs to the peer `n`. -/
def keyOf (n : Nat) : Sec :=
  ⟨⟨0, BitVec.ofNat 48 n⟩, 16, BitVec.ofNat 16 n, BitVec.ofNat 64 n, BitVec.ofNat 128 n, true, 0, false, 0, false, true,
    true⟩

def zeroDevice : Device := ⟨0, 0, Addr.any, keyOf 0, keyOf 0, fun _ => ⟨0, 0, false⟩⟩

def zeroEnv : Env := ⟨zeroDevice, id⟩

def emptyState : State := ⟨[], [], [], fun _ => ⟨Addr.any, 0, fun _ => ⟨0, 0, false⟩⟩, fun _ => zeroDevice⟩

/-- The state after calls from empty tables. -/
def after (cs : List Call) : State := (runCalls zeroEnv emptyState cs).getD emptyState

theorem run_after {cs : List Call} (h : (runCalls zeroEnv emptyState cs).isSome) : Run zeroEnv State.Roomy (after cs) := by
  obtain ⟨s, hs⟩ := Option.isSome_iff_exists.mp h
  have hafter : after cs = s := by simp [after, hs]
  exact run_of_runCalls (.empty rfl rfl rfl) (hafter ▸ hs)

/-- Our key of one peer and a descriptor of it. -/
def bonded : State := after [.write (.ourSec (keyOf 1)), .write (.cccd ⟨(keyOf 1).peerAddr, 12, 1, false⟩)]

theorem flush_restart_bonded : bonded.cccds ≠ [] ∧
    ∃ s₁ s₂, bonded.flush zeroEnv = some (s₁, 0) ∧ s₁.restart = some s₂ ∧ Survives bonded s₂ :=
  ⟨by decide, flush_restart zeroEnv (run_after rfl) ⟨by decide, by decide⟩⟩

/-- One key of a peer. -/
def peerKey : State := after [.write (.peerSec (keyOf 1))]

/-- Our keys of two peers, and a descriptor of the second. -/
def secondPeer : State :=
  after [.write (.ourSec (keyOf 1)), .write (.ourSec (keyOf 2)), .write (.cccd ⟨(keyOf 2).peerAddr, 12, 1, false⟩)]

/-- A run after which a flush returns 0 and the tables do not come back. -/
def Lost (e : Env) (s : State) : Prop :=
  Run e State.PerPeer s ∧ ∃ s₁ s₂, s.flush e = some (s₁, 0) ∧ s₁.restart = some s₂ ∧ ¬ Survives s s₂

/-- The key of a peer comes back as what was on the stack, and the descriptor of the second peer as one of the first. -/
theorem bonds_lost : Lost zeroEnv peerKey ∧ Lost zeroEnv secondPeer := by
  refine ⟨⟨?_, _, _, rfl, rfl, ?_⟩, ⟨?_, _, _, rfl, rfl, ?_⟩⟩
  · exact (run_after rfl).mono fun _ _ => State.Roomy.perPeer
  · intro h
    exact absurd h.peerSecs (by decide)
  · exact (run_after rfl).mono fun _ _ => State.Roomy.perPeer
  · intro h
    exact absurd h.cccds (by decide)

end Bond
end Air101
