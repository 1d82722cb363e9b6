import Air101.Bond.Restart
import Air101.Storage.Runs

/-!
# Bond.Bounds

Which memory the passes over the tables touch: the entries of `cccd_nvram_array` and of their value arrays, and where the
`btif_config_store_*` copy a payload to. Each pass has the list of its accesses beside it, made from the same steps.

A record that was not valid gets its peer key, or its descriptors, copied to a fixed address instead of into the record.
A pass does not do so when all records are valid, when its table is empty, or when the peer of its first entry has a
valid record and the records of the table's indices are valid as well.

* `persistAccesses_fine`: the accesses of a pass whose payload goes into the record just where the record was valid.
* `Prepared.addAccesses_fine`: grouping at most `maxBonds` descriptors stays in both arrays.
* `State.inBounds_iff`: the states in which all three passes stay in bounds.
-/

namespace Air101
namespace Bond

open Storage

/-! ## The copies into a record -/

/-- `sizeof(bt_remote_device_t)`. -/
def deviceSize : Nat := 220

/-- `sizeof(struct ble_store_value_sec)`. -/
def secSize : Nat := 72

/-- `sizeof(ble_store_value_t)*MYNEWT_VAL(BLE_STORE_MAX_CCCDS)`. -/
def cccdsSize : Nat := 8 * maxCccds

/-- `NVRAM_ADDR_PAYLOAD_OFFSET`. -/
def addrOffset : Nat := 12

/-- `NVRAM_OUR_SEC_PAYLOAD_OFFSET`. -/
def ourSecOffset : Nat := addrOffset + 7

/-- `NVRAM_PEER_SEC_PAYLOAD_OFFSET`. -/
def peerSecOffset : Nat := ourSecOffset + 72

/-- `NVRAM_CCCD_SEC_PAYLOAD_OFFSET`. -/
def cccdOffset : Nat := peerSecOffset + 72

/-- What `ptr_offset` points to when the payload is copied: into the record, or to an address. -/
inductive Dest where
  | record (offset : Nat)
  | absolute (address : Nat)
  deriving DecidableEq

/-- `ptr_offset` in `btif_config_store_our_sec`. -/
def ourSecDest (device : Device) : Dest :=
  if device.validTag = tagValid then .record ourSecOffset else .record (addrOffset + 7)

/-- `ptr_offset` in `btif_config_store_peer_sec`. -/
def peerSecDest (device : Device) : Dest :=
  if device.validTag = tagValid then .record peerSecOffset else .absolute peerSecOffset

/-- `ptr_offset` in `btif_config_store_cccd`. -/
def cccdDest (device : Device) : Dest :=
  if device.validTag = tagValid then .record cccdOffset else .absolute cccdOffset

/-! ## The accesses of the passes -/

/-- An access to an entry of `cccd_nvram_array`, to an element of an entry's `value`, or the copy of a payload that is
meant for `offset` in the record. -/
inductive Access where
  | entry (j : Nat)
  | value (k : Nat)
  | copy (offset length : Nat) (dest : Dest)

def Access.Fine : Access → Prop
  | .entry j => j < maxBonds
  | .value k => k < maxCccds
  | .copy offset length dest => dest = .record offset ∧ offset + length ≤ deviceSize

section Persist

variable {α : Type} (addr : α → Addr) (store : Params → Nat → α → Option Params) (touch : Nat → List Access)
  (copy : Device → Access)

/-- The accesses of `persistLoop`, with those to the entry `i` of the table. -/
def persistAccesses : List α → Nat → Bool → Params → List Access
  | [], _, _, _ => []
  | x :: xs, i, found, recs =>
    touch i ++ match getSecIndex recs (addr x) found with
      | (none, _) => []
      | (some idx, found) =>
        match store recs (if found then i else idx) x with
        | none => []
        | some recs' => copy (recs (if found then i else idx)) :: persistAccesses xs (i + 1) found recs'

end Persist

/-- The accesses of the first loop of `ble_store_config_persist_cccds`. -/
def resetAccesses (n : Nat) : List Access := (List.range n).map .entry

/-- The accesses of one round of the second loop: the entries whose addresses are compared, and the one written to. -/
def Prep.addAccesses (p : Prep) (c : Cccd) : List Access :=
  match (List.range p.preferIndex).find? fun j => c.peerAddr = (p.arr j).addr with
  | some j => (List.range (j + 1)).map .entry ++ [.value (p.arr j).offset]
  | none => (List.range (p.preferIndex + 1)).map .entry ++ [.value (p.arr p.preferIndex).offset]

namespace State

/-- The accesses of `ble_store_config_persist_our_secs`. -/
def ourSecsAccesses (s : State) : List Access :=
  persistAccesses Sec.peerAddr storeOurSec (fun _ => []) (fun d => .copy ourSecOffset secSize (ourSecDest d))
    s.ourSecs 0 false s.params

/-- The accesses of `ble_store_config_persist_peer_secs`. -/
def peerSecsAccesses (s : State) : List Access :=
  persistAccesses Sec.peerAddr storePeerSec (fun _ => []) (fun d => .copy peerSecOffset secSize (peerSecDest d))
    s.peerSecs 0 false s.params

/-- The accesses of the second loop of `ble_store_config_persist_cccds`. -/
def prepareAccesses (s : State) : List Access :=
  (trace Prep.add ⟨resetOffsets s.cccds.length s.nvramArray, 0, false⟩ s.cccds).flatMap fun q => q.1.addAccesses q.2

/-- The accesses of the third loop of `ble_store_config_persist_cccds`. -/
def storeAccesses (s : State) : List Access :=
  let p := prepare s.cccds (resetOffsets s.cccds.length s.nvramArray)
  persistAccesses CccdNvram.addr (fun recs idx g => storeCccd recs idx g.addr g.offset g.value) (fun i => [.entry i])
    (fun d => .copy cccdOffset cccdsSize (cccdDest d)) ((List.range p.preferIndex).map p.arr) 0 p.found s.params

/-- The accesses of `ble_store_config_persist_cccds`. -/
def cccdsAccesses (e : Env) (s : State) : List Access :=
  resetAccesses s.cccds.length ++
    let s := if maxBonds < s.cccds.length then e.overrun s else s
    prepareAccesses s ++ storeAccesses s

/-- The three passes stay in the arrays and in the records. -/
structure InBounds (e : Env) (s : State) : Prop where
  ourSecs : ∀ a ∈ s.ourSecsAccesses, a.Fine
  peerSecs : ∀ a ∈ s.peerSecsAccesses, a.Fine
  cccds : ∀ a ∈ s.cccdsAccesses e, a.Fine

/-- The sizes of the tables. -/
structure Sized (s : State) : Prop where
  ourSecs : s.ourSecs.length ≤ maxBonds
  peerSecs : s.peerSecs.length ≤ maxBonds
  cccds : s.cccds.length ≤ maxCccds * maxBonds

end State

/-! ## When a pass stays in the records -/

/-- No record is free. -/
def AllValid (recs : Params) : Prop := ∀ i, i < maxBonds → (recs i).validTag = tagValid

/-- A peer that has a valid record. -/
def Known (recs : Params) (a : Addr) : Prop := ∃ i, i < maxBonds ∧ (recs i).validTag = tagValid ∧ a = (recs i).addr

/-- A pass over entries with these addresses, from the index `i` on, stores in valid records only: there is no entry, or
no record is free, or the first entry sets `found` unless it is set already, and the records of the indices are valid. -/
def Settled (recs : Params) (addrs : List Addr) (i : Nat) (found : Bool) : Prop :=
  addrs = [] ∨ AllValid recs ∨
    ((found = true ∨ ∃ a, addrs.head? = some a ∧ Known recs a) ∧
      ∀ k, i ≤ k → k < i + addrs.length → (recs k).validTag = tagValid)

/-- Records with the same tags and addresses. -/
def SameTags (recs recs' : Params) : Prop := ∀ j, (recs' j).validTag = (recs j).validTag ∧ (recs' j).addr = (recs j).addr

/-- How the index of an address is found. -/
theorem getSecIndex_cases (recs : Params) (a : Addr) (found : Bool) :
    (Known recs a ∧ ∃ idx, getSecIndex recs a found = (some idx, true)) ∨
      (¬ Known recs a ∧ ∃ idx, idx < maxBonds ∧ (recs idx).validTag ≠ tagValid ∧
        getSecIndex recs a found = (some idx, found)) ∨
      (AllValid recs ∧ getSecIndex recs a found = (none, found)) := by
  by_cases hk : Known recs a
  · obtain ⟨i, hi, hv, ha⟩ := hk
    exact .inl ⟨⟨i, hi, hv, ha⟩, getSecIndex_match found hi hv ha⟩
  · have hnone : ((List.range maxBonds).find? fun i => (recs i).validTag = tagValid ∧ a = (recs i).addr) = none := by
      refine List.find?_eq_none.mpr fun i hi => ?_
      intro h
      obtain ⟨hv, ha⟩ := of_decide_eq_true h
      exact hk ⟨i, List.mem_range.mp hi, hv, ha⟩
    cases hfree : (List.range maxBonds).find? fun i => (recs i).validTag ≠ tagValid with
    | some idx =>
      refine .inr (.inl ⟨hk, idx, List.mem_range.mp (List.mem_of_find?_eq_some hfree), ?_, ?_⟩)
      · simpa using List.find?_some hfree
      · simp only [getSecIndex, hnone, hfree]
    | none =>
      refine .inr (.inr ⟨?_, by simp only [getSecIndex, hnone, hfree]⟩)
      intro i hi
      simpa using List.find?_eq_none.mp hfree i (List.mem_range.mpr hi)

section SameTags

variable {recs recs' : Params}

theorem SameTags.allValid (h : SameTags recs recs') : AllValid recs' ↔ AllValid recs := by
  simp only [AllValid, (h _).1]

theorem SameTags.update {i : Nat} {d : Device} (hv : d.validTag = (recs i).validTag) (ha : d.addr = (recs i).addr) :
    SameTags recs (Function.update recs i d) := by
  intro j
  by_cases hj : j = i
  · subst hj
    rw [Function.update_self]
    exact ⟨hv, ha⟩
  · rw [Function.update_of_ne hj]
    exact ⟨rfl, rfl⟩

end SameTags

/-- A store function: it fails for no index in range, and where the record is valid only the payload and the valid bits
change. -/
def Stores {α : Type} (store : Params → Nat → α → Option Params) : Prop :=
  ∀ recs i x, i < maxBonds → ∃ recs', store recs i x = some recs' ∧
    ((recs i).validTag = tagValid → SameTags recs recs')

theorem storePeerSec_stores : Stores storePeerSec := by
  intro recs i x hi
  by_cases hv : (recs i).validTag = tagValid
  · refine ⟨_, by simp only [storePeerSec, if_pos hi, if_pos hv]; rfl, fun _ => ?_⟩
    exact SameTags.update rfl rfl
  · exact ⟨_, by simp only [storePeerSec, if_pos hi, if_neg hv]; rfl, fun h => absurd h hv⟩

theorem storeCccd_stores : Stores fun recs i (g : CccdNvram) => storeCccd recs i g.addr g.offset g.value := by
  intro recs i g hi
  by_cases hv : (recs i).validTag = tagValid
  · refine ⟨_, by simp only [storeCccd, if_pos hi, if_pos hv]; rfl, fun _ => ?_⟩
    exact SameTags.update rfl rfl
  · exact ⟨_, by simp only [storeCccd, if_pos hi, if_neg hv]; rfl, fun h => absurd h hv⟩

section Accesses

variable {α : Type} {addr : α → Addr} {store : Params → Nat → α → Option Params} {touch : Nat → List Access}
  {copy : Device → Access} {recs recs' : Params} {x : α} {xs : List α} {i : Nat} {found : Bool}

theorem persistAccesses_some {idx : Nat} {found' : Bool} (h : getSecIndex recs (addr x) found = (some idx, found'))
    (hs : store recs (if found' then i else idx) x = some recs') :
    persistAccesses addr store touch copy (x :: xs) i found recs
      = touch i ++ copy (recs (if found' then i else idx))
        :: persistAccesses addr store touch copy xs (i + 1) found' recs' := by
  simp only [persistAccesses, h, hs]

/-- Once `found` is set, every entry goes to the record of its index. -/
theorem settled_cons {as : List Addr} {a : Addr} (hi : i < maxBonds)
    (hsame : (recs i).validTag = tagValid → SameTags recs recs') (hmatch : found = true ∨ Known recs a) :
    Settled recs (a :: as) i found ↔ (recs i).validTag = tagValid ∧ Settled recs' as (i + 1) true := by
  have hhead : found = true ∨ ∃ b, (a :: as).head? = some b ∧ Known recs b :=
    hmatch.imp_right fun h => ⟨a, rfl, h⟩
  constructor
  · rintro (h | h | ⟨-, h⟩)
    · cases h
    · exact ⟨h i hi, .inr (.inl ((hsame (h i hi)).allValid.mpr h))⟩
    · have hv := h i le_rfl (by simp)
      refine ⟨hv, .inr (.inr ⟨.inl rfl, fun k hik hk => ?_⟩)⟩
      rw [(hsame hv k).1]
      exact h k (by omega) (by simp only [List.length_cons]; omega)
  · rintro ⟨hv, h⟩
    have hsame := hsame hv
    rcases h with rfl | h | ⟨-, h⟩
    · refine .inr (.inr ⟨hhead, fun k hik hk => ?_⟩)
      obtain rfl : k = i := by simp only [List.length_singleton] at hk; omega
      exact hv
    · exact .inr (.inl (hsame.allValid.mp h))
    · refine .inr (.inr ⟨hhead, fun k hik hk => ?_⟩)
      rcases Nat.eq_or_lt_of_le hik with rfl | hlt
      · exact hv
      · rw [← (hsame k).1]
        exact h k hlt (by simp only [List.length_cons] at hk; omega)

/-- The accesses of a pass, where the payload always goes into the record. -/
theorem persistAccesses_all (ht : ∀ j, j < maxBonds → ∀ a ∈ touch j, a.Fine)
    (hc : ∀ d, (copy d).Fine) (hlen : i + xs.length ≤ maxBonds) :
    ∀ a ∈ persistAccesses addr store touch copy xs i found recs, a.Fine := by
  induction xs generalizing i found recs with
  | nil => simp [persistAccesses]
  | cons x xs ih =>
    rw [List.length_cons] at hlen
    unfold persistAccesses
    refine List.forall_mem_append.mpr ⟨ht i (by omega), ?_⟩
    split
    · simp
    · split
      · simp
      · exact List.forall_mem_cons.mpr ⟨hc _, ih (by omega)⟩

/-- The accesses of a pass, where the payload goes into the record just when the record was valid. -/
theorem persistAccesses_fine (hs : Stores store) (ht : ∀ j, j < maxBonds → ∀ a ∈ touch j, a.Fine)
    (hc : ∀ d, (copy d).Fine ↔ d.validTag = tagValid) (hlen : i + xs.length ≤ maxBonds) :
    (∀ a ∈ persistAccesses addr store touch copy xs i found recs, a.Fine) ↔ Settled recs (xs.map addr) i found := by
  induction xs generalizing i found recs with
  | nil => simp [persistAccesses, Settled]
  | cons x xs ih =>
    rw [List.length_cons] at hlen
    have hi : i < maxBonds := by omega
    -- an entry that goes to the record of its index
    have hindex : ∀ idx found', getSecIndex recs (addr x) found = (some idx, found') → found' = true →
        (found = true ∨ Known recs (addr x)) →
        ((∀ a ∈ persistAccesses addr store touch copy (x :: xs) i found recs, a.Fine)
          ↔ Settled recs ((x :: xs).map addr) i found) := by
      rintro idx found' hidx rfl hmatch
      obtain ⟨recs', hstore, hsame⟩ := hs recs i x hi
      rw [persistAccesses_some hidx (by rw [if_pos rfl]; exact hstore), List.map_cons, settled_cons hi hsame hmatch,
        ← ih (by omega), if_pos rfl, ← hc]
      simp only [List.forall_mem_append, List.forall_mem_cons]
      exact and_iff_right (ht i hi)
    rcases getSecIndex_cases recs (addr x) found with ⟨hk, idx, hidx⟩ | ⟨hk, idx, hlt, hfree, hidx⟩ | ⟨hall, hidx⟩
    · exact hindex idx true hidx rfl (.inr hk)
    · cases found with
      | true => exact hindex idx true hidx rfl (.inl rfl)
      | false =>
        -- the first free record gets the payload
        obtain ⟨recs', hstore, -⟩ := hs recs idx x hlt
        rw [persistAccesses_some hidx (by rw [if_neg Bool.false_ne_true]; exact hstore)]
        refine iff_of_false (fun h => ?_) ?_
        · rw [List.forall_mem_append, List.forall_mem_cons, if_neg Bool.false_ne_true, hc] at h
          exact hfree h.2.1
        · rintro (h | h | ⟨h | ⟨b, hb, hkb⟩, -⟩)
          · cases h
          · exact hfree (h idx hlt)
          · cases h
          · exact hk (Option.some.inj hb ▸ hkb)
    · refine iff_of_true ?_ (.inr (.inl hall))
      simp only [persistAccesses, hidx, List.append_nil]
      exact ht i hi

end Accesses

/-! ## When the descriptors stay in the arrays -/

theorem entries_fine {n : Nat} : (∀ a ∈ (List.range n).map Access.entry, a.Fine) ↔ n ≤ maxBonds := by
  constructor
  · intro h
    by_contra hn
    have := h (.entry maxBonds) (List.mem_map.mpr ⟨maxBonds, List.mem_range.mpr (by omega), rfl⟩)
    exact Nat.lt_irrefl _ this
  · intro hn a ha
    obtain ⟨j, hj, rfl⟩ := List.mem_map.mp ha
    exact Nat.lt_of_lt_of_le (List.mem_range.mp hj) hn

section Prepared

variable {n : Nat} {pre : List Cccd} {p : Prep} {c : Cccd}

/-- With fewer than `maxBonds` descriptors before it, a descriptor goes to an entry and a value inside the arrays. -/
theorem Prepared.addAccesses_fine (h : Prepared n pre p) (hn : pre.length < n) (hlen : pre.length < maxBonds) :
    ∀ a ∈ p.addAccesses c, a.Fine := by
  have hkeys : (keys Cccd.peerAddr pre).length ≤ pre.length := length_keys_le
  unfold Prep.addAccesses
  cases hfind : (List.range p.preferIndex).find? fun j => c.peerAddr = (p.arr j).addr with
  | some j =>
    have hget := h.find_some hfind
    have hj : j < (keys Cccd.peerAddr pre).length := (List.getElem?_eq_some_iff.mp hget).1
    refine List.forall_mem_append.mpr ⟨entries_fine.mpr (by omega), List.forall_mem_singleton.mpr ?_⟩
    -- a peer has no more descriptors than the table
    show (p.arr j).offset < maxCccds
    rw [(h.entry j _ hget).offset]
    have hgroup : (group Cccd.peerAddr c.peerAddr pre).length ≤ pre.length := length_group_le
    exact Nat.lt_of_le_of_lt hgroup (Nat.lt_succ_of_lt hlen)
  | none =>
    have hp : p.preferIndex ≤ pre.length := h.preferIndex ▸ hkeys
    refine List.forall_mem_append.mpr ⟨entries_fine.mpr (by omega), List.forall_mem_singleton.mpr ?_⟩
    show (p.arr p.preferIndex).offset < maxCccds
    rw [h.clear p.preferIndex (Nat.le_of_eq h.preferIndex.symm) (by omega)]
    exact Nat.succ_pos _

theorem Prepared.add_found (h : Prepared n pre p) :
    (p.add c).found = true ↔ c.peerAddr ∈ keys Cccd.peerAddr pre := by
  unfold Prep.add
  cases hfind : (List.range p.preferIndex).find? fun j => c.peerAddr = (p.arr j).addr with
  | some j => exact iff_of_true rfl (List.mem_of_getElem? (h.find_some hfind))
  | none => exact iff_of_false (by simp) (h.find_none hfind)

theorem Prepared.entries_addr {cccds : List Cccd} (h : Prepared cccds.length cccds p) :
    p.entries.map CccdNvram.addr = keys Cccd.peerAddr cccds := by
  refine List.ext_getElem? fun j => ?_
  rw [List.getElem?_map]
  cases ha : (keys Cccd.peerAddr cccds)[j]? with
  | some a => rw [h.getElem? ha, Option.map_some, (h.entry j a ha).addr]
  | none => rw [h.getElem?_none ha, Option.map_none]

end Prepared

/-- The last descriptor's peer has a descriptor before it in the table. -/
def lastRepeats (cccds : List Cccd) : Bool :=
  match cccds.getLast? with
  | some c => c.peerAddr ∈ keys Cccd.peerAddr cccds.dropLast
  | none => false

theorem prepare_found (cccds : List Cccd) (arr : Nat → CccdNvram) :
    (prepare cccds (resetOffsets cccds.length arr)).found = lastRepeats cccds := by
  induction cccds using List.reverseRecOn with
  | nil => rfl
  | append_singleton pre c =>
    have h := prepare_first (pre ++ [c]).length arr pre (by simp)
    have hadd : prepare (pre ++ [c]) (resetOffsets (pre ++ [c]).length arr)
        = (prepare pre (resetOffsets (pre ++ [c]).length arr)).add c := by
      simp only [prepare, List.foldl_append, List.foldl_cons, List.foldl_nil]
    rw [hadd, Bool.eq_iff_iff, h.add_found]
    simp [lastRepeats]

namespace State

variable {e : Env} {s : State}

theorem ourSecsAccesses_fine (h : s.ourSecs.length ≤ maxBonds) : ∀ a ∈ s.ourSecsAccesses, a.Fine := by
  refine persistAccesses_all (by simp) (fun d => ⟨?_, by decide⟩) (by omega)
  unfold ourSecDest
  split <;> rfl

/-- In a record that was not valid, the peer's key misses the record. -/
theorem peerSecsAccesses_fine (h : s.peerSecs.length ≤ maxBonds) :
    (∀ a ∈ s.peerSecsAccesses, a.Fine) ↔ Settled s.params (s.peerSecs.map Sec.peerAddr) 0 false := by
  refine persistAccesses_fine storePeerSec_stores (by simp) (fun d => ?_) (by omega)
  by_cases hd : d.validTag = tagValid
  · simp [Access.Fine, peerSecDest, hd, peerSecOffset, ourSecOffset, addrOffset, secSize, deviceSize]
  · simp [Access.Fine, peerSecDest, hd]

/-- In a record that was not valid, the descriptors miss the record. -/
theorem storeAccesses_fine (h : s.cccds.length ≤ maxBonds) : (∀ a ∈ s.storeAccesses, a.Fine) ↔
    Settled s.params (keys Cccd.peerAddr s.cccds) 0 (lastRepeats s.cccds) := by
  have hprep := prepare_prepared s.cccds s.nvramArray
  have hlen : (keys Cccd.peerAddr s.cccds).length ≤ s.cccds.length := length_keys_le
  rw [← prepare_found s.cccds s.nvramArray, ← hprep.entries_addr]
  refine persistAccesses_fine storeCccd_stores (fun j hj => List.forall_mem_singleton.mpr hj) (fun d => ?_) ?_
  · by_cases hd : d.validTag = tagValid
    · simp [Access.Fine, cccdDest, hd, cccdOffset, peerSecOffset, ourSecOffset, addrOffset, cccdsSize, maxCccds, deviceSize]
    · simp [Access.Fine, cccdDest, hd]
  · rw [List.length_map, List.length_range, hprep.preferIndex]
    omega

/-- The second loop stays in the arrays. -/
theorem prepareAccesses_fine (h : s.cccds.length ≤ maxBonds) : ∀ a ∈ s.prepareAccesses, a.Fine := by
  intro a ha
  obtain ⟨q, hq, ha⟩ := List.mem_flatMap.mp ha
  obtain ⟨pre, rest, hsplit, hpre⟩ := eq_runs_of_mem_trace hq
  have hlen : pre.length < s.cccds.length := by simp [hsplit]
  have hprep : Prepared s.cccds.length pre q.1 := hpre ▸ prepare_first s.cccds.length s.nvramArray pre (by omega)
  exact hprep.addAccesses_fine hlen (by omega) a ha

theorem cccdsAccesses_fine : (∀ a ∈ s.cccdsAccesses e, a.Fine) ↔
    s.cccds.length ≤ maxBonds ∧ Settled s.params (keys Cccd.peerAddr s.cccds) 0 (lastRepeats s.cccds) := by
  rw [cccdsAccesses, List.forall_mem_append, resetAccesses, entries_fine]
  refine and_congr_right fun hlen => ?_
  rw [if_neg (Nat.not_lt.mpr hlen), List.forall_mem_append, storeAccesses_fine hlen]
  exact and_iff_right (prepareAccesses_fine hlen)

/-- The peer keys and the descriptors go to valid records, and there are no more descriptors than entries of the array. -/
structure Packs (s : State) : Prop where
  peerSecs : Settled s.params (s.peerSecs.map Sec.peerAddr) 0 false
  few : s.cccds.length ≤ maxBonds
  cccds : Settled s.params (keys Cccd.peerAddr s.cccds) 0 (lastRepeats s.cccds)

/-- The passes stay in bounds just in these states. -/
theorem inBounds_iff (h : s.Sized) : s.InBounds e ↔ s.Packs := by
  constructor
  · intro hb
    obtain ⟨hfew, hcccds⟩ := cccdsAccesses_fine.mp hb.cccds
    exact ⟨(peerSecsAccesses_fine h.peerSecs).mp hb.peerSecs, hfew, hcccds⟩
  · intro hp
    exact ⟨ourSecsAccesses_fine h.ourSecs, (peerSecsAccesses_fine h.peerSecs).mpr hp.peerSecs,
      cccdsAccesses_fine.mpr ⟨hp.few, hp.cccds⟩⟩

theorem inBounds_iff_bonded : bonded.InBounds zeroEnv ↔ bonded.Packs :=
  inBounds_iff ⟨by decide, by decide, by decide⟩

/-- The first key of a peer in the table, and no record yet. -/
def firstPeerKey : State := { emptyState with peerSecs := [keyOf 1] }

/-- Six descriptors of a peer with our key. -/
def sixCccds : State :=
  { bonded with cccds := (List.range 6).map fun n => ⟨(keyOf 1).peerAddr, BitVec.ofNat 16 n, 1, false⟩ }

theorem passes_out_of_bounds : ¬ firstPeerKey.InBounds zeroEnv ∧ ¬ sixCccds.InBounds zeroEnv := by
  constructor
  · intro h
    have hcopy := h.peerSecs (.copy peerSecOffset secSize (.absolute peerSecOffset)) (List.mem_singleton.mpr rfl)
    exact absurd hcopy.1 (by decide)
  · intro h
    exact absurd (cccdsAccesses_fine.mp h.cccds).1 (by decide)

end State

end Bond
end Air101
