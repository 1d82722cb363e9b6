import Air101.Bond.Store
import Air101.Storage.Groups

/-!
# Bond.Flush

What `ble_store_config_flush` leaves in the records. A flush first makes every record free, so that every pass begins with
records that are not valid. Our keys then go to the records of their indices in the table; the descriptors of a peer go to
the record with the index of the peer among the descriptors' peers, whichever peer has its key there.

* `persist_laid`: a pass that stores every entry in the record of its index.
* `prepare_prepared`: the array holds the descriptors by peer, the peers in the order of their first appearance.
* `State.flush_flushed`: the records after a flush of tables that are `Flushable`.
-/

namespace Air101
namespace Bond

open Storage

/-! ## A pass over free records -/

theorem getSecIndex_match {recs : Params} {a : Addr} {i : Nat} (found : Bool) (hi : i < maxBonds)
    (hv : (recs i).validTag = tagValid) (ha : a = (recs i).addr) :
    ∃ idx, getSecIndex recs a found = (some idx, true) := by
  unfold getSecIndex
  cases h : (List.range maxBonds).find? fun i => (recs i).validTag = tagValid ∧ a = (recs i).addr with
  | some idx => exact ⟨idx, rfl⟩
  | none =>
    have := List.find?_eq_none.mp h i (List.mem_range.mpr hi)
    simp [hv, ha] at this

/-- When the records below `i` are valid and `i` is free, an entry of the index `i` gets the record `i`: whether its
address is found or not. -/
theorem getSecIndex_free {recs : Params} {i : Nat} (a : Addr) (found : Bool) (hi : i < maxBonds)
    (hv : ∀ j, j < i → (recs j).validTag = tagValid) (hf : (recs i).validTag ≠ tagValid) :
    ∃ idx found', getSecIndex recs a found = (some idx, found') ∧ (if found' then i else idx) = i := by
  unfold getSecIndex
  cases h : (List.range maxBonds).find? fun i => (recs i).validTag = tagValid ∧ a = (recs i).addr with
  | some idx => exact ⟨idx, true, rfl, rfl⟩
  | none =>
    have hfree : ((List.range maxBonds).find? fun i => (recs i).validTag ≠ tagValid) = some i := by
      rw [List.find?_range_eq_some]
      refine ⟨by simpa using hf, List.mem_range.mpr hi, ?_⟩
      intro j hj
      simp [hv j hj]
    exact ⟨i, found, by rw [hfree], by simp⟩

/-- The records after the entries `done` went, in order, to the records from the first on, each by `f`. -/
def Laid {α : Type} (f : Device → α → Device) (base : Params) (done : List α) (recs : Params) : Prop :=
  ∀ j, recs j = match done[j]? with
    | some x => f (base j) x
    | none => base j

section Laid

variable {α : Type} {f : Device → α → Device} {base recs : Params} {done : List α} {x : α}

theorem Laid.of_some {j : Nat} (h : Laid f base done recs) (hx : done[j]? = some x) : recs j = f (base j) x := by
  simpa [hx] using h j

theorem Laid.of_none {j : Nat} (h : Laid f base done recs) (hx : done[j]? = none) : recs j = base j := by
  simpa [hx] using h j

theorem Laid.nil : Laid f base [] base := by
  intro j
  simp

theorem Laid.snoc (h : Laid f base done recs) :
    Laid f base (done ++ [x]) (Function.update recs done.length (f (recs done.length) x)) := by
  intro j
  rcases Nat.lt_trichotomy j done.length with hj | rfl | hj
  · rw [Function.update_of_ne (by omega), List.getElem?_append_left hj]
    exact h j
  · rw [Function.update_self, h.of_none (List.getElem?_eq_none le_rfl)]
    simp
  · rw [Function.update_of_ne (by omega), h.of_none (List.getElem?_eq_none (by omega)),
      List.getElem?_eq_none (by simp; omega)]

variable {addr : α → Addr} {store : Params → Nat → α → Option Params} {all : List α}

/-- The loop of a pass whose every step stores its entry, by `f`, in the record of its index. -/
theorem persistLoop_laid
    (hstep : ∀ done x rest recs found, all = done ++ x :: rest → Laid f base done recs →
      ∃ idx found', getSecIndex recs (addr x) found = (some idx, found') ∧
        store recs (if found' then done.length else idx) x
          = some (Function.update recs done.length (f (recs done.length) x))) :
    ∀ xs done found recs, all = done ++ xs → Laid f base done recs →
      ∃ recs', persistLoop addr store xs done.length found recs = some (recs', 0) ∧ Laid f base all recs' := by
  intro xs
  induction xs with
  | nil =>
    intro done found recs hall h
    rw [hall, List.append_nil]
    exact ⟨recs, rfl, h⟩
  | cons x xs ih =>
    intro done found recs hall h
    obtain ⟨idx, found', hidx, hstore⟩ := hstep done x xs recs found hall h
    obtain ⟨recs', hloop, hlaid⟩ := ih (done ++ [x]) found' _ (by simp [hall]) h.snoc
    refine ⟨recs', ?_, hlaid⟩
    simp only [persistLoop, hidx, hstore]
    simpa using hloop

theorem deleteBits_idle {test keep i : Nat}
    (h : (recs i).validTag = tagValid → (recs i).validBit &&& test = 0) : deleteBits test keep recs i = recs := by
  unfold deleteBits
  rw [if_neg]
  rintro ⟨hv, hb⟩
  exact hb (h hv)

theorem foldl_deleteBits {test keep : Nat} {is : List Nat}
    (h : ∀ i ∈ is, (recs i).validTag = tagValid → (recs i).validBit &&& test = 0) :
    is.foldl (deleteBits test keep) recs = recs := by
  induction is with
  | nil => rfl
  | cons i is ih =>
    rw [List.foldl_cons, deleteBits_idle (h i (by simp))]
    exact ih fun j hj => h j (by simp [hj])

/-- A pass: where the records behind the table have nothing to clear, they stay as they are. -/
theorem persist_laid {test keep : Nat} {found : Bool}
    (hstep : ∀ done x rest recs found, all = done ++ x :: rest → Laid f base done recs →
      ∃ idx found', getSecIndex recs (addr x) found = (some idx, found') ∧
        store recs (if found' then done.length else idx) x
          = some (Function.update recs done.length (f (recs done.length) x)))
    (hidle : ∀ i, all.length ≤ i → i < maxBonds → (base i).validTag = tagValid → (base i).validBit &&& test = 0) :
    ∃ recs, persist addr store (deleteBits test keep) all found base = some (recs, 0) ∧ Laid f base all recs := by
  obtain ⟨recs, hloop, hlaid⟩ := persistLoop_laid hstep all [] found base rfl Laid.nil
  refine ⟨recs, ?_, hlaid⟩
  have hdel : (List.range' all.length (maxBonds - all.length)).foldl (deleteBits test keep) recs = recs := by
    refine foldl_deleteBits fun i hi => ?_
    obtain ⟨hle, hlt⟩ := List.mem_range'_1.mp hi
    rw [hlaid.of_none (List.getElem?_eq_none hle)]
    exact hidle i hle (by omega)
  have hloop' : persistLoop addr store all 0 found base = some (recs, 0) := hloop
  unfold persist
  rw [hloop']
  simp [hdel]

end Laid

/-! ## The descriptors by peer -/

/-- An entry of the array that holds the descriptors `cs` of the peer `a`. -/
structure Entry (g : CccdNvram) (a : Addr) (cs : List Cccd) : Prop where
  addr : g.addr = a
  offset : g.offset = cs.length
  value : ∀ k c, cs[k]? = some c → g.value k = c.value

theorem Entry.push {g : CccdNvram} {a : Addr} {cs : List Cccd} (h : Entry g a cs) (c : Cccd) :
    Entry (g.push c.value) a (cs ++ [c]) := by
  refine ⟨h.addr, by simp [CccdNvram.push, h.offset], ?_⟩
  intro k d hd
  show Function.update g.value g.offset c.value k = d.value
  rw [h.offset]
  rcases Nat.lt_trichotomy k cs.length with hk | rfl | hk
  · rw [Function.update_of_ne (by omega)]
    rw [List.getElem?_append_left hk] at hd
    exact h.value k d hd
  · rw [Function.update_self]
    simp only [List.getElem?_concat_length, Option.some.injEq] at hd
    rw [hd]
  · rw [List.getElem?_eq_none (by simp; omega)] at hd
    cases hd

theorem Entry.cccds {g : CccdNvram} {a : Addr} {cs : List Cccd} (h : Entry g a cs) (ha : ∀ c ∈ cs, c.peerAddr = a) :
    (List.range g.offset).map (fun j => (⟨a, g.value j⟩ : Cccd)) = cs := by
  refine List.ext_getElem? fun k => ?_
  rw [h.offset]
  cases hc : cs[k]? with
  | none => simpa using List.getElem?_eq_none_iff.mp hc
  | some c =>
    have hk : k < cs.length := (List.getElem?_eq_some_iff.mp hc).1
    simp only [List.getElem?_map, List.getElem?_range hk, Option.map_some, h.value k c hc, Option.some.injEq]
    rw [← ha c (List.mem_of_getElem? hc)]

/-- The preparation after the descriptors `pre` of a table of `n`. -/
structure Prepared (n : Nat) (pre : List Cccd) (p : Prep) : Prop where
  preferIndex : p.preferIndex = (keys Cccd.peerAddr pre).length
  entry : ∀ j a, (keys Cccd.peerAddr pre)[j]? = some a → Entry (p.arr j) a (group Cccd.peerAddr a pre)
  clear : ∀ j, (keys Cccd.peerAddr pre).length ≤ j → j < n → (p.arr j).offset = 0

theorem group_of_not_mem {a : Addr} {pre : List Cccd} (h : a ∉ keys Cccd.peerAddr pre) :
    group Cccd.peerAddr a pre = [] := by
  refine List.filter_eq_nil_iff.mpr fun c hc => ?_
  simpa using fun hca : c.peerAddr = a => h (mem_keys.mpr ⟨c, hc, hca⟩)

section Prepared

variable {n : Nat} {pre : List Cccd} {p : Prep} {c : Cccd}

/-- A descriptor of a peer that has the entry `j`. -/
theorem Prepared.join (h : Prepared n pre p) {j : Nat} (hget : (keys Cccd.peerAddr pre)[j]? = some c.peerAddr) :
    Prepared n (pre ++ [c]) ⟨Function.update p.arr j ((p.arr j).push c.value), p.preferIndex, true⟩ := by
  have hj : j < (keys Cccd.peerAddr pre).length := (List.getElem?_eq_some_iff.mp hget).1
  have hkeys : keys Cccd.peerAddr (pre ++ [c]) = keys Cccd.peerAddr pre := by
    rw [keys_snoc, if_pos (List.mem_of_getElem? hget)]
  refine ⟨by rw [hkeys]; exact h.preferIndex, ?_, ?_⟩
  · intro i a hi
    rw [hkeys] at hi
    by_cases hij : i = j
    · subst hij
      rw [hget] at hi
      obtain rfl := Option.some.inj hi
      simp only [Function.update_self, group_snoc, if_pos]
      exact (h.entry i _ hget).push c
    · -- another entry is of another peer: no key is there twice
      have hne : c.peerAddr ≠ a := by
        rintro rfl
        exact hij ((List.getElem?_inj hj keys_nodup).mp (hget.trans hi.symm)).symm
      simp only [Function.update_of_ne hij, group_snoc, if_neg hne, List.append_nil]
      exact h.entry i a hi
  · intro i hi hin
    rw [hkeys] at hi
    simp only [Function.update_of_ne (show i ≠ j by omega)]
    exact h.clear i hi hin

/-- A descriptor of a peer that has no entry yet. -/
theorem Prepared.begin (h : Prepared n pre p) (hn : pre.length < n) (hnew : c.peerAddr ∉ keys Cccd.peerAddr pre) :
    Prepared n (pre ++ [c]) ⟨Function.update p.arr p.preferIndex
      ({ p.arr p.preferIndex with addr := c.peerAddr }.push c.value), p.preferIndex + 1, false⟩ := by
  have hlen : (keys Cccd.peerAddr pre).length < n := lt_of_le_of_lt length_keys_le hn
  have hkeys : keys Cccd.peerAddr (pre ++ [c]) = keys Cccd.peerAddr pre ++ [c.peerAddr] := by
    rw [keys_snoc, if_neg hnew]
  refine ⟨by rw [hkeys]; simp [h.preferIndex], ?_, ?_⟩
  · intro i a hi
    rw [hkeys] at hi
    simp only [h.preferIndex]
    rcases Nat.lt_trichotomy i (keys Cccd.peerAddr pre).length with hlt | rfl | hgt
    · rw [List.getElem?_append_left hlt] at hi
      have hne : c.peerAddr ≠ a := by
        rintro rfl
        exact hnew (List.mem_of_getElem? hi)
      simp only [Function.update_of_ne (Nat.ne_of_lt hlt), group_snoc, if_neg hne, List.append_nil]
      exact h.entry i a hi
    · simp only [List.getElem?_concat_length, Option.some.injEq] at hi
      subst hi
      simp only [Function.update_self, group_snoc, if_pos, group_of_not_mem hnew]
      exact Entry.push ⟨rfl, h.clear _ le_rfl hlen, by simp⟩ c
    · rw [List.getElem?_eq_none (by simp; omega)] at hi
      cases hi
  · intro i hi hin
    rw [hkeys, List.length_append, List.length_singleton] at hi
    simp only [h.preferIndex, Function.update_of_ne (show i ≠ (keys Cccd.peerAddr pre).length by omega)]
    exact h.clear i (by omega) hin

/-- The entry that a descriptor's peer has among those of the descriptors before it. -/
theorem Prepared.find_some (h : Prepared n pre p) {j : Nat}
    (hfind : (List.range p.preferIndex).find? (fun j => c.peerAddr = (p.arr j).addr) = some j) :
    (keys Cccd.peerAddr pre)[j]? = some c.peerAddr := by
  obtain ⟨hja, hj, -⟩ := List.find?_range_eq_some.mp hfind
  rw [List.mem_range, h.preferIndex] at hj
  have hk := List.getElem?_eq_getElem hj
  rw [hk, ← (h.entry j _ hk).addr]
  simpa using (of_decide_eq_true hja).symm

theorem Prepared.find_none (h : Prepared n pre p)
    (hfind : (List.range p.preferIndex).find? (fun j => c.peerAddr = (p.arr j).addr) = none) :
    c.peerAddr ∉ keys Cccd.peerAddr pre := by
  intro hmem
  obtain ⟨j, hj, hja⟩ := List.mem_iff_getElem.mp hmem
  have := List.find?_eq_none.mp hfind j (by rw [List.mem_range, h.preferIndex]; exact hj)
  rw [(h.entry j _ (List.getElem?_eq_getElem hj)).addr, hja] at this
  simp at this

theorem Prepared.add (h : Prepared n pre p) (hn : pre.length < n) : Prepared n (pre ++ [c]) (p.add c) := by
  unfold Prep.add
  cases hfind : (List.range p.preferIndex).find? fun j => c.peerAddr = (p.arr j).addr with
  | some j => exact h.join (h.find_some hfind)
  | none => exact h.begin hn (h.find_none hfind)

end Prepared

/-- The preparation of the first descriptors of a table of `n`. -/
theorem prepare_first (n : Nat) (arr : Nat → CccdNvram) (pre : List Cccd) (hle : pre.length ≤ n) :
    Prepared n pre (prepare pre (resetOffsets n arr)) := by
  induction pre using List.reverseRecOn with
  | nil =>
    refine ⟨rfl, by simp, ?_⟩
    intro j _ hj
    show (resetOffsets n arr j).offset = 0
    simp [resetOffsets, hj]
  | append_singleton pre c ih =>
    simp only [List.length_append, List.length_singleton] at hle
    have := (ih (by omega)).add (c := c) (by omega)
    simpa only [prepare, List.foldl_append, List.foldl_cons, List.foldl_nil] using this

theorem prepare_prepared (cccds : List Cccd) (arr : Nat → CccdNvram) :
    Prepared cccds.length cccds (prepare cccds (resetOffsets cccds.length arr)) :=
  prepare_first cccds.length arr cccds le_rfl

/-! ## A flush -/

/-- A record that was free, with our key. -/
def withOurSec (d : Device) (v : Sec) : Device :=
  { d with validTag := tagValid, validBit := 1, addr := v.peerAddr, ourSec := v }

/-- A valid record, with descriptors. -/
def withCccds (d : Device) (g : CccdNvram) : Device :=
  { d with validBit := g.offset <<< 2 ||| (d.validBit &&& 0x03), cccdInfo := g.value }

theorem persist_ourSecs {base : Params} {secs : List Sec} (hfree : ∀ i, i < maxBonds → (base i).validTag ≠ tagValid)
    (hlen : secs.length ≤ maxBonds) :
    ∃ recs, persist Sec.peerAddr storeOurSec deleteOurSec secs false base = some (recs, 0) ∧
      Laid withOurSec base secs recs := by
  refine persist_laid ?_ fun i _ hi hv => absurd hv (hfree i hi)
  intro done v rest recs found hall h
  have hi : done.length < maxBonds := by
    rw [hall, List.length_append, List.length_cons] at hlen
    omega
  have hnone : recs done.length = base done.length := h.of_none (List.getElem?_eq_none le_rfl)
  have hf : (recs done.length).validTag ≠ tagValid := hnone ▸ hfree _ hi
  have hv : ∀ j, j < done.length → (recs j).validTag = tagValid := by
    intro j hj
    rw [h.of_some (List.getElem?_eq_getElem hj)]
    rfl
  obtain ⟨idx, found', hidx, hto⟩ := getSecIndex_free v.peerAddr found hi hv hf
  refine ⟨idx, found', hidx, ?_⟩
  rw [hto]
  simp only [storeOurSec, if_pos hi, if_neg hf]
  rfl

theorem persist_cccds (base : Params) (gs : List CccdNvram) (found : Bool)
    (hrec : ∀ j g, gs[j]? = some g → j < maxBonds ∧ (base j).validTag = tagValid ∧ (base j).addr = g.addr)
    (hidle : ∀ i, gs.length ≤ i → i < maxBonds → (base i).validTag = tagValid → (base i).validBit &&& 0xFFFFFFFC = 0) :
    ∃ recs, persist CccdNvram.addr (fun recs idx g => storeCccd recs idx g.addr g.offset g.value) deleteCccd gs found base
        = some (recs, 0) ∧ Laid withCccds base gs recs := by
  refine persist_laid ?_ hidle
  intro done g rest recs found hall h
  have hg : gs[done.length]? = some g := by simp [hall]
  obtain ⟨hi, hv, ha⟩ := hrec _ g hg
  have hnone : recs done.length = base done.length := h.of_none (List.getElem?_eq_none le_rfl)
  rw [← hnone] at hv ha
  obtain ⟨idx, hidx⟩ := getSecIndex_match found hi hv ha.symm
  refine ⟨idx, true, hidx, ?_⟩
  show storeCccd recs done.length g.addr g.offset g.value = _
  simp only [storeCccd, if_pos hi, if_pos hv]
  rfl

/-- The tables that a flush brings over a restart: no key of a peer, and the descriptors' peers, in the order in which
they first appear in the table, are the first peers of our keys. -/
structure Flushable (s : State) : Prop where
  noPeerSec : s.peerSecs = []
  aligned : keys Cccd.peerAddr s.cccds <+: s.ourSecs.map Sec.peerAddr

/-- What a flush leaves in the records. -/
structure Flushed (s : State) (recs : Params) : Prop where
  free : ∀ j, s.ourSecs[j]? = none → j < maxBonds → (recs j).validTag ≠ tagValid
  alone : ∀ j v, s.ourSecs[j]? = some v → (keys Cccd.peerAddr s.cccds)[j]? = none →
    ∃ d, recs j = withOurSec d v
  both : ∀ j v a, s.ourSecs[j]? = some v → (keys Cccd.peerAddr s.cccds)[j]? = some a →
    v.peerAddr = a ∧ ∃ d g, Entry g a (group Cccd.peerAddr a s.cccds) ∧ recs j = withCccds (withOurSec d v) g

theorem Flushable.ourSec {s : State} (h : Flushable s) {j : Nat} {a : Addr}
    (ha : (keys Cccd.peerAddr s.cccds)[j]? = some a) : ∃ v, s.ourSecs[j]? = some v ∧ v.peerAddr = a := by
  obtain ⟨t, ht⟩ := h.aligned
  have hmap : (s.ourSecs.map Sec.peerAddr)[j]? = some a := by
    rw [← ht, List.getElem?_append_left (List.getElem?_eq_some_iff.mp ha).1]
    exact ha
  rw [List.getElem?_map, Option.map_eq_some_iff] at hmap
  exact hmap

namespace State

theorem persistPeerSecs_nil {s : State} (hs : s.peerSecs = [])
    (hfree : ∀ i, i < maxBonds → (s.params i).validTag ≠ tagValid) : s.persistPeerSecs = some (s, 0) := by
  have hdel : (List.range' 0 maxBonds).foldl deletePeerSec s.params = s.params := by
    refine foldl_deleteBits fun i hi hv => ?_
    exact absurd hv (hfree i (by simpa using hi))
  obtain ⟨ours, peers, cccds, arr, params⟩ := s
  obtain rfl : peers = [] := hs
  simp only [persistPeerSecs, persist, persistLoop, List.length_nil, Nat.sub_zero, if_pos]
  rw [show List.foldl deletePeerSec params (List.range' 0 maxBonds) = params from hdel]

theorem persistOurSecs_eq {s : State} {recs : Params}
    (h : persist Sec.peerAddr storeOurSec deleteOurSec s.ourSecs false s.params = some (recs, 0)) :
    s.persistOurSecs = some ({ s with params := recs }, 0) := by
  simp only [persistOurSecs, h]

theorem persistCccds_eq (e : Env) {s : State} {recs : Params} {rc : Int} {p : Prep} (hc : s.cccds.length ≤ maxBonds)
    (hp : prepare s.cccds (resetOffsets s.cccds.length s.nvramArray) = p)
    (h : persist CccdNvram.addr (fun recs idx g => storeCccd recs idx g.addr g.offset g.value) deleteCccd
      ((List.range p.preferIndex).map p.arr) p.found s.params = some (recs, rc)) :
    s.persistCccds e = some ({ s with nvramArray := p.arr, params := recs }, rc) := by
  simp only [persistCccds, if_neg (Nat.not_lt.mpr hc), hp, h]

end State

section Flushed

variable {s : State} {base recs₁ recs₂ : Params} {p : Prep}

/-- The array's entries after the preparation, as a list by peer. -/
def Prep.entries (p : Prep) : List CccdNvram := (List.range p.preferIndex).map p.arr

theorem Prepared.getElem? {cccds : List Cccd} (h : Prepared cccds.length cccds p) {j : Nat} {a : Addr}
    (ha : (keys Cccd.peerAddr cccds)[j]? = some a) : p.entries[j]? = some (p.arr j) := by
  have hj : j < (keys Cccd.peerAddr cccds).length := (List.getElem?_eq_some_iff.mp ha).1
  rw [Prep.entries, List.getElem?_map, List.getElem?_range (by rw [h.preferIndex]; exact hj)]
  rfl

theorem Prepared.of_getElem? {cccds : List Cccd} (h : Prepared cccds.length cccds p) {j : Nat} {g : CccdNvram}
    (hg : p.entries[j]? = some g) :
    ∃ a, (keys Cccd.peerAddr cccds)[j]? = some a ∧ Entry g a (group Cccd.peerAddr a cccds) := by
  rw [Prep.entries, List.getElem?_map, Option.map_eq_some_iff] at hg
  obtain ⟨i, hi, rfl⟩ := hg
  obtain ⟨hj, rfl⟩ := List.getElem?_eq_some_iff.mp hi
  rw [List.length_range, h.preferIndex] at hj
  rw [List.getElem_range]
  exact ⟨_, List.getElem?_eq_getElem hj, h.entry j _ (List.getElem?_eq_getElem hj)⟩

theorem Prepared.getElem?_none {cccds : List Cccd} (h : Prepared cccds.length cccds p) {j : Nat}
    (hj : (keys Cccd.peerAddr cccds)[j]? = none) : p.entries[j]? = none := by
  cases hg : p.entries[j]? with
  | none => rfl
  | some g =>
    obtain ⟨a, ha, -⟩ := h.of_getElem? hg
    rw [hj] at ha
    cases ha

theorem Flushable.keys_none (h : Flushable s) {j : Nat} (hj : s.ourSecs[j]? = none) :
    (keys Cccd.peerAddr s.cccds)[j]? = none := by
  cases ha : (keys Cccd.peerAddr s.cccds)[j]? with
  | none => rfl
  | some a =>
    obtain ⟨v, hv, -⟩ := h.ourSec ha
    rw [hj] at hv
    cases hv

/-- Our keys went to the records of their indices, and the descriptors to the records of their groups. -/
theorem flushed_of_laid (h : Flushable s) (hfree : ∀ i, i < maxBonds → (base i).validTag ≠ tagValid)
    (hp : Prepared s.cccds.length s.cccds p) (hlaid₁ : Laid withOurSec base s.ourSecs recs₁)
    (hlaid₂ : Laid withCccds recs₁ p.entries recs₂) : Flushed s recs₂ := by
  refine ⟨?_, ?_, ?_⟩
  · intro j hj hjm
    rw [hlaid₂.of_none (hp.getElem?_none (h.keys_none hj)), hlaid₁.of_none hj]
    exact hfree j hjm
  · intro j v hv ha
    rw [hlaid₂.of_none (hp.getElem?_none ha), hlaid₁.of_some hv]
    exact ⟨base j, rfl⟩
  · intro j v a hv ha
    obtain ⟨v', hv', rfl⟩ := h.ourSec ha
    obtain rfl : v = v' := Option.some.inj (hv.symm.trans hv')
    refine ⟨rfl, base j, p.arr j, hp.entry j _ ha, ?_⟩
    rw [hlaid₂.of_some (hp.getElem? ha), hlaid₁.of_some hv]

/-- The pass over the descriptors finds the peer of every group in the record of the group's index. -/
theorem persist_entries (h : Flushable s) (hfree : ∀ i, i < maxBonds → (base i).validTag ≠ tagValid)
    (ho : s.ourSecs.length ≤ maxBonds) (hp : Prepared s.cccds.length s.cccds p)
    (hlaid₁ : Laid withOurSec base s.ourSecs recs₁) :
    ∃ recs, persist CccdNvram.addr (fun recs idx g => storeCccd recs idx g.addr g.offset g.value) deleteCccd p.entries
        p.found recs₁ = some (recs, 0) ∧ Laid withCccds recs₁ p.entries recs := by
  refine persist_cccds recs₁ p.entries p.found ?_ ?_
  · intro j g hg
    obtain ⟨a, ha, hentry⟩ := hp.of_getElem? hg
    obtain ⟨v, hv, hva⟩ := h.ourSec ha
    have hj : j < s.ourSecs.length := (List.getElem?_eq_some_iff.mp hv).1
    rw [hlaid₁.of_some hv]
    exact ⟨by omega, rfl, hva.trans hentry.addr.symm⟩
  · intro i _ hi hv
    cases hs : s.ourSecs[i]? with
    | none =>
      rw [hlaid₁.of_none hs] at hv
      exact absurd hv (hfree i hi)
    | some v =>
      rw [hlaid₁.of_some hs]
      show 1 &&& 0xFFFFFFFC = 0
      decide

end Flushed

theorem State.flush_flushed (e : Env) {s : State} (ho : s.ourSecs.length ≤ maxBonds)
    (hc : s.cccds.length ≤ maxBonds) (h : Flushable s) :
    ∃ s', s.flush e = some (s', 0) ∧ Flushed s s'.params := by
  have hfree : ∀ i, i < maxBonds → ((s.deleteAll e).params i).validTag ≠ tagValid := by
    intro i hi
    simp only [State.deleteAll, if_pos hi]
    decide
  have hpeer : (s.deleteAll e).persistPeerSecs = some (s.deleteAll e, 0) :=
    State.persistPeerSecs_nil h.noPeerSec hfree
  obtain ⟨recs₁, hour, hlaid₁⟩ := persist_ourSecs hfree ho
  have hour' : (s.deleteAll e).persistOurSecs = some ({ s.deleteAll e with params := recs₁ }, 0) :=
    State.persistOurSecs_eq hour
  have hp := prepare_prepared s.cccds s.nvramArray
  obtain ⟨recs₂, hentries, hlaid₂⟩ := persist_entries h hfree ho hp hlaid₁
  have hcccds : ({ s.deleteAll e with params := recs₁ } : State).persistCccds e = some ({ s.deleteAll e with
      nvramArray := (prepare s.cccds (resetOffsets s.cccds.length s.nvramArray)).arr
      params := recs₂ }, 0) := State.persistCccds_eq e hc rfl hentries
  have hflush : s.flush e = some ({ s.deleteAll e with
      nvramArray := (prepare s.cccds (resetOffsets s.cccds.length s.nvramArray)).arr
      params := recs₂ }, 0) := by
    simp only [State.flush, State.andThen, hpeer, if_pos, hour', hcccds]
  exact ⟨_, hflush, flushed_of_laid h hfree hp hlaid₁ hlaid₂⟩

end Bond
end Air101
