import Air101.Fls.Range
import Air101.Fwup.Update
import Air101.Storage.Runs

/-!
# Fwup.Stream

The stream of an image through the requests of an update session.

The bytes received so far are collected in `booter` up to the header's end (`Collecting`) and then
carried by the driver's write-back cache (`Programming`).

* `request_more`: a request in front of the image's end.
* `request_last`: the request that brings the last byte of the image.
* `finish_spec`: what the flash and the flag are then.
-/

namespace Air101
namespace Fwup

open Storage
open Crypto
open Fls
open Fota (Header.signature Header.imgLen Header.orgChecksum Header.imgLen_lt)

/-- A chip that the upgrade area and the run-time image of the flash map fit on. -/
structure MapChip extends Chip where
  room : 0x100000 ≤ density

/-- The chip below its last sector, the one with the OTA flag. -/
def MapChip.below (c : MapChip) : Chip :=
  { density := c.density - 0x1000
    aligned := by
      have := c.aligned
      omega
    density_le := by
      have := c.density_le
      omega }

theorem MapChip.below_density (c : MapChip) : c.below.density = c.density - 0x1000 := rfl

/-! ## Where an accepted image goes -/

/-- The image of an accepted header whose sums do not wrap, as far as the addresses go. -/
structure Placed (h : List Byte) : Prop where
  base_ge : 0x8010000 ≤ programBaseOf h
  end_lt : programBaseOf h + Header.imgLen h < 0x80D0000

theorem Accepted.placed {t : Target} {h : List Byte} (hacc : Accepted t h)
    (hwrap : programBaseOf h + Header.imgLen h < 2 ^ 32) : Placed h := by
  have hend := hacc.base_end
  rw [Nat.mod_eq_of_lt hwrap] at hend
  exact ⟨hacc.base_ge, hend⟩

theorem signatureLen_le (h : List Byte) : signatureLen h ≤ 128 := by
  unfold signatureLen
  split <;> omega

section Place

variable {h : List Byte} (hp : Placed h)

include hp

theorem Placed.base_lt : programBaseOf h < 0x80D0000 := by
  have := hp.end_lt
  omega

theorem Placed.offset : programBaseOf h % 2 ^ 27 = programBaseOf h - 0x8000000 := by
  have := hp.base_ge
  have := hp.base_lt
  lia

theorem Placed.imageBytes_le : programBaseOf h + imageBytes h ≤ 0x80D00BF := by
  have := hp.end_lt
  have := signatureLen_le h
  unfold imageBytes
  omega

end Place

/-! ## What the requests have brought so far -/

/-- The flash driver at the start of a session: there is a cache, and the sector left over in
`gsSector` lies below the flag. -/
structure Ready (c : MapChip) (s : Fast) : Prop where
  installed : s.dev.insideFls = some c.density
  cache : ∃ cache, s.gsflscache = some cache ∧ cache.length = 4096
  sector : s.gsSector ≠ 0 → s.gsSector < c.density / 4096 + 0x8000 →
    s.gsSector * 4096 % 0x8000000 + 4096 ≤ c.density - 0x1000

/-- Less than a header has come in. -/
structure Collecting (s : Fast) (bs : List Byte) (f : State) : Prop where
  fast : f.fast = s
  state : f.currentState = .zero
  received : f.receivedLen = bs.length
  short : bs.length < 64
  updated : f.updatedLen = 0
  booter_len : f.booter.length = 64
  booter : f.booter.take bs.length = bs

/-- The header `h` has been accepted and `bs` has been handed to the driver. -/
structure Programming (c : MapChip) (s : Fast) (h bs : List Byte) (f : State) : Prop where
  state : f.currentState = .zero
  header : f.booter = h
  base : f.programBase = programBaseOf h
  offset : f.programOffset = bs.length
  updated : f.updatedLen = bs.length
  total : f.totalLen = imageBytes h
  carries : ∃ m, f.fast.Carries c.density (programBaseOf h) m bs
  within : s.dev.Within (c.density - 0x1000) f.fast.dev

section Steps

variable (c : MapChip) {s : Fast} {h bs data : List Byte} {f : State}

theorem program_header (hs : Ready c s) (hp : Placed h) (hlen : h.length = 64) (hfast : f.fast = s)
    (hbase : f.programBase = programBaseOf h) (hoff : f.programOffset = 0) :
    ∃ s', f.program h = some (.ok, { f with fast := s' }) ∧
      (∃ m, s'.Carries c.density (programBaseOf h) m h) ∧
      s.dev.Within (c.density - 0x1000) s'.dev := by
  obtain ⟨cache, hc, hcl⟩ := hs.cache
  have hroom := c.room
  have hlt := hp.base_lt
  have hoffset := hp.offset
  have hne : h ≠ [] := by
    intro h0
    rw [h0] at hlen
    simp at hlen
  obtain ⟨s', hcall, hcarries⟩ := fastWrite_first c.toChip (a := programBaseOf h) hs.installed hc hcl
    (by omega) hne (by omega)
  have hwithin := fastWrite_within c.below (s := s) hs.installed
    (fun cache' hc' => by rw [hc] at hc'; cases hc'; exact hcl)
    (by rw [c.below_density]; lia) (fun h0 _ hlim => hs.sector h0 hlim) hcall
  refine ⟨s', ?_, ⟨_, hcarries⟩, hwithin⟩
  unfold State.program
  rw [hfast, hbase, hoff, Nat.add_zero, Nat.mod_eq_of_lt (by omega), hcall]

theorem program_body (h' : Programming c s h bs f) (hp : Placed h) (hne : data ≠ [])
    (hend : programBaseOf h + (bs.length + data.length) < otaFlagAddr c.density) :
    ∃ s', f.program data = some (.ok, { f with fast := s' }) ∧
      (∃ m, s'.Carries c.density (programBaseOf h) m (bs ++ data)) ∧
      s.dev.Within (c.density - 0x1000) s'.dev := by
  obtain ⟨m, hcarries⟩ := h'.carries
  have hroom := c.room
  have hle := c.density_le
  have hlt := hp.base_lt
  have hge := hp.base_ge
  have hoffset := hp.offset
  unfold otaFlagAddr at hend
  obtain ⟨s', hcall, hcarries'⟩ := fastWrite_next c.toChip hcarries (by omega) hne (by omega)
  obtain ⟨cache, hc, hst⟩ := hcarries
  have hcl : cache.length = 4096 := hst.cache
  have hsector : f.fast.gsSector = (programBaseOf h + bs.length) / 4096 := hst.sector
  have hwithin := fastWrite_within c.below (s := f.fast) hst.installed
    (fun cache' hc' => by rw [hc] at hc'; cases hc'; exact hcl)
    (by rw [c.below_density]; lia) (fun _ hn _ => absurd hsector hn) hcall
  refine ⟨s', ?_, ⟨m, hcarries'⟩, h'.within.trans hwithin⟩
  unfold State.program
  rw [h'.base, h'.offset, Nat.mod_eq_of_lt (by omega), hcall]

end Steps

/-! ## One request -/

section Request

variable (c : MapChip) (hw : Engine) (t : Target) (junk : List Byte) (heap : Bool)
variable {s : Fast} {h bs data : List Byte} {f : State}

theorem Collecting.patch (hc : Collecting s bs f) (data : List Byte) (len : Nat)
    (hlen : len ≤ data.length)
    (hfit : bs.length + len ≤ 64) :
    (patch f.booter bs.length (data.take len)).length = 64 ∧
      (patch f.booter bs.length (data.take len)).take (bs.length + len) = bs ++ data.take len := by
  have htake : (data.take len).length = len := by rw [List.length_take]; omega
  constructor
  · rw [patch_length (by rw [htake, hc.booter_len]; exact hfit), hc.booter_len]
  · unfold Storage.patch
    rw [hc.booter, List.take_left' (by rw [List.length_append, htake])]

theorem takeHeader_collect (hc : Collecting s bs f) (hshort : bs.length + data.length < 64) :
    ∃ f', f.takeHeader hw t junk data = some (f', some []) ∧ Collecting s (bs ++ data) f' := by
  have hmin : min data.length (64 - bs.length) = data.length := by omega
  obtain ⟨hpl, hpt⟩ := hc.patch data data.length (Nat.le_refl _) (by omega)
  rw [List.take_length] at hpl hpt
  unfold State.takeHeader
  rw [if_pos (by rw [hc.received]; exact hc.short)]
  simp only [hmin, hc.received, List.take_length, List.drop_length]
  rw [if_neg (by omega)]
  refine ⟨_, rfl, hc.fast, hc.state, ?_, ?_, hc.updated, hpl, ?_⟩
  · simp only [State.received, List.length_nil, Nat.add_zero, List.length_append]
    omega
  · rw [List.length_append]
    exact hshort
  · rw [List.length_append]
    exact hpt

theorem Collecting.booter_full (hc : Collecting s bs f) (hfull : 64 ≤ bs.length + data.length) :
    Storage.patch f.booter bs.length (data.take (64 - bs.length)) = (bs ++ data).take 64 := by
  have := hc.short
  obtain ⟨hpl, hpt⟩ := hc.patch data (64 - bs.length) (by omega) (by omega)
  rw [show bs.length + (64 - bs.length) = 64 by omega, List.take_of_length_le (by omega)] at hpt
  rw [hpt, List.take_append, List.take_of_length_le (l := bs) (by omega)]

theorem takeHeader_refused (hc : Collecting s bs f) (hfull : 64 ≤ bs.length + data.length)
    (hno : tlsFwupImgHeaderCheck hw t s.dev junk ((bs ++ data).take 64) = false) :
    ∃ f', f.takeHeader hw t junk data = some (f', none) ∧ f'.fast = s ∧ f'.booter.length = 64 := by
  have hmin : min data.length (64 - bs.length) = 64 - bs.length := by omega
  have := hc.short
  unfold State.takeHeader
  rw [if_pos (by rw [hc.received]; exact hc.short)]
  simp only [hmin, hc.received, hc.booter_full hfull, hc.fast, hno]
  rw [if_pos (by omega)]
  refine ⟨_, rfl, rfl, ?_⟩
  rw [List.length_take, List.length_append]
  omega

theorem takeHeader_accepted (hs : Ready c s) (hc : Collecting s bs f)
    (hfull : 64 ≤ bs.length + data.length)
    (hok : tlsFwupImgHeaderCheck hw t s.dev junk ((bs ++ data).take 64) = true)
    (hp : Placed ((bs ++ data).take 64)) :
    ∃ f', f.takeHeader hw t junk data = some (f', some ((bs ++ data).drop 64)) ∧
      Programming c s ((bs ++ data).take 64) ((bs ++ data).take 64) f' ∧
      f'.receivedLen = (bs.length + data.length) % 2 ^ 32 := by
  have hmin : min data.length (64 - bs.length) = 64 - bs.length := by omega
  have hshort := hc.short
  have hrest : data.drop (64 - bs.length) = (bs ++ data).drop 64 := by
    rw [List.drop_append, List.drop_of_length_le (l := bs) (by omega), List.nil_append]
  have hlen : ((bs ++ data).take 64).length = 64 := by
    rw [List.length_take, List.length_append]
    omega
  have hbytes := hp.imageBytes_le
  have htotal : (Header.imgLen ((bs ++ data).take 64) + 64 +
      signatureLen ((bs ++ data).take 64)) % 2 ^ 32 = imageBytes ((bs ++ data).take 64) := by
    unfold imageBytes at hbytes ⊢
    omega
  unfold State.takeHeader
  rw [if_pos (by rw [hc.received]; exact hshort)]
  simp only [hmin, hc.received, hc.booter_full hfull, hc.fast, hok, hrest, htotal]
  rw [if_pos (by omega), if_pos trivial]
  obtain ⟨s', hprog, hcarries, hwithin⟩ := program_header c hs hp hlen
    (f := { f with
      fast := s
      booter := (bs ++ data).take 64
      receivedLen := bs.length + (64 - bs.length)
      programBase := programBaseOf ((bs ++ data).take 64)
      programOffset := 0
      totalLen := imageBytes ((bs ++ data).take 64) }) rfl rfl rfl
  simp only [hprog]
  refine ⟨_, rfl, ⟨hc.state, rfl, rfl, hlen.symm, hlen.symm, rfl, hcarries, hwithin⟩, ?_⟩
  have hdrop : ((bs ++ data).drop 64).length = bs.length + data.length - 64 := by
    rw [List.length_drop, List.length_append]
  simp only [State.received, hdrop]
  congr 1
  omega

theorem body_more (data : List Byte) (h' : Programming c s h bs f) (hp : Placed h)
    (hless : bs.length + data.length < imageBytes h) :
    ∃ f', f.body hw heap data = some (f', .success) ∧ Programming c s h (bs ++ data) f' ∧
      f'.receivedLen = f.receivedLen := by
  have hbytes := hp.imageBytes_le
  have hroom := c.room
  unfold State.body
  split
  · rename_i hnil
    rw [hnil, List.append_nil]
    exact ⟨f, rfl, h', rfl⟩
  · rename_i hne
    obtain ⟨s', hprog, hcarries, hwithin⟩ := program_body c h' hp hne (by unfold otaFlagAddr; omega)
    have hsum : (bs.length + data.length) % 2 ^ 32 = (bs ++ data).length := by
      rw [List.length_append]
      omega
    rw [hprog]
    simp only [h'.offset, h'.updated, h'.total, hsum]
    rw [if_neg (by rw [List.length_append]; omega)]
    exact ⟨_, rfl, ⟨h'.state, h'.header, h'.base, rfl, rfl, rfl, hcarries, hwithin⟩, rfl⟩

theorem body_last (h' : Programming c s h bs f) (hp : Placed h) (hne : data ≠ [])
    (hmore : imageBytes h ≤ bs.length + data.length)
    (hend : programBaseOf h + (bs.length + data.length) < otaFlagAddr c.density) :
    ∃ f', f.body hw heap data = some (f'.finish hw heap) ∧ Programming c s h (bs ++ data) f' := by
  obtain ⟨s', hprog, hcarries, hwithin⟩ := program_body c h' hp hne hend
  have hle := c.density_le
  have hsum : (bs.length + data.length) % 2 ^ 32 = (bs ++ data).length := by
    unfold otaFlagAddr at hend
    rw [List.length_append]
    omega
  unfold State.body
  rw [if_neg hne, hprog]
  simp only [h'.offset, h'.updated, h'.total, hsum]
  rw [if_pos (by rw [List.length_append]; exact hmore)]
  exact ⟨_, rfl, h'.state, h'.header, h'.base, rfl, rfl, rfl, hcarries, hwithin⟩

end Request

/-! ## The end of the image -/

/-- The sector of the OTA flag has been erased or programmed on the way from `d` to `d'`. -/
def FlagTouched (c : MapChip) (d d' : Dev) : Prop :=
  ∃ es, d'.log = d.log ++ es ∧ ∃ e ∈ es, ∃ o ∈ e.ops, ∃ x, c.density - 0x1000 ≤ x ∧ o.Touches x

section Finish

variable (c : MapChip) {hw : Engine} {s : Fast} {h bs : List Byte} {f : State}

theorem not_flagTouched {d d' : Dev} (h : d.Within (c.density - 0x1000) d') : ¬ FlagTouched c d d' := by
  rintro ⟨es, hlog, e, he, o, ho, x, hx, htouch⟩
  obtain ⟨es', hlog', _, hin⟩ := h
  obtain rfl : es = es' := List.append_cancel_left (hlog.symm.trans hlog')
  have hne : e.ops ≠ [] := List.ne_nil_of_mem ho
  have := (hin e he hne).2 o ho x htouch
  omega

/-- The flag is written: its sector is touched, holds the value, and everything below is unchanged. -/
theorem flag_write {d0 d : Dev} (hw : d0.Within (c.density - 0x1000) d)
    (hd : d.insideFls = some c.density) (v : Nat) :
    FlagTouched c d0 (tlsFlsWrite d (otaFlagAddr c.density) (leBytes 4 v)).2 ∧
      slice (tlsFlsWrite d (otaFlagAddr c.density) (leBytes 4 v)).2.mem (c.density - 0x1000) 4 =
        leBytes 4 v ∧
      ∀ x, x < c.density - 0x1000 →
        (tlsFlsWrite d (otaFlagAddr c.density) (leBytes 4 v)).2.mem x = d.mem x := by
  have hroom := c.room
  have hle := c.density_le
  have haddr : otaFlagAddr c.density % 0x8000000 = c.density - 0x1000 := by
    unfold otaFlagAddr
    lia
  have hne : leBytes 4 v ≠ [] := List.cons_ne_nil _ _
  have hmem : (tlsFlsWrite d (otaFlagAddr c.density) (leBytes 4 v)).2.mem =
      overlay d.mem (otaFlagAddr c.density % 0x8000000) (leBytes 4 v) :=
    (tlsFlsWrite_ok hd (by rw [haddr]; omega) hne (by rw [haddr, leBytes_length]; omega)).2
  rw [haddr] at hmem
  refine ⟨?_, ?_, ?_⟩
  · obtain ⟨es, hlog, _, _⟩ := hw
    have hcall : (tlsFlsWrite d (otaFlagAddr c.density) (leBytes 4 v)).2 = d.issue (.write
        (otaFlagAddr c.density) (leBytes 4 v) (writeSectors (leBytes 4 v).length d.mem
          ((c.density - 0x1000) / 4096) ((c.density - 0x1000) % 4096) (leBytes 4 v))) := by
      unfold tlsFlsWrite
      rw [rangeCheck_ok hd (by rw [haddr]; omega) (by rw [leBytes_length]; decide), haddr]
    unfold FlagTouched
    rw [hcall, Dev.issue_log, hlog, List.append_assoc]
    refine ⟨_, rfl, _, List.mem_append_right _ List.mem_cons_self, ?_⟩
    have hal := c.aligned
    rw [Ev.ops, writeSectors_one d.mem (by rw [leBytes_length]; decide) (by rw [leBytes_length]; omega)]
    refine ⟨_, List.mem_cons_self, c.density - 0x1000, Nat.le_refl _, ?_⟩
    simp only [eraseSector, Op.Touches]
    rw [chipAddr_of_lt (by omega)]
    omega
  · rw [hmem]
    have := slice_overlay d.mem (c.density - 0x1000) (leBytes 4 v)
    rw [leBytes_length] at this
    exact this
  · intro x hx
    rw [hmem, overlay_out (.inl hx)]

/-- The loop is a sequence of updates with at most 1 KB each. -/
theorem verifyLoop_chunks {d : Dev} (base : Nat) (hd : d.insideFls = some c.density) :
    ∀ (fuel offset left : Nat), left ≤ fuel → base % 2 ^ 27 + offset + left ≤ c.density →
      ∃ cs, Chunks cs ∧ cs.flatten = slice d.mem (base % 2 ^ 27 + offset) left ∧
        ∀ ctx, State.verifyLoop hw d base fuel offset left ctx = some (updates hw ctx cs) := by
  have hle := c.density_le
  intro fuel
  induction fuel with
  | zero =>
    intro offset left hf _
    rw [Nat.le_zero.mp hf]
    exact ⟨[], chunks_nil, rfl, fun _ => rfl⟩
  | succ fuel ih =>
    intro offset left hf hend
    unfold State.verifyLoop
    by_cases h0 : left = 0
    · rw [h0]
      exact ⟨[], chunks_nil, rfl, fun _ => rfl⟩
    · generalize hl : min left 1024 = len
      have haddr : (base + offset) % 2 ^ 32 % 0x8000000 = base % 2 ^ 27 + offset := by lia
      have hchip : chipAddr ((base + offset) % 2 ^ 32) = base % 2 ^ 27 + offset := by
        unfold chipAddr
        lia
      have hread : tlsFlsRead d true ((base + offset) % 2 ^ 32) len =
          (.ok, slice d.mem (base % 2 ^ 27 + offset) len) := by
        unfold tlsFlsRead
        rw [rangeCheck_ok hd (by rw [haddr]; omega) (by omega)]
        simp only []
        rw [flashRead_eq _ _ _ _ (by rw [hchip]; omega), hchip]
      obtain ⟨cs, hcs, hflat, heq⟩ := ih (offset + len) (left - len) (by omega) (by omega)
      have hlen := slice_length d.mem (base % 2 ^ 27 + offset) len
      have hne : slice d.mem (base % 2 ^ 27 + offset) len ≠ [] := by
        intro hnil
        rw [hnil] at hlen
        simp at hlen
        omega
      refine ⟨_, chunks_cons hne (by omega) hcs, ?_, ?_⟩
      · rw [List.flatten_cons, hflat, ← Nat.add_assoc, ← slice_append,
          show len + (left - len) = left by omega]
      · intro ctx
        simp only [if_neg h0, hread, heq]
        rfl

theorem verifyLoop_eq (hr : Reflected hw) {d : Dev} (base : Nat) (hd : d.insideFls = some c.density)
    {fuel left : Nat} (offset : Nat) (crc : BitVec 32) (hf : left ≤ fuel)
    (hend : base % 2 ^ 27 + offset + left ≤ c.density) :
    State.verifyLoop hw d base fuel offset left (crcContext crc) =
      some (crcContext (Crc32.update crc (slice d.mem (base % 2 ^ 27 + offset) left))) := by
  obtain ⟨cs, hcs, hflat, heq⟩ := verifyLoop_chunks c base hd fuel offset left hf hend
  rw [heq, updates_reflected hr hcs, hflat]

/-- What the completed image leaves: its bytes are in the flash, and the CRC-32 of the body in the flash
decides about the flag and about `COMPLETE`. -/
structure Finished (c : MapChip) (d : Dev) (h bs : List Byte) (f : State) : Prop where
  cells : slice f.fast.dev.mem (programBaseOf h % 2 ^ 27) bs.length = bs
  updated : f.updatedLen = bs.length
  total : f.totalLen = imageBytes h
  right : (Crc32.update 0xFFFFFFFF#32 (slice f.fast.dev.mem (programBaseOf h % 2 ^ 27 + 64)
      (Header.imgLen h))).toNat = Header.orgChecksum h →
    f.currentState.complete = true ∧ FlagTouched c d f.fast.dev ∧
      slice f.fast.dev.mem (c.density - 0x1000) 4 = leBytes 4 (Header.orgChecksum h)
  wrong : (Crc32.update 0xFFFFFFFF#32 (slice f.fast.dev.mem (programBaseOf h % 2 ^ 27 + 64)
      (Header.imgLen h))).toNat ≠ Header.orgChecksum h →
    f.currentState.complete = false ∧ ¬ FlagTouched c d f.fast.dev

theorem finish_spec (hr : Reflected hw) (h' : Programming c s h bs f) (hp : Placed h)
    (hmore : imageBytes h ≤ bs.length)
    (hend : programBaseOf h + bs.length < otaFlagAddr c.density) :
    Finished c s.dev h bs (f.finish hw true).1 := by
  obtain ⟨m, hcarries⟩ := h'.carries
  have hroom := c.room
  have hle := c.density_le
  have hal := c.aligned
  have hlt := hp.base_lt
  have hge := hp.base_ge
  have hoffset := hp.offset
  have hbytes := hp.imageBytes_le
  unfold otaFlagAddr at hend
  obtain ⟨hd, _, hslice, _⟩ := destroy_flush c.toChip hcarries (by omega) (by omega)
  -- the flush of the last sector stays below the flag
  have hwithin : f.fast.dev.Within (c.density - 0x1000) (tlsFlsFastWriteDestroy f.fast).dev := by
    obtain ⟨cache, hc, hst⟩ := hcarries
    have hinst : f.fast.dev.insideFls = some c.density := hst.installed
    have hcl : cache.length = 4096 := hst.cache
    have hsector : f.fast.gsSector = (programBaseOf h + bs.length) / 4096 := hst.sector
    unfold tlsFlsFastWriteDestroy
    rw [hc, hinst]
    apply flushSector_within c.below f.fast.dev hcl
    intro _
    rw [c.below_density, hsector]
    lia
  have hall := h'.within.trans hwithin
  generalize hg : tlsFlsFastWriteDestroy f.fast = g at *
  have hleft : (f.totalLen + 2 ^ 32 - signatureLen h - 64) % 2 ^ 32 = Header.imgLen h := by
    have := Header.imgLen_lt h
    rw [h'.total]
    unfold imageBytes
    omega
  have hver := verifyLoop_eq c hr (programBaseOf h) hd 64 0xFFFFFFFF#32 (Nat.le_refl (Header.imgLen h)) (by
      unfold imageBytes at hbytes hmore
      omega)
  have hctx : tlsCryptoCrcInit 0xFFFFFFFF#32 .crc32 3 = crcContext 0xFFFFFFFF#32 := rfl
  unfold State.finish
  simp only [hg, h'.header, hleft, hctx, h'.base, hver, hd, Option.getD_some]
  rw [if_neg (by decide)]
  have hfin : ∀ crc, (tlsCryptoCrcFinal (crcContext crc)) = crc := fun _ => rfl
  rw [hfin]
  split
  · rename_i hne
    refine ⟨hslice, h'.updated, h'.total, ?_, ?_⟩
    · intro heq
      exact absurd heq.symm hne
    · intro _
      exact ⟨by simp only [h'.state]; rfl, not_flagTouched c hall⟩
  · rename_i heq
    obtain ⟨htouch, hflag, hkeep⟩ := flag_write c hall hd (Header.orgChecksum h)
    have hsame : ∀ k n, k + n ≤ bs.length →
        slice (tlsFlsWrite g.dev (otaFlagAddr c.density) (leBytes 4 (Header.orgChecksum h))).2.mem
          (programBaseOf h % 2 ^ 27 + k) n = slice g.dev.mem (programBaseOf h % 2 ^ 27 + k) n := by
      intro k n hkn
      apply slice_congr
      intro i hi
      exact hkeep _ (by omega)
    refine ⟨?_, h'.updated, h'.total, ?_, ?_⟩
    · exact (hsame 0 bs.length (by omega)).trans hslice
    · intro _
      exact ⟨rfl, htouch, hflag⟩
    · intro hne
      refine absurd ?_ hne
      simp only []
      rw [hsame 64 (Header.imgLen h) (by unfold imageBytes at hmore; omega)]
      exact (not_not.mp heq).symm

end Finish

/-! ## Requests in front of the image's end -/

/-- The requests so far have brought `bs`, and the image with the header `h` is not complete. -/
def Underway (c : MapChip) (s : Fast) (h bs : List Byte) (f : State) : Prop :=
  Collecting s bs f ∨ (64 ≤ bs.length ∧ Programming c s h bs f ∧ f.receivedLen = bs.length)

section Requests

variable (c : MapChip) (hw : Engine) (t : Target) (junk : List Byte) (heap : Bool)
variable {s : Fast} {h bs data : List Byte} {f : State}

theorem Underway.state (hu : Underway c s h bs f) : f.currentState = .zero := by
  rcases hu with hc | ⟨_, hp, _⟩
  · exact hc.state
  · exact hp.state

theorem request_zero (hz : f.currentState = .zero) : f.request hw t junk heap data =
    match f.takeHeader hw t junk data with
    | none => none
    | some (f, none) => some f.failIo
    | some (f, some rest) => f.body hw heap rest := by
  unfold State.request
  rw [hz]
  rfl

theorem takeHeader_behind (data : List Byte) (h64 : 64 ≤ bs.length) (hp : Programming c s h bs f)
    (hrec : f.receivedLen = bs.length) :
    f.takeHeader hw t junk data = some (f.received data.length, some data) ∧
      Programming c s h bs (f.received data.length) := by
  constructor
  · unfold State.takeHeader
    rw [if_neg (by omega)]
  · exact ⟨hp.state, hp.header, hp.base, hp.offset, hp.updated, hp.total, hp.carries, hp.within⟩

/-- A request fills the header, or comes behind it: `old` is what the driver has been given before the
rest of the request. -/
theorem takeHeader_filled (hs : Ready c s) (hu : Underway c s h bs f)
    (hok : tlsFwupImgHeaderCheck hw t s.dev junk h = true) (hp : Placed h)
    (hpre : (bs ++ data).take 64 = h) (hfull : 64 ≤ (bs ++ data).length) :
    ∃ f' old rest, f.takeHeader hw t junk data = some (f', some rest) ∧ old ++ rest = bs ++ data ∧
      64 ≤ old.length ∧ (old.length = 64 ∨ rest = data) ∧ Programming c s h old f' ∧
      f'.receivedLen = (bs ++ data).length % 2 ^ 32 := by
  rw [List.length_append] at hfull ⊢
  rcases hu with hc | ⟨h64, hprog, hrec⟩
  · subst hpre
    obtain ⟨f', htake, hprog, hrec⟩ := takeHeader_accepted c hw t junk hs hc hfull hok hp
    have hlen : ((bs ++ data).take 64).length = 64 := by
      rw [List.length_take, List.length_append]
      omega
    exact ⟨f', _, _, htake, List.take_append_drop _ _, by omega, .inl hlen, hprog, hrec⟩
  · obtain ⟨htake, hprog'⟩ := takeHeader_behind c hw t junk data h64 hprog hrec
    refine ⟨_, bs, data, htake, rfl, h64, .inr rfl, hprog', ?_⟩
    simp only [State.received, hrec]

/-- A request that does not complete the image. -/
theorem request_more (hs : Ready c s) (hu : Underway c s h bs f)
    (hok : tlsFwupImgHeaderCheck hw t s.dev junk h = true) (hp : Placed h)
    (hpre : 64 ≤ (bs ++ data).length → (bs ++ data).take 64 = h)
    (hless : (bs ++ data).length < imageBytes h) :
    ∃ f', f.request hw t junk heap data = some (f', .success) ∧ Underway c s h (bs ++ data) f' ∧
      f'.resets .success = false := by
  rw [request_zero hw t junk heap (hu.state c)]
  by_cases hfull : 64 ≤ (bs ++ data).length
  · obtain ⟨f', old, rest, htake, hcat, hold, _, hprog, hrec⟩ :=
      takeHeader_filled c hw t junk hs hu hok hp (hpre hfull) hfull
    have hsum : old.length + rest.length = (bs ++ data).length := by
      rw [← List.length_append, hcat]
    obtain ⟨g, hbody, hprog', hrec'⟩ := body_more c hw heap rest hprog hp (by omega)
    have hbytes := hp.imageBytes_le
    rw [hcat] at hprog'
    rw [htake]
    refine ⟨g, hbody, .inr ⟨hfull, hprog', ?_⟩, ?_⟩
    · rw [hrec', hrec, Nat.mod_eq_of_lt (by omega)]
    · unfold State.resets
      rw [hprog'.updated, hprog'.total]
      simp only [ne_eq, not_true_eq_false, or_false, decide_eq_false_iff_not, not_and]
      intro _
      omega
  · have hshort : bs.length + data.length < 64 := by
      rw [List.length_append] at hfull
      omega
    have hc : Collecting s bs f := by
      rcases hu with hc | ⟨h64, _, _⟩
      · exact hc
      · omega
    obtain ⟨f', htake, hc'⟩ := takeHeader_collect hw t junk hc hshort
    rw [htake]
    refine ⟨f', rfl, .inl hc', ?_⟩
    unfold State.resets
    rw [hc'.updated]
    simp

/-- The request that completes the image. -/
theorem request_last (hs : Ready c s) (hu : Underway c s h bs f)
    (hok : tlsFwupImgHeaderCheck hw t s.dev junk h = true) (hp : Placed h)
    (hpre : (bs ++ data).take 64 = h) (hne : data ≠ []) (hmore : imageBytes h ≤ (bs ++ data).length)
    (h64 : 64 < (bs ++ data).length)
    (hend : programBaseOf h + (bs ++ data).length < otaFlagAddr c.density) :
    ∃ f', f.request hw t junk heap data = some (f'.finish hw heap) ∧
      Programming c s h (bs ++ data) f' := by
  obtain ⟨f', old, rest, htake, hcat, _, hrest, hprog, _⟩ :=
    takeHeader_filled c hw t junk hs hu hok hp hpre (by omega)
  have hsum : old.length + rest.length = (bs ++ data).length := by
    rw [← List.length_append, hcat]
  -- the header does not end this request
  have hrne : rest ≠ [] := by
    rintro rfl
    rcases hrest with hold | hnil
    · rw [List.length_nil] at hsum
      omega
    · exact hne hnil.symm
  obtain ⟨g, hbody, hprog'⟩ := body_last c hw heap hprog hp hrne (by omega)
    (by omega)
  rw [hcat] at hprog'
  rw [request_zero hw t junk heap (hu.state c), htake]
  exact ⟨g, hbody, hprog'⟩

theorem request_refused (hc : Collecting s bs f) (hfull : 64 ≤ (bs ++ data).length)
    (hno : tlsFwupImgHeaderCheck hw t s.dev junk ((bs ++ data).take 64) = false) :
    ∃ f' : State, f.request hw t junk heap data = some f'.failIo ∧ f'.fast = s ∧
      f'.booter.length = 64 := by
  rw [List.length_append] at hfull
  obtain ⟨f', htake, hfast, hlen⟩ := takeHeader_refused hw t junk hc hfull hno
  rw [request_zero hw t junk heap hc.state, htake]
  exact ⟨f', rfl, hfast, hlen⟩

end Requests

end Fwup
end Air101
