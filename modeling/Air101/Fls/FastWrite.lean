import Air101.Fls.Contract

/-!
# Fls.FastWrite

The sector write-back cache of the driver: `tls_fls_fast_write_init`, `tls_fls_fast_write`,
`tls_fls_fast_write_destroy` and `tls_fls_flush_sector`.

The cache holds one sector, `gs_sector`, which counts from the address 0 and not from the start of
the chip: with `INSIDE_FLS_BASE_ADDR` in an address it is `0x8000` and up. `gs_sector` is never
reset. A flush goes into the log as a write of the whole cache.

* `Window.view`: the cells as a flush would leave them.
* `Streams`: what the cells and the cache hold while consecutive ranges are written.
* `Streams.loop`: one `tls_fls_fast_write` continues the stream.
-/

namespace Air101
namespace Fls

open Storage

/-- `gsflscache` (`none` for NULL), `gsSector` and the flash under them. -/
structure Fast where
  dev : Dev
  gsflscache : Option (List Byte)
  gsSector : Nat

/-- `tls_fls_flush_sector`. -/
def tlsFlsFlushSector (density : Nat) (d : Dev) (gsSector : Nat) (cache : List Byte) : Dev :=
  if gsSector < density / 4096 + 0x8000 then
    d.issue (.write (gsSector * 4096) cache (sectorOps gsSector cache))
  else d

/-- `tls_fls_fast_write_init`; `mem` is what `tls_mem_alloc` returns, with the bytes in it. -/
def tlsFlsFastWriteInit (mem : Option (List Byte)) (s : Fast) : Int × Fast :=
  match s.dev.insideFls, s.gsflscache, mem with
  | none, _, _ => (Status.eperm.code, s)
  | some _, some _, _ => (-1, s)
  | some _, none, none => (-1, s)
  | some _, none, some bs => (0, { s with gsflscache := some bs })

/-- `tls_fls_fast_write_destroy`. -/
def tlsFlsFastWriteDestroy (s : Fast) : Fast :=
  match s.gsflscache, s.dev.insideFls with
  | some cache, some density =>
    { s with dev := tlsFlsFlushSector density s.dev s.gsSector cache, gsflscache := none }
  | _, _ => s

/-- What the loop of `tls_fls_fast_write` works on. -/
structure Window where
  dev : Dev
  gsSector : Nat
  cache : List Byte

/-- One pass of the loop, with the bytes it takes. -/
def Window.pass (density : Nat) (w : Window) (offset : Nat) (bs : List Byte) : Window :=
  let cache := patch w.cache offset bs
  if 4096 ≤ offset + bs.length then
    ⟨tlsFlsFlushSector density w.dev w.gsSector cache, w.gsSector + 1, cache⟩
  else ⟨w.dev, w.gsSector, cache⟩

/-- The `while (length > 0)` loop; every pass takes at least one byte. -/
def Window.loop (density : Nat) : Nat → Window → Nat → List Byte → Window
  | 0, w, _, _ => w
  | fuel + 1, w, offset, buf =>
    if buf = [] then w
    else
      let len := min buf.length (4096 - offset)
      Window.loop density fuel (w.pass density offset (buf.take len)) 0 (buf.drop len)

/-- The flush of another sector's content in front of the loop. -/
def Fast.turn (density : Nat) (s : Fast) (sector : Nat) (cache : List Byte) : Dev :=
  if sector ≠ s.gsSector ∧ s.gsSector ≠ 0 then tlsFlsFlushSector density s.dev s.gsSector cache
  else s.dev

/-- `tls_fls_fast_write`; `none` when it gets as far as copying to a NULL cache. -/
def tlsFlsFastWrite (s : Fast) (addr : Nat) (buf : List Byte) : Option (Status × Fast) :=
  match rangeCheck s.dev addr buf.length with
  | .ok =>
    match s.dev.insideFls, s.gsflscache with
    | some density, some cache =>
      let sector := addr / 4096
      let offset := addr % 4096
      let w := Window.loop density buf.length ⟨s.turn density sector cache, sector, cache⟩ offset buf
      some (.ok, ⟨w.dev, some w.cache, w.gsSector⟩)
    | _, _ => none
  | e => some (e, s)

/-! ## Flushes -/

theorem sectorOps_overlay (m : Nat → Byte) (sector : Nat) {cache : List Byte}
    (h : cache.length = 4096) :
    run m (sectorOps sector cache) = overlay m (sector % 0x2000 * 4096) cache := by
  have hlt : sector % 0x2000 < 0x2000 := Nat.mod_lt _ (by omega)
  rw [sectorOps_bus, sectorOps_eq (by lia), run_rewrite h]

theorem flushSector_mem {density sector : Nat} (d : Dev) {cache : List Byte}
    (hs : sector < density / 4096 + 0x8000) (h : cache.length = 4096) :
    (tlsFlsFlushSector density d sector cache).mem =
      overlay d.mem (sector % 0x2000 * 4096) cache := by
  unfold tlsFlsFlushSector
  rw [if_pos hs, Dev.issue_mem, Ev.ops, sectorOps_overlay d.mem sector h]

theorem flushSector_skip {density sector : Nat} (d : Dev) (cache : List Byte)
    (hs : density / 4096 + 0x8000 ≤ sector) : tlsFlsFlushSector density d sector cache = d :=
  if_neg (Nat.not_lt.mpr hs)

@[simp] theorem flushSector_insideFls (density : Nat) (d : Dev) (sector : Nat) (cache : List Byte) :
    (tlsFlsFlushSector density d sector cache).insideFls = d.insideFls := by
  unfold tlsFlsFlushSector
  split
  · exact Dev.issue_insideFls _ _
  · exact Eq.refl _

/-! ## Streams -/

/-- While consecutive ranges are written from the address `a` on and `data` is what they have brought
so far: the cache is that of the sector in which `data` ends, the cells as a flush would leave them
hold `data`, and outside the sectors already flushed the cells are those of `m`. -/
structure Streams (density a : Nat) (m : Nat → Byte) (data : List Byte) (w : Window) : Prop where
  installed : w.dev.insideFls = some density
  sector : w.gsSector = (a + data.length) / 4096
  cache : w.cache.length = 4096
  cells : slice (overlay w.dev.mem (sectorOf (a % 2 ^ 27 + data.length)) w.cache) (a % 2 ^ 27)
    data.length = data
  frame : ∀ x, x < sectorOf (a % 2 ^ 27) ∨ sectorOf (a % 2 ^ 27 + data.length) ≤ x →
    w.dev.mem x = m x

theorem Streams.start {density a : Nat} {d : Dev} {cache : List Byte}
    (hd : d.insideFls = some density) (hc : cache.length = 4096) :
    Streams density a d.mem [] ⟨d, a / 4096, cache⟩ :=
  ⟨hd, rfl, hc, rfl, fun _ _ => rfl⟩

section Stream

variable (c : Chip) {a : Nat} {m : Nat → Byte} {data bs : List Byte} {w : Window}

theorem sector_on_bus {a n : Nat} (ha : a < 2 ^ 28) (hn : a % 2 ^ 27 + n < c.density) :
    (a + n) / 4096 % 0x2000 * 4096 = sectorOf (a % 2 ^ 27 + n) ∧
      (a + n) / 4096 < c.density / 4096 + 0x8000 := by
  have hle := c.density_le
  have hal := c.aligned
  unfold sectorOf
  constructor <;> lia

theorem Streams.pass (bs : List Byte) (h : Streams c.density a m data w) (ha : a < 2 ^ 28) (hne : bs ≠ [])
    (hfit : (a + data.length) % 4096 + bs.length ≤ 4096)
    (hend : a % 2 ^ 27 + data.length + bs.length ≤ c.density) :
    Streams c.density a m (data ++ bs) (w.pass c.density ((a + data.length) % 4096) bs) := by
  have hpos : 0 < bs.length := List.length_pos_iff.mpr hne
  obtain ⟨hbus, hlim⟩ := sector_on_bus c (n := data.length) ha (by omega)
  rw [← h.sector] at hbus hlim
  have hplace : sectorOf (a % 2 ^ 27 + data.length) + (a + data.length) % 4096 =
      a % 2 ^ 27 + data.length := by
    unfold sectorOf
    lia
  have hlen : (patch w.cache ((a + data.length) % 4096) bs).length = 4096 := by
    rw [patch_length (by rw [h.cache]; exact hfit), h.cache]
  -- what a flush would leave: the old view with the bytes laid behind the data
  have hview : slice (overlay w.dev.mem (sectorOf (a % 2 ^ 27 + data.length))
      (patch w.cache ((a + data.length) % 4096) bs)) (a % 2 ^ 27) (data.length + bs.length) =
        data ++ bs := by
    rw [overlay_patch_list _ _ (by rw [h.cache]; exact hfit), hplace, slice_overlay_behind, h.cells]
  have happ : (data ++ bs).length = data.length + bs.length := List.length_append
  unfold Window.pass
  simp only []
  split
  · rename_i hfull
    have hnext : sectorOf (a % 2 ^ 27 + (data.length + bs.length)) =
        sectorOf (a % 2 ^ 27 + data.length) + 4096 := by
      unfold sectorOf
      lia
    have hmem := flushSector_mem w.dev hlim hlen
    rw [hbus] at hmem
    refine ⟨?_, ?_, hlen, ?_, ?_⟩
    · rw [flushSector_insideFls, h.installed]
    · simp only [h.sector, happ]
      lia
    · rw [hmem, happ, slice_overlay_out (.inl (by rw [hnext]; lia)), hview]
    · intro x hx
      rw [happ, hnext] at hx
      have hfirst : sectorOf (a % 2 ^ 27) ≤ sectorOf (a % 2 ^ 27 + data.length) := by
        unfold sectorOf
        lia
      rw [hmem, overlay_out (by rw [hlen]; omega)]
      exact h.frame x (by omega)
  · rename_i hpart
    have hsame : sectorOf (a % 2 ^ 27 + (data.length + bs.length)) =
        sectorOf (a % 2 ^ 27 + data.length) := by
      unfold sectorOf
      lia
    refine ⟨h.installed, ?_, hlen, ?_, ?_⟩
    · simp only [h.sector, happ]
      lia
    · rw [happ, hsame, hview]
    · intro x hx
      rw [happ, hsame] at hx
      exact h.frame x hx

/-- The loop continues the stream by its whole buffer. -/
theorem Streams.loop (ha : a < 2 ^ 28) : ∀ (fuel : Nat) (data : List Byte) (w : Window) (offset : Nat)
    (buf : List Byte), Streams c.density a m data w → buf.length ≤ fuel →
      (buf ≠ [] → offset = (a + data.length) % 4096) →
      a % 2 ^ 27 + data.length + buf.length ≤ c.density →
      Streams c.density a m (data ++ buf) (Window.loop c.density fuel w offset buf) := by
  intro fuel
  induction fuel with
  | zero =>
    intro data w offset buf h hf _ _
    rw [List.length_eq_zero_iff.mp (Nat.le_zero.mp hf), List.append_nil]
    exact h
  | succ fuel ih =>
    intro data w offset buf h hf hoff hend
    unfold Window.loop
    split
    · rename_i hnil
      rw [hnil, List.append_nil]
      exact h
    · rename_i hne
      have hpos : 0 < buf.length := List.length_pos_iff.mpr hne
      simp only []
      rw [hoff hne]
      generalize hl : min buf.length (4096 - (a + data.length) % 4096) = len
      have htake : (buf.take len).length = len := by rw [List.length_take]; omega
      have hdrop : (buf.drop len).length = buf.length - len := List.length_drop
      have hstep := h.pass c (buf.take len) ha (by intro h0; rw [h0] at htake; simp at htake; omega)
        (by omega) (by omega)
      have hrest := ih (data ++ buf.take len) _ 0 (buf.drop len) hstep (by omega)
        (by
          intro hmore
          have := List.length_pos_iff.mpr hmore
          rw [List.length_append, htake]
          omega)
        (by rw [List.length_append]; omega)
      rw [List.append_assoc, List.take_append_drop] at hrest
      exact hrest

end Stream

/-! ## Calls -/

/-- The driver's cache carries the stream `data` from the address `a` on. -/
def Fast.Carries (density a : Nat) (m : Nat → Byte) (data : List Byte) (s : Fast) : Prop :=
  ∃ cache, s.gsflscache = some cache ∧ Streams density a m data ⟨s.dev, s.gsSector, cache⟩

theorem fastWrite_empty {density : Nat} {s : Fast} (hd : s.dev.insideFls = some density) (addr : Nat) :
    tlsFlsFastWrite s addr [] = some (.einval, s) := by
  unfold tlsFlsFastWrite rangeCheck
  rw [hd]
  simp

section Calls

variable (c : Chip) {a : Nat} {m : Nat → Byte} {data buf : List Byte} {s : Fast}

theorem fastWrite_ok (addr : Nat) {cache : List Byte} (hd : s.dev.insideFls = some c.density)
    (hc : s.gsflscache = some cache) (ha : addr % 0x8000000 < c.density) (hb : buf ≠ []) :
    ∃ w, w = Window.loop c.density buf.length
        ⟨s.turn c.density (addr / 4096) cache, addr / 4096, cache⟩ (addr % 4096) buf ∧
      tlsFlsFastWrite s addr buf = some (.ok, ⟨w.dev, some w.cache, w.gsSector⟩) := by
  refine ⟨_, rfl, ?_⟩
  unfold tlsFlsFastWrite
  rw [rangeCheck_ok hd ha (List.length_pos_iff.mpr hb), hd, hc]

theorem fastWrite_first {cache : List Byte} (hd : s.dev.insideFls = some c.density)
    (hc : s.gsflscache = some cache) (hlen : cache.length = 4096) (ha : a < 2 ^ 28) (hb : buf ≠ [])
    (hend : a % 2 ^ 27 + buf.length ≤ c.density) :
    ∃ s', tlsFlsFastWrite s a buf = some (.ok, s') ∧
      s'.Carries c.density a (s.turn c.density (a / 4096) cache).mem buf := by
  have hpos : 0 < buf.length := List.length_pos_iff.mpr hb
  obtain ⟨w, hw, hcall⟩ := fastWrite_ok c a hd hc (by lia) hb
  have hinst : (s.turn c.density (a / 4096) cache).insideFls = some c.density := by
    unfold Fast.turn
    split
    · rw [flushSector_insideFls, hd]
    · exact hd
  have hloop := Streams.loop c ha buf.length [] _ (a % 4096) buf (Streams.start hinst hlen)
    (Nat.le_refl _) (fun _ => rfl) (by simpa using hend)
  rw [← hw, List.nil_append] at hloop
  exact ⟨_, hcall, w.cache, rfl, hloop⟩

/-- A further call, right behind the stream so far: there is no flush in front of the loop. -/
theorem fastWrite_next (h : s.Carries c.density a m data) (ha : a < 2 ^ 28) (hb : buf ≠ [])
    (hend : a % 2 ^ 27 + data.length + buf.length ≤ c.density) :
    ∃ s', tlsFlsFastWrite s (a + data.length) buf = some (.ok, s') ∧
      s'.Carries c.density a m (data ++ buf) := by
  obtain ⟨cache, hc, hs⟩ := h
  have hle := c.density_le
  have hpos : 0 < buf.length := List.length_pos_iff.mpr hb
  have hsector : s.gsSector = (a + data.length) / 4096 := hs.sector
  obtain ⟨w, hw, hcall⟩ := fastWrite_ok c (a + data.length) hs.installed hc (by lia) hb
  have hturn : s.turn c.density ((a + data.length) / 4096) cache = s.dev := by
    unfold Fast.turn
    exact if_neg (fun hne => hne.1 hsector.symm)
  rw [hturn, ← hsector] at hw
  have hloop := Streams.loop c ha buf.length data _ ((a + data.length) % 4096) buf hs
    (Nat.le_refl _) (fun _ => rfl) hend
  rw [← hw] at hloop
  exact ⟨_, hcall, w.cache, rfl, hloop⟩

/-- Destroying the cache in front of the end of the chip brings the stream to the flash. -/
theorem destroy_flush (h : s.Carries c.density a m data) (ha : a < 2 ^ 28)
    (hend : a % 2 ^ 27 + data.length < c.density) :
    (tlsFlsFastWriteDestroy s).dev.insideFls = some c.density ∧
      (tlsFlsFastWriteDestroy s).gsflscache = none ∧
      slice (tlsFlsFastWriteDestroy s).dev.mem (a % 2 ^ 27) data.length = data ∧
      ∀ x, x < sectorOf (a % 2 ^ 27) ∨ sectorOf (a % 2 ^ 27 + data.length) + 4096 ≤ x →
        (tlsFlsFastWriteDestroy s).dev.mem x = m x := by
  obtain ⟨cache, hc, hs⟩ := h
  have hd : s.dev.insideFls = some c.density := hs.installed
  have hlen : cache.length = 4096 := hs.cache
  have hsector : s.gsSector = (a + data.length) / 4096 := hs.sector
  obtain ⟨hbus, hlim⟩ := sector_on_bus c ha hend
  rw [← hsector] at hbus hlim
  have hmem := flushSector_mem s.dev hlim hlen
  rw [hbus] at hmem
  unfold tlsFlsFastWriteDestroy
  rw [hc, hd]
  refine ⟨by rw [flushSector_insideFls, hd], rfl, ?_, ?_⟩
  · rw [hmem]
    exact hs.cells
  · intro x hx
    have hfirst : sectorOf (a % 2 ^ 27) ≤ sectorOf (a % 2 ^ 27 + data.length) := by
      unfold sectorOf
      lia
    rw [hmem, overlay_out (by omega)]
    exact hs.frame x (by omega)

/-- Destroying the cache of a stream that has filled its last sector and cannot flush the next one. -/
theorem destroy_skip (h : s.Carries c.density a m data)
    (hlast : (a % 2 ^ 27 + data.length) % 4096 = 0)
    (hlim : c.density / 4096 + 0x8000 ≤ (a + data.length) / 4096) :
    (tlsFlsFastWriteDestroy s).dev.insideFls = some c.density ∧
      (tlsFlsFastWriteDestroy s).gsflscache = none ∧
      slice (tlsFlsFastWriteDestroy s).dev.mem (a % 2 ^ 27) data.length = data ∧
      ∀ x, x < sectorOf (a % 2 ^ 27) ∨ a % 2 ^ 27 + data.length ≤ x →
        (tlsFlsFastWriteDestroy s).dev.mem x = m x := by
  obtain ⟨cache, hc, hs⟩ := h
  have hd : s.dev.insideFls = some c.density := hs.installed
  have hsector : s.gsSector = (a + data.length) / 4096 := hs.sector
  have hend : sectorOf (a % 2 ^ 27 + data.length) = a % 2 ^ 27 + data.length := by
    unfold sectorOf
    lia
  have hcells := hs.cells
  rw [hend, slice_overlay_out (.inl (Nat.le_refl _))] at hcells
  have hdes : tlsFlsFastWriteDestroy s = { s with gsflscache := none } := by
    unfold tlsFlsFastWriteDestroy
    rw [hc, hd]
    simp only []
    rw [flushSector_skip s.dev cache (by rw [hsector]; exact hlim)]
  rw [hdes]
  refine ⟨hd, rfl, hcells, ?_⟩
  intro x hx
  rw [← hend] at hx
  exact hs.frame x hx

end Calls

/-- The driver after a reset, over an erased chip of 2 MB. -/
def blank2M : Fast := ⟨⟨some 0x200000, fun _ => 0xFF#8, []⟩, none, 0⟩

theorem cache_length : (List.replicate 4096 0#8).length = 4096 := List.length_replicate

end Fls
end Air101
