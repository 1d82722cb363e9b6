import Air101.Fls.FastWrite
import Air101.Storage.Runs

/-!
# Fls.Sessions

Sessions of fast writes: `tls_fls_fast_write_init`, calls of `tls_fls_fast_write` on consecutive
ranges, `tls_fls_fast_write_destroy`.

`tls_fls_fast_write_destroy` flushes whatever `gsSector` says. Behind data that ends on a sector
boundary that is the sector behind the data, and in a session that has written nothing it is the
sector a former session has stopped in. The first `tls_fls_fast_write` of a session flushes the
sector of the former session too, with what the new cache happens to hold. `Clean` is what keeps a
session away from these flushes.

* `session_kept`: a clean session leaves its data in the flash and the sectors it does not meet alone.
* `fast_write_sessions`: the same for every session of a run.
-/

namespace Air101
namespace Fls

open Storage

/-- A session: the memory its cache is allocated in, the first address and the buffers. -/
structure Session where
  mem : List Byte
  addr : Nat
  writes : List (List Byte)
  mem_len : mem.length = 4096
  aligned : addr % 4096 = 0
  above : 0 < addr / 4096
  addr_lt : addr < 2 ^ 32

/-- What the session writes. -/
def Session.data (x : Session) : List Byte := x.writes.flatten

/-- The calls of `tls_fls_fast_write` on consecutive ranges. -/
def fastWrites : Fast → Nat → List (List Byte) → Option Fast
  | s, _, [] => some s
  | s, addr, buf :: bufs =>
    match tlsFlsFastWrite s addr buf with
    | some (_, s') => fastWrites s' (addr + buf.length) bufs
    | none => none

/-- The whole session. -/
def session (s : Fast) (x : Session) : Option Fast :=
  (fastWrites (tlsFlsFastWriteInit (some x.mem) s).2 x.addr x.writes).map tlsFlsFastWriteDestroy

/-- The state behind a session. -/
def sessionStep (s : Fast) (x : Session) : Fast := (session s x).getD s

/-- What a session promises: its range holds its data, and a sector that the range does not meet is
as it was. -/
def Session.Kept (x : Session) (m m' : Nat → Byte) : Prop :=
  slice m' (x.addr % 2 ^ 27) x.data.length = x.data ∧
    ∀ y, sectorOf y + 4096 ≤ x.addr % 2 ^ 27 ∨ x.addr % 2 ^ 27 + x.data.length ≤ sectorOf y →
      m' y = m y

/-- The session's range lies in the chip as the flushes count sectors, it does not end on a sector
boundary in front of a sector that can be flushed, and the sector that a former session has left in
`gsSector`, if it can be flushed, is one of the session's own. A session without data is clean if it
finds a sector that cannot be flushed. -/
def Session.Clean (density gsSector : Nat) (x : Session) : Prop :=
  if x.data = [] then density / 4096 + 0x8000 ≤ gsSector
  else x.addr < 2 ^ 28 ∧ x.addr % 2 ^ 27 + x.data.length ≤ density ∧
    (x.data.length % 4096 = 0 →
      density / 4096 + 0x8000 ≤ (x.addr + x.data.length) / 4096) ∧
    (gsSector ≠ 0 → gsSector < density / 4096 + 0x8000 →
      x.addr % 2 ^ 27 ≤ gsSector % 0x2000 * 4096 ∧
        gsSector % 0x2000 * 4096 < x.addr % 2 ^ 27 + x.data.length)

/-- Between two sessions: the driver is installed and the cache is given back. -/
structure Fast.Free (c : Chip) (s : Fast) : Prop where
  installed : s.dev.insideFls = some c.density
  cache : s.gsflscache = none

section Writes

variable (c : Chip) {a : Nat} {m : Nat → Byte} {s : Fast}

theorem fastWrites_next (ha : a < 2 ^ 28) : ∀ (bufs : List (List Byte)) (data : List Byte) (s : Fast),
    s.Carries c.density a m data →
    a % 2 ^ 27 + data.length + bufs.flatten.length ≤ c.density →
    ∃ s', fastWrites s (a + data.length) bufs = some s' ∧
      s'.Carries c.density a m (data ++ bufs.flatten) := by
  intro bufs
  induction bufs with
  | nil =>
    intro data s h _
    rw [List.flatten_nil, List.append_nil]
    exact ⟨s, rfl, h⟩
  | cons buf bufs ih =>
    intro data s h hend
    rw [List.flatten_cons, List.length_append] at hend
    by_cases hb : buf = []
    · -- an empty buffer is refused
      obtain ⟨cache, hc, hs⟩ := h
      have hd : s.dev.insideFls = some c.density := hs.installed
      rw [hb, List.flatten_cons, List.nil_append]
      simp only [fastWrites, fastWrite_empty hd, List.length_nil, Nat.add_zero]
      exact ih data s ⟨cache, hc, hs⟩ (by omega)
    · obtain ⟨s', hcall, h'⟩ := fastWrite_next c h ha hb (by omega)
      have hlen : (data ++ buf).length = data.length + buf.length := List.length_append
      obtain ⟨s'', hrest, h''⟩ := ih (data ++ buf) s' h' (by omega)
      refine ⟨s'', ?_, ?_⟩
      · simp only [fastWrites, hcall]
        rw [Nat.add_assoc, ← hlen]
        exact hrest
      · rw [List.flatten_cons, ← List.append_assoc]
        exact h''

theorem fastWrites_first {cache : List Byte} (ha : a < 2 ^ 28) (hd : s.dev.insideFls = some c.density)
    (hc : s.gsflscache = some cache) (hlen : cache.length = 4096) :
    ∀ bufs : List (List Byte), bufs.flatten ≠ [] →
      a % 2 ^ 27 + bufs.flatten.length ≤ c.density →
      ∃ s', fastWrites s a bufs = some s' ∧
        s'.Carries c.density a (s.turn c.density (a / 4096) cache).mem bufs.flatten := by
  intro bufs
  induction bufs with
  | nil => intro hne; exact absurd rfl hne
  | cons buf bufs ih =>
    intro hne hend
    rw [List.flatten_cons] at hne hend
    rw [List.length_append] at hend
    by_cases hb : buf = []
    · rw [hb] at hne ⊢
      rw [List.flatten_cons, List.nil_append]
      simp only [fastWrites, fastWrite_empty hd, List.length_nil, Nat.add_zero]
      exact ih hne (by omega)
    · obtain ⟨s', hcall, h'⟩ := fastWrite_first c hd hc hlen ha hb (by omega)
      obtain ⟨s'', hrest, h''⟩ := fastWrites_next c ha bufs buf s' h' (by omega)
      refine ⟨s'', ?_, ?_⟩
      · simp only [fastWrites, hcall]
        exact hrest
      · rw [List.flatten_cons]
        exact h''

theorem fastWrites_empty (hd : s.dev.insideFls = some c.density) :
    ∀ (bufs : List (List Byte)) (addr : Nat), bufs.flatten = [] → fastWrites s addr bufs = some s := by
  intro bufs
  induction bufs with
  | nil => intro addr _; rfl
  | cons buf bufs ih =>
    intro addr h
    rw [List.flatten_cons, List.append_eq_nil_iff] at h
    rw [h.1]
    simp only [fastWrites, fastWrite_empty hd]
    exact ih _ h.2

end Writes

/-! ## One session -/

section Kept

variable (c : Chip) {s : Fast} {x : Session}

theorem init_free (h : s.Free c) (mem : List Byte) :
    tlsFlsFastWriteInit (some mem) s = (0, { s with gsflscache := some mem }) := by
  unfold tlsFlsFastWriteInit
  rw [h.installed, h.cache]

theorem turn_frame (hclean : x.Clean c.density s.gsSector) (hdata : x.data ≠ []) {y : Nat}
    (hy : sectorOf y + 4096 ≤ x.addr % 2 ^ 27 ∨ x.addr % 2 ^ 27 + x.data.length ≤ sectorOf y) :
    (s.turn c.density (x.addr / 4096) x.mem).mem y = s.dev.mem y := by
  unfold Session.Clean at hclean
  rw [if_neg hdata] at hclean
  obtain ⟨_, _, _, hown⟩ := hclean
  unfold Fast.turn
  split
  · rename_i hturn
    by_cases hlim : s.gsSector < c.density / 4096 + 0x8000
    · obtain ⟨hlo, hhi⟩ := hown hturn.2 hlim
      rw [flushSector_mem s.dev hlim x.mem_len]
      apply overlay_out
      rw [x.mem_len]
      have hal := x.aligned
      unfold sectorOf at hy
      lia
    · rw [flushSector_skip s.dev x.mem (Nat.not_lt.mp hlim)]
  · rfl

theorem session_empty (h : s.Free c) (hdata : x.data = [])
    (hlim : c.density / 4096 + 0x8000 ≤ s.gsSector) : session s x = some s := by
  have hd : ({ s with gsflscache := some x.mem } : Fast).dev.insideFls = some c.density := h.installed
  unfold session
  rw [init_free c h, fastWrites_empty c hd x.writes x.addr hdata, Option.map_some]
  congr 1
  unfold tlsFlsFastWriteDestroy
  rw [h.installed]
  simp only []
  rw [flushSector_skip s.dev x.mem hlim, ← h.cache]

/-- A clean session leaves its data in the flash and the sectors it does not meet alone. -/
theorem session_kept (h : s.Free c) (hclean : x.Clean c.density s.gsSector) :
    ∃ s', session s x = some s' ∧ s'.Free c ∧ x.Kept s.dev.mem s'.dev.mem := by
  by_cases hdata : x.data = []
  · have hlim := hclean
    unfold Session.Clean at hlim
    rw [if_pos hdata] at hlim
    refine ⟨s, session_empty c h hdata hlim, h, ?_, fun _ _ => rfl⟩
    rw [hdata]
    rfl
  · have hframe : ∀ y, sectorOf y + 4096 ≤ x.addr % 2 ^ 27 ∨
        x.addr % 2 ^ 27 + x.data.length ≤ sectorOf y →
          (s.turn c.density (x.addr / 4096) x.mem).mem y = s.dev.mem y :=
      fun y hy => turn_frame c hclean hdata hy
    unfold Session.Clean at hclean
    rw [if_neg hdata] at hclean
    obtain ⟨ha, hend, hlast, _⟩ := hclean
    have hal := x.aligned
    have hd : ({ s with gsflscache := some x.mem } : Fast).dev.insideFls = some c.density :=
      h.installed
    obtain ⟨s', hrun, hs'⟩ := fastWrites_first c ha hd rfl x.mem_len x.writes hdata hend
    have hsess : session s x = some (tlsFlsFastWriteDestroy s') := by
      unfold session
      rw [init_free c h, hrun]
      rfl
    refine ⟨_, hsess, ?_⟩
    by_cases hfull : x.data.length % 4096 = 0
    · obtain ⟨hi, hn, hslice, hout⟩ := destroy_skip c hs' (by unfold Session.data at hfull; lia)
        (hlast hfull)
      refine ⟨⟨hi, hn⟩, hslice, ?_⟩
      intro y hy
      rw [← hframe y hy]
      exact hout y (by unfold sectorOf Session.data at *; lia)
    · have hlt : x.addr % 2 ^ 27 + x.data.length < c.density := by
        have := c.aligned
        lia
      obtain ⟨hi, hn, hslice, hout⟩ := destroy_flush c hs' ha hlt
      refine ⟨⟨hi, hn⟩, hslice, ?_⟩
      intro y hy
      rw [← hframe y hy]
      exact hout y (by unfold sectorOf Session.data at *; lia)

end Kept

/-! ## Runs -/

theorem sessionStep_free (c : Chip) (s : Fast) (x : Session) (hclean : x.Clean c.density s.gsSector)
    (h : s.Free c) : (sessionStep s x).Free c := by
  obtain ⟨s', hs', hfree, _⟩ := session_kept c h hclean
  unfold sessionStep
  rw [hs']
  exact hfree

/-- In a run of clean sessions every session keeps its promise. -/
theorem fast_write_sessions (c : Chip) {s : Fast} (h : s.Free c) (xs : List Session)
    (hclean : ∀ p ∈ trace sessionStep s xs, p.2.Clean c.density p.1.gsSector) :
    ∀ p ∈ trace sessionStep s xs, ∃ s', session p.1 p.2 = some s' ∧
      p.2.Kept p.1.dev.mem s'.dev.mem := by
  have hfree := (trace_inv (Fast.Free c) (fun s (x : Session) => x.Clean c.density s.gsSector)
    (sessionStep_free c) hclean h).1
  intro p hp
  obtain ⟨s', hs', _, hkept⟩ := session_kept c (hfree p hp) (hclean p hp)
  exact ⟨s', hs', hkept⟩

/-- A session of one write at `CODE_UPD_START_ADDR`, with a zeroed cache. -/
def oneWrite (buf : List Byte) : Session :=
  { mem := List.replicate 4096 0#8, addr := 0x8010000, writes := [buf],
    mem_len := cache_length, aligned := by decide, above := by decide,
    addr_lt := by decide }

theorem oneWrite_data (buf : List Byte) : (oneWrite buf).data = buf := List.append_nil buf

theorem fast_write_sessions_one_byte :
    ∃ s', session blank2M (oneWrite [0x5A#8]) = some s' ∧
      (oneWrite [0x5A#8]).Kept blank2M.dev.mem s'.dev.mem := by
  refine fast_write_sessions chip2M ⟨rfl, rfl⟩ [oneWrite [0x5A#8]] ?_ (blank2M, oneWrite [0x5A#8])
    List.mem_cons_self
  intro p hp
  rw [List.mem_singleton.mp hp]
  unfold Session.Clean
  rw [oneWrite_data]
  decide

theorem loop_full (density fuel : Nat) {w : Window} {buf : List Byte} (hb : buf.length = 4096)
    (hw : w.cache.length = 4096) :
    Window.loop density (fuel + 2) w 0 buf =
      ⟨tlsFlsFlushSector density w.dev w.gsSector buf, w.gsSector + 1, buf⟩ := by
  have hne : buf ≠ [] := by
    intro h0
    rw [h0] at hb
    simp at hb
  have hpatch : patch w.cache 0 buf = buf := by
    unfold patch
    rw [List.take_zero, List.nil_append, List.drop_of_length_le (by omega), List.append_nil]
  unfold Window.loop
  rw [if_neg hne]
  simp only [hb, Nat.sub_zero, Nat.min_self]
  rw [List.take_of_length_le (by omega), List.drop_of_length_le (by omega)]
  unfold Window.loop
  rw [if_pos rfl]
  unfold Window.pass
  simp only [hpatch]
  exact if_pos (by omega)

theorem session_spills (c : Chip) {s : Fast} (h : s.Free c) {x : Session} {buf : List Byte}
    (hx : x.writes = [buf]) (hb : buf.length = 4096) (ha : x.addr < 2 ^ 28)
    (hend : x.addr % 2 ^ 27 + 4096 < c.density) :
    ∃ s', session s x = some s' ∧ slice s'.dev.mem (x.addr % 2 ^ 27 + 4096) 4096 = buf := by
  have hne : buf ≠ [] := by
    intro h0
    rw [h0] at hb
    simp at hb
  have hd : ({ s with gsflscache := some x.mem } : Fast).dev.insideFls = some c.density := h.installed
  obtain ⟨w, hw, hcall⟩ := fastWrite_ok c x.addr hd rfl (by lia) hne
  rw [hb, x.aligned, loop_full c.density 4094 hb x.mem_len] at hw
  obtain ⟨hbus, hlim⟩ := sector_on_bus c ha hend
  have hnext : (x.addr + 4096) / 4096 = x.addr / 4096 + 1 := by omega
  have hsec : sectorOf (x.addr % 2 ^ 27 + 4096) = x.addr % 2 ^ 27 + 4096 := by
    have := x.aligned
    unfold sectorOf
    lia
  rw [hnext] at hbus hlim
  have hwd : w.dev.insideFls = some c.density := by
    rw [hw]
    unfold Fast.turn
    simp only [flushSector_insideFls]
    split
    · rw [flushSector_insideFls, h.installed]
    · exact h.installed
  have hsess : session s x = some (tlsFlsFastWriteDestroy ⟨w.dev, some w.cache, w.gsSector⟩) := by
    unfold session
    rw [init_free c h, hx]
    simp only [fastWrites, hcall]
    rfl
  refine ⟨_, hsess, ?_⟩
  unfold tlsFlsFastWriteDestroy
  simp only [hwd]
  have hws : w.gsSector = x.addr / 4096 + 1 := by rw [hw]
  have hwc : w.cache = buf := by rw [hw]
  rw [hws, hwc, flushSector_mem _ hlim hb, hbus, hsec]
  have hself := slice_overlay w.dev.mem (x.addr % 2 ^ 27 + 4096) buf
  rw [hb] at hself
  exact hself

/-- The first session after a reset writes one sector of zeros to `CODE_UPD_START_ADDR`: the sector
behind it is lost. -/
theorem fast_write_sessions_spill :
    ¬ ∀ xs : List Session, ∀ p ∈ trace sessionStep blank2M xs, ∃ s', session p.1 p.2 = some s' ∧
      p.2.Kept p.1.dev.mem s'.dev.mem := by
  intro hall
  have hlen : (List.replicate 4096 (0#8 : Byte)).length = 4096 := List.length_replicate
  obtain ⟨s', hs', _, hkept⟩ := hall [oneWrite (List.replicate 4096 0#8)]
    (blank2M, oneWrite (List.replicate 4096 0#8)) List.mem_cons_self
  obtain ⟨s'', hs'', hslice⟩ := session_spills chip2M (s := blank2M) ⟨rfl, rfl⟩
    (x := oneWrite (List.replicate 4096 0#8)) rfl hlen (by decide) (by decide)
  obtain rfl : s' = s'' := Option.some.inj (hs'.symm.trans hs'')
  have hcell : (slice s'.dev.mem 0x11000 4096)[0]? = some (s'.dev.mem 0x11000) := by
    rw [slice_getElem?, if_pos (by omega)]
  have hzero : s'.dev.mem 0x11000 = 0#8 := by
    have hsl : slice s'.dev.mem 0x11000 4096 = List.replicate 4096 0#8 := hslice
    rw [hsl, List.getElem?_replicate, if_pos (by omega)] at hcell
    exact (Option.some.inj hcell).symm
  have hold : s'.dev.mem 0x11000 = 0xFF#8 := by
    apply hkept 0x11000
    right
    rw [oneWrite_data, hlen]
    decide
  rw [hold] at hzero
  exact absurd hzero (by decide)

end Fls
end Air101
