import Air101.Fls.Torn
import Air101.Fota.Download

/-!
# Fota.Progress

A download as its data alone: which bytes have been handed to `tls_fls_write`, in which pieces and to
which places, and which still wait in the buffer. No command is sent here: a piece is laid over the
cells (`laid`), and the header test looks at the first 64 cells of the zone. A reset tears the piece
that it falls in (`torn`), and `leftAt` is what it leaves.

* `Trail.piece`: the commands of one more piece, cut off anywhere.
-/

namespace Air101
namespace Fota

open Storage
open Crypto
open Fls

/-! ## The pieces -/

/-- A piece of the data and its place in the chip. -/
structure Piece where
  place : Nat
  bytes : List Byte

/-- The cells of a flash `m` with the pieces over them. -/
def laid (m : Nat → Byte) (ps : List Piece) : Nat → Byte :=
  ps.foldl (fun m q => overlay m q.place q.bytes) m

/-- The number of flash commands of a piece: an erase and 16 pages for each sector it meets. -/
def Piece.commands (q : Piece) : Nat := 17 * sectorsMet q.place q.bytes.length

/-- The cells after `j` flash commands of the pieces. -/
def torn : (Nat → Byte) → List Piece → Nat → Nat → Byte
  | m, [], _ => m
  | m, q :: ps, j =>
    if j < q.commands then tear m q.place q.bytes j
    else torn (overlay m q.place q.bytes) ps (j - q.commands)

@[simp] theorem laid_nil (m : Nat → Byte) : laid m [] = m := rfl

@[simp] theorem laid_cons (m : Nat → Byte) (q : Piece) (ps : List Piece) :
    laid m (q :: ps) = laid (overlay m q.place q.bytes) ps := rfl

theorem torn_cons (m : Nat → Byte) (q : Piece) (ps : List Piece) (j : Nat) :
    torn m (q :: ps) j = if j < q.commands then tear m q.place q.bytes j
      else torn (overlay m q.place q.bytes) ps (j - q.commands) := rfl

/-! ## The data -/

/-- The pieces that went into flash, the offset of the next one, the bytes in the buffer, and whether
the header has been found good. -/
structure Progress where
  pieces : List Piece
  offset : Nat
  staged : List Byte
  checked : Bool

namespace Progress

/-- Nothing has come in. -/
def start : Progress := ⟨[], 0, [], false⟩

/-- The number of bytes taken, of 32 bits. -/
def total (p : Progress) : Nat := (p.offset + p.staged.length) % 2 ^ 32

/-- Bytes put into the buffer. -/
def stage (p : Progress) (bs : List Byte) : Progress := { p with staged := p.staged ++ bs }

section Calls

variable (hw : Engine) (z : Zone)

/-- The buffer goes behind what was handed over before. The chip takes 27 bits of the address and
refuses a piece that starts behind its end. -/
def flush (p : Progress) : Progress :=
  if p.staged = [] then p
  else { p with
    pieces := if (z.base + p.offset) % 2 ^ 27 < z.density then
      p.pieces ++ [⟨(z.base + p.offset) % 2 ^ 27, p.staged⟩] else p.pieces
    offset := p.total
    staged := [] }

/-- The `n` full buffers of `bs` go out as long as they end in the zone. When the next one does not,
`true`: what is behind it is lost. -/
def buffers : Nat → Progress → List Byte → Progress × Bool
  | 0, p, bs => ({ p with staged := bs }, false)
  | n + 1, p, bs =>
    if z.size < (p.offset + 0x8000) % 2 ^ 32 then ({ p with staged := bs.take 0x8000 }, true)
    else buffers n (flush z { p with staged := bs.take 0x8000 }) (bs.drop 0x8000)

/-- Data comes in behind the buffer. -/
def copy (p : Progress) (data : List Byte) : Progress × Bool :=
  if data = [] then (p, false)
  else p.buffers z ((p.staged ++ data).length / 0x8000) (p.staged ++ data)

/-- The header is tested once 64 bytes are there, with everything in flash. -/
def check (m : Nat → Byte) (p : Progress) : Progress :=
  if p.checked = false ∧ 64 ≤ p.total then
    { p.flush z with checked := decide (HeadOk hw (slice (laid m (p.flush z).pieces) z.base 64)) }
  else p

/-- The data of a call; `m` is the flash with the zone cleared. -/
def feed (m : Nat → Byte) (p : Progress) : Call → Progress
  | .write data => if (p.copy z data).2 then (p.copy z data).1 else (p.copy z data).1.check hw z m
  | .done => if z.size < p.total then p else p.flush z
  | _ => p

end Calls

end Progress

/-! ## The reset -/

/-- A flash `m` with the zone cleared. -/
def cleared (z : Zone) (m : Nat → Byte) : Nat → Byte := (Op.erase z.base (z.size / 4096 * 4096)).apply m

/-- What a reset after `k` flash commands leaves of a flash `m` and the pieces of a download: the zone is
cleared first. -/
def leftAt (z : Zone) (m : Nat → Byte) (ps : List Piece) (k : Nat) : Nat → Byte :=
  if k < z.size / 4096 then (Op.erase z.base (k * 4096)).apply m
  else torn (cleared z m) ps (k - z.size / 4096)

/-- The number of flash commands of the pieces. -/
def commandCount (ps : List Piece) : Nat := (ps.map Piece.commands).sum

@[simp] theorem commandCount_nil : commandCount [] = 0 := rfl

@[simp] theorem commandCount_cons (q : Piece) (ps : List Piece) :
    commandCount (q :: ps) = q.commands + commandCount ps := rfl

theorem commandCount_snoc (ps : List Piece) (q : Piece) :
    commandCount (ps ++ [q]) = commandCount ps + q.commands := by
  simp [commandCount]

/-- Once all commands are sent the pieces are laid. -/
theorem torn_end (ps : List Piece) : ∀ (m : Nat → Byte) (j : Nat), commandCount ps ≤ j →
    torn m ps j = laid m ps := by
  induction ps with
  | nil => intro m j _; rfl
  | cons q ps ih =>
    intro m j h
    rw [commandCount_cons] at h
    rw [torn, if_neg (by omega), ih _ _ (by omega), laid_cons]

/-- A cut in one more piece, or before it. -/
theorem torn_snoc (ps : List Piece) (q : Piece) : ∀ (m : Nat → Byte) (j : Nat),
    torn m (ps ++ [q]) j = if j < commandCount ps then torn m ps j
      else torn (laid m ps) [q] (j - commandCount ps) := by
  induction ps with
  | nil => intro m j; simp
  | cons r ps ih =>
    intro m j
    rw [List.cons_append, torn_cons, ih, torn_cons m r ps, commandCount_cons, laid_cons, Nat.sub_sub]
    generalize r.commands = k
    by_cases h1 : j < k
    · rw [if_pos h1, if_pos h1, if_pos (by omega)]
    · rw [if_neg h1, if_neg h1]
      by_cases h2 : j - k < commandCount ps
      · rw [if_pos h2, if_pos (by omega)]
      · rw [if_neg h2, if_neg (by omega)]

/-- The flash commands `ops` lay the pieces one after the other: after any number of them the cells are
what the cut leaves. -/
structure Trail (m : Nat → Byte) (ps : List Piece) (ops : List Op) : Prop where
  length_eq : ops.length = commandCount ps
  torn_eq : ∀ j, run m (ops.take j) = torn m ps j

theorem trail_nil (m : Nat → Byte) : Trail m [] [] :=
  ⟨rfl, fun j => by rw [List.take_nil, run_nil, torn]⟩

theorem Trail.run_eq {m : Nat → Byte} {ps : List Piece} {ops : List Op} (h : Trail m ps ops) :
    run m ops = laid m ps := by
  have hall := h.torn_eq ops.length
  rw [List.take_length, h.length_eq, torn_end ps m _ (Nat.le_refl _)] at hall
  exact hall

/-- The commands of one more piece. -/
theorem Trail.piece {m : Nat → Byte} {ps : List Piece} {ops : List Op} (h : Trail m ps ops) {q : Piece}
    (hne : q.bytes ≠ []) (hend : q.place + q.bytes.length ≤ 2 ^ 25) :
    Trail m (ps ++ [q]) (ops ++
      writeSectors q.bytes.length (run m ops) (q.place / 4096) (q.place % 4096) q.bytes) := by
  have hsplit : q.place / 4096 * 4096 + q.place % 4096 = q.place := by omega
  have hoff : q.place % 4096 < 4096 := Nat.mod_lt _ (by omega)
  have hcount := writeSectors_length q.bytes.length (run m ops) (q.place / 4096) (q.place % 4096) q.bytes
    (Nat.le_refl _) hne hoff
  have htorn := fun j => writeSectors_take q.bytes.length (run m ops) (q.place / 4096) (q.place % 4096)
    q.bytes j (Nat.le_refl _) hne hoff (by rw [hsplit]; exact hend)
  have hrun := writeSectors_run q.bytes.length (run m ops) (q.place / 4096) (q.place % 4096) q.bytes
    (Nat.le_refl _) hne hoff (by rw [hsplit]; exact hend)
  rw [hsplit, ← Piece.commands] at hcount
  rw [hsplit] at hrun
  simp only [hsplit] at htorn
  generalize writeSectors q.bytes.length _ _ _ q.bytes = ops' at hcount htorn hrun ⊢
  refine ⟨by rw [List.length_append, h.length_eq, hcount, commandCount_snoc], fun j => ?_⟩
  rw [torn_snoc, ← h.length_eq, torn]
  rcases run_take_append m ops ops' j with ⟨hlt, e⟩ | ⟨hge, e⟩
  · -- the cut is in an earlier piece
    rw [e, h.torn_eq, if_pos hlt]
  · rw [e, if_neg (by omega), ← h.run_eq]
    split
    · rename_i hin
      exact htorn _ hin
    · rename_i hdone
      rw [List.take_of_length_le (by omega), hrun, torn]

end Fota
end Air101
