import Air101.Storage.Paths
import Mathlib.Data.List.Basic

/-!
# Storage.Erasable

What a file system may rely on of a device whose blocks are erased before they are programmed.

* `Erasable.Step s e s'`: an erase, a program, a read that returns what is known of its cells.
* `Erasable.kept`: cells that no call touches stay known.
* `Erasable.reads_back`: what was programmed into erased cells is read, whatever is done to other cells
  in between.
-/

namespace Storage
namespace Erasable

variable {α : Type}

/-- What is known of a cell. -/
inductive Cell (α : Type) where
  | unknown
  | erased
  | holds (v : α)

/-- A cell that is programmed without an erase is unknown. -/
def Cell.program (v : α) : Cell α → Cell α
  | .erased => .holds v
  | _ => .unknown

inductive Event (α : Type) where
  | read (block off : Nat) (data : List α)
  | prog (block off : Nat) (data : List α)
  | erase (block : Nat)
  /-- a program that does nothing, for want of memory -/
  | refused
  /-- another failure, which no step has -/
  | failed

/-- The cells by block and place in the block. -/
abbrev Contents (α : Type) := Nat → Nat → Cell α

def prog (s : Contents α) (block off : Nat) (data : List α) : Contents α := fun b o =>
  if b = block ∧ off ≤ o then ((data[o - off]?).map fun v => (s b o).program v).getD (s b o)
  else s b o

def erase (s : Contents α) (block : Nat) : Contents α := fun b o =>
  if b = block then .erased else s b o

inductive Step : Contents α → Event α → Contents α → Prop where
  | read {s : Contents α} {block off : Nat} {data : List α} :
    (∀ (i : Nat) (v w : α), data[i]? = some v → s block (off + i) = .holds w → v = w) →
      Step s (.read block off data) s
  | prog (s : Contents α) (block off : Nat) (data : List α) :
    Step s (.prog block off data) (prog s block off data)
  | erase (s : Contents α) (block : Nat) : Step s (.erase block) (erase s block)
  | refused (s : Contents α) : Step s .refused s

/-- The event changes the cell. -/
def Event.Touches (b o : Nat) : Event α → Prop
  | .prog block off data => block = b ∧ off ≤ o ∧ o < off + data.length
  | .erase block => block = b
  | _ => False

variable {s s' : Contents α} {b o off : Nat}

theorem Step.kept {e : Event α} (h : Step s e s') (hno : ¬ e.Touches b o) : s' b o = s b o := by
  cases h with
  | read => rfl
  | refused => rfl
  | erase block =>
    rw [Erasable.erase, if_neg]
    intro hb
    exact hno hb.symm
  | prog block off data =>
    rw [Erasable.prog]
    split
    case isTrue hin =>
      have hout : data.length ≤ o - off := by
        by_contra hlt
        exact hno ⟨hin.1.symm, hin.2, by omega⟩
      rw [List.getElem?_eq_none hout]
      rfl
    case isFalse => rfl

theorem kept {es : List (Event α)} (h : Path Step s es s') (hno : ∀ e ∈ es, ¬ e.Touches b o) :
    s' b o = s b o := by
  induction h with
  | nil => rfl
  | cons hstep _ ih =>
    rw [ih fun e he => hno e (List.mem_cons_of_mem _ he)]
    exact hstep.kept (hno _ List.mem_cons_self)

theorem prog_erased {data : List α} {i : Nat} {v : α} (hv : data[i]? = some v)
    (hs : s b (off + i) = .erased) : prog s b off data b (off + i) = .holds v := by
  rw [prog, if_pos ⟨rfl, Nat.le_add_right off i⟩, Nat.add_sub_cancel_left, hv, hs]
  rfl

/-- Between the erase, the program and the read there may be any calls that do not touch its cells. -/
theorem reads_back {as bs cs ds : List (Event α)} {data got : List α}
    (h : Path Step s (as ++ .erase b :: (bs ++ .prog b off data :: (cs ++ .read b off got :: ds))) s')
    (hbs : ∀ e ∈ bs, ∀ i < data.length, ¬ e.Touches b (off + i))
    (hcs : ∀ e ∈ cs, ∀ i < data.length, ¬ e.Touches b (off + i)) (hlen : got.length = data.length) :
    got = data := by
  obtain ⟨s1, -, h1⟩ := h.split
  cases h1 with
  | cons herase h2 =>
    cases herase with
    | erase =>
      obtain ⟨s2, hbefore, h3⟩ := h2.split
      cases h3 with
      | cons hprog h4 =>
        cases hprog with
        | prog =>
          obtain ⟨s3, hafter, h5⟩ := h4.split
          cases h5 with
          | cons hread _ =>
            cases hread with
            | read hknown =>
              refine List.ext_getElem hlen fun i hi hi' => ?_
              have herased : s2 b (off + i) = .erased := by
                rw [kept hbefore fun e he => hbs e he i hi', erase, if_pos rfl]
              have hholds : s3 b (off + i) = .holds data[i] := by
                rw [kept hafter fun e he => hcs e he i hi']
                exact prog_erased (List.getElem?_eq_getElem hi') herased
              exact hknown i _ _ (List.getElem?_eq_getElem hi) hholds

end Erasable
end Storage
