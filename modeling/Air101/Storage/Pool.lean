import Air101.Storage.Paths
import Mathlib.Logic.Function.Basic

/-!
# Storage.Pool

A pool of things, each of which is granted to one user at a time.

* `Pool.Step p e p'`: a grant, a refusal while all are granted, a release, a use of what is granted.
* `Pool.kept`: what is not released stays with its user.
* `Pool.exclusive`: nothing is granted twice without a release between.
-/

namespace Storage
namespace Pool

variable {κ μ : Type}

/-- A grant holds what the user asked for. -/
inductive Event (κ μ : Type) where
  | grant (c : κ) (m : μ)
  | refuse
  | release (c : κ)
  | use (c : κ)
  | silent

variable [DecidableEq κ]

inductive Step : (κ → Option μ) → Event κ μ → (κ → Option μ) → Prop where
  | grant {p : κ → Option μ} {c : κ} (m : μ) : p c = none →
    Step p (.grant c m) (Function.update p c (some m))
  | refuse {p : κ → Option μ} : (∀ c, p c ≠ none) → Step p .refuse p
  | release (p : κ → Option μ) (c : κ) : Step p (.release c) (Function.update p c none)
  | use {p : κ → Option μ} {c : κ} : p c ≠ none → Step p (.use c) p
  | silent (p : κ → Option μ) : Step p .silent p

variable {p p' : κ → Option μ} {c : κ}

/-- What is still granted after a release. -/
theorem released_iff {d : κ} : Function.update p c none d ≠ none ↔ d ≠ c ∧ p d ≠ none := by
  rcases eq_or_ne d c with rfl | hne
  · simp
  · simp [hne]

theorem Step.kept {e : Event κ μ} (h : Step p e p') (hc : p c ≠ none) (hno : e ≠ .release c) :
    p' c = p c ∧ ∀ m, e ≠ .grant c m := by
  cases h with
  | @grant d m hd =>
    have hne : c ≠ d := by
      rintro rfl
      exact hc hd
    refine ⟨Function.update_of_ne hne _ _, fun n hn => ?_⟩
    cases hn
    exact hne rfl
  | release d =>
    have hne : c ≠ d := by
      rintro rfl
      exact hno rfl
    exact ⟨Function.update_of_ne hne _ _, fun n hn => by cases hn⟩
  | refuse => exact ⟨rfl, fun n hn => by cases hn⟩
  | use => exact ⟨rfl, fun n hn => by cases hn⟩
  | silent => exact ⟨rfl, fun n hn => by cases hn⟩

theorem kept {es : List (Event κ μ)} (h : Path Step p es p') (hc : p c ≠ none)
    (hno : .release c ∉ es) : p' c = p c ∧ ∀ m, .grant c m ∉ es := by
  induction h with
  | nil => exact ⟨rfl, fun m hm => by cases hm⟩
  | cons hstep hrest ih =>
    rw [List.mem_cons, not_or] at hno
    obtain ⟨hsame, hother⟩ := hstep.kept hc (Ne.symm hno.1)
    obtain ⟨hrest, hnone⟩ := ih (by rwa [hsame]) hno.2
    refine ⟨hrest.trans hsame, fun m hm => ?_⟩
    rcases List.mem_cons.mp hm with heq | hm
    · exact hother m heq.symm
    · exact hnone m hm

theorem exclusive {as bs cs : List (Event κ μ)} {m n : μ}
    (h : Path Step p (as ++ .grant c m :: (bs ++ .grant c n :: cs)) p') : .release c ∈ bs := by
  obtain ⟨q, -, hgrant⟩ := h.split
  cases hgrant with
  | cons hfirst hrest =>
    cases hfirst with
    | grant m hfree =>
      have hheld : Function.update q c (some m) c ≠ none := by simp
      by_contra hno
      obtain ⟨r, hbetween, hafter⟩ := hrest.split
      obtain ⟨hsame, -⟩ := kept hbetween hheld hno
      cases hafter with
      | cons hsecond _ =>
        cases hsecond with
        | grant n hagain => exact hheld (hsame.symm.trans hagain)

end Pool
end Storage
