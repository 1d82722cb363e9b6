import Mathlib.Data.List.Basic

/-!
# Storage.Paths

Paths of a machine whose steps carry labels and need not be enabled.

* `Path R s as s'`: the labels `as` lead from `s` to `s'`.
* `Path.inv`: an invariant of the steps holds at the end of a path.
* `Path.refines`: if the steps from states with an invariant are steps of another machine, so are the
  paths; `Path.simulates` is the same for a relation between the states.
* `exec step s as`: the state behind the labels, if each of them is enabled.
* `Path.reaches`: a rank that the steps of one kind lower, and that no step raises, bounds how many of
  them a path can hold before it reaches its goal.
-/

namespace Storage

variable {σ α : Type}

/-- The labels `as` lead from one state to another. -/
inductive Path (R : σ → α → σ → Prop) : σ → List α → σ → Prop where
  | nil (s : σ) : Path R s [] s
  | cons {s s' s'' : σ} {a : α} {as : List α} : R s a s' → Path R s' as s'' → Path R s (a :: as) s''

section Paths

variable {R : σ → α → σ → Prop}

theorem Path.inv (Inv : σ → Prop) (hstep : ∀ s a s', R s a s' → Inv s → Inv s') {s s' : σ} {as : List α}
    (h : Path R s as s') (hs : Inv s) : Inv s' := by
  induction h with
  | nil s => exact hs
  | cons hr _ ih => exact ih (hstep _ _ _ hr hs)

theorem Path.refines {τ : Type} {R' : τ → α → τ → Prop} (Inv : σ → Prop) (f : σ → τ)
    (hstep : ∀ s a s', R s a s' → Inv s → Inv s' ∧ R' (f s) a (f s')) {s s' : σ} {as : List α}
    (h : Path R s as s') (hs : Inv s) : Path R' (f s) as (f s') := by
  induction h with
  | nil s => exact .nil _
  | cons hr _ ih =>
    obtain ⟨hinv, hr'⟩ := hstep _ _ _ hr hs
    exact .cons hr' (ih hinv)

theorem Path.simulates {τ : Type} {R' : τ → α → τ → Prop} (Rel : σ → τ → Prop)
    (hstep : ∀ s a s' t, R s a s' → Rel s t → ∃ t', R' t a t' ∧ Rel s' t') {s s' : σ} {as : List α}
    (h : Path R s as s') {t : τ} (ht : Rel s t) : ∃ t', Path R' t as t' ∧ Rel s' t' := by
  induction h generalizing t with
  | nil s => exact ⟨t, .nil t, ht⟩
  | cons hr _ ih =>
    obtain ⟨t1, hr1, ht1⟩ := hstep _ _ _ _ hr ht
    obtain ⟨t', hp, ht'⟩ := ih ht1
    exact ⟨t', .cons hr1 hp, ht'⟩

theorem Path.split {s s' : σ} {as bs : List α} (h : Path R s (as ++ bs) s') :
    ∃ m, Path R s as m ∧ Path R m bs s' := by
  induction as generalizing s with
  | nil => exact ⟨s, .nil s, h⟩
  | cons a as ih =>
    cases h with
    | cons hr hp =>
      obtain ⟨m, hfirst, hsecond⟩ := ih hp
      exact ⟨m, .cons hr hfirst, hsecond⟩

/-- A path with as many steps of the kind `p` as the rank of its first state passes through the goal. -/
theorem Path.reaches (Inv Goal : σ → Prop) (p : α → Bool) (rank : σ → Nat)
    (hinv : ∀ s a s', R s a s' → Inv s → Inv s')
    (hrank : ∀ s a s', R s a s' → Inv s → ¬ Goal s →
      Goal s' ∨ (rank s' ≤ rank s ∧ (p a = true → rank s' < rank s)))
    {s s' : σ} {as : List α} (h : Path R s as s') (hs : Inv s) (hmany : rank s < as.countP p) :
    ∃ bs cs m, as = bs ++ cs ∧ Path R s bs m ∧ Path R m cs s' ∧ Goal m := by
  induction h with
  | nil s => simp at hmany
  | @cons s s' s'' a as hr hp ih =>
    by_cases hg : Goal s
    · exact ⟨[], a :: as, s, rfl, .nil s, .cons hr hp, hg⟩
    · rcases hrank _ _ _ hr hs hg with hg' | ⟨hle, hlt⟩
      · exact ⟨[a], as, s', rfl, .cons hr (.nil _), hp, hg'⟩
      · have hcount : rank s' < as.countP p := by
          rw [List.countP_cons] at hmany
          cases hpa : p a with
          | true =>
            have := hlt hpa
            rw [if_pos hpa] at hmany
            omega
          | false =>
            rw [if_neg (by rw [hpa]; decide)] at hmany
            omega
        obtain ⟨bs, cs, m, rfl, hb, hc, hm⟩ := ih (hinv _ _ _ hr hs) hcount
        exact ⟨a :: bs, cs, m, rfl, .cons hr hb, hc, hm⟩

end Paths

/-- The state behind the labels `as`, if each of them is enabled where it stands. -/
def exec (step : σ → α → Option σ) : σ → List α → Option σ
  | s, [] => some s
  | s, a :: as =>
    match step s a with
    | none => none
    | some s' => exec step s' as

theorem exec_path {step : σ → α → Option σ} : ∀ {as : List α} {s s' : σ}, exec step s as = some s' →
    Path (fun s a s' => step s a = some s') s as s' := by
  intro as
  induction as with
  | nil =>
    intro s s' h
    cases h
    exact .nil s
  | cons a as ih =>
    intro s s' h
    simp only [exec] at h
    cases hs : step s a with
    | none =>
      rw [hs] at h
      cases h
    | some m =>
      rw [hs] at h
      exact .cons hs (ih h)

end Storage
