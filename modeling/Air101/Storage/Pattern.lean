import Air101.Storage.Text

/-!
# Storage.Pattern

Line patterns: literal texts, repeated characters of a class, greedy or lazy, groups, and the end of
the line.

* `candidates`: the matches at the front of a text, in the order in which a backtracking matcher
  meets them; `firstMatch` has the groups of the first one.
* `Fits`: what a pattern says of the text it takes. `mem_candidates` is the correctness of the
  matcher.
-/

namespace Storage

inductive Pattern where
  | text (t : Text)
  | many (cls : Char → Bool) (least : Nat) (greedy : Bool)
  | seq (p q : Pattern)
  | group (p : Pattern)
  | atEnd

namespace Pattern

/-- One pattern after the other. -/
def concat : List Pattern → Pattern
  | [] => .text []
  | p :: ps => .seq p (concat ps)

structure Candidate where
  taken : Text
  groups : List Text
  rest : Text

/-- The ways to take characters of a class from the front, the shortest first. -/
def splits (cls : Char → Bool) : Text → List (Text × Text)
  | [] => [([], [])]
  | c :: s =>
    ([], c :: s) :: if cls c then (splits cls s).map fun t => (c :: t.1, t.2) else []

def candidates : Pattern → Text → List Candidate
  | .text t, s => if t.isPrefixOf s then [⟨t, [], s.drop t.length⟩] else []
  | .many cls least greedy, s =>
    let found := (splits cls s).filter fun t => least ≤ t.1.length
    (if greedy then found.reverse else found).map fun t => ⟨t.1, [], t.2⟩
  | .seq p q, s =>
    (candidates p s).flatMap fun m =>
      (candidates q m.rest).map fun m' =>
        ⟨m.taken ++ m'.taken, m.groups ++ m'.groups, m'.rest⟩
  | .group p, s => (candidates p s).map fun m => ⟨m.taken, m.taken :: m.groups, m.rest⟩
  | .atEnd, s => if s = [] ∨ s = ['\n'] then [⟨[], [], s⟩] else []

/-- The groups of the match that is tried first. -/
def firstMatch (p : Pattern) (s : Text) : Option (List Text) :=
  ((candidates p s).head?).map (·.groups)

/-- The pattern takes a text, with these groups, in front of the rest. -/
def Fits : Pattern → Text → List Text → Text → Prop
  | .text t, taken, groups, _ => taken = t ∧ groups = []
  | .many cls least _, taken, groups, _ =>
    (∀ c ∈ taken, cls c = true) ∧ least ≤ taken.length ∧ groups = []
  | .seq p q, taken, groups, rest =>
    ∃ t u g h, taken = t ++ u ∧ groups = g ++ h ∧ Fits p t g (u ++ rest) ∧ Fits q u h rest
  | .group p, taken, groups, rest => ∃ g, groups = taken :: g ∧ Fits p taken g rest
  | .atEnd, taken, groups, rest => taken = [] ∧ groups = [] ∧ (rest = [] ∨ rest = ['\n'])

theorem mem_splits {cls : Char → Bool} {s t u : Text} :
    (t, u) ∈ splits cls s ↔ s = t ++ u ∧ ∀ c ∈ t, cls c = true := by
  induction s generalizing t with
  | nil =>
    rw [splits, List.mem_singleton, Prod.mk.injEq]
    constructor
    · rintro ⟨rfl, rfl⟩
      simp
    · rintro ⟨h, -⟩
      exact List.append_eq_nil_iff.mp h.symm
  | cons c s ih =>
    rw [splits, List.mem_cons, Prod.mk.injEq]
    constructor
    · rintro (⟨rfl, rfl⟩ | h)
      · simp
      · split at h
        · rename_i hc
          obtain ⟨⟨t', u'⟩, hmem, heq⟩ := List.mem_map.mp h
          cases heq
          obtain ⟨rfl, hcls⟩ := ih.mp hmem
          exact ⟨rfl, List.forall_mem_cons.mpr ⟨hc, hcls⟩⟩
        · cases h
    · rintro ⟨h, hcls⟩
      cases t with
      | nil => exact .inl ⟨rfl, h.symm⟩
      | cons c' t =>
        obtain ⟨rfl, rfl⟩ := List.cons.inj h
        obtain ⟨hc, hcls⟩ := List.forall_mem_cons.mp hcls
        right
        rw [if_pos hc]
        exact List.mem_map.mpr ⟨(t, u), ih.mpr ⟨rfl, hcls⟩, rfl⟩

/-- The matcher finds what fits, and nothing else. -/
theorem mem_candidates {p : Pattern} {s : Text} {m : Candidate} :
    m ∈ candidates p s ↔ s = m.taken ++ m.rest ∧ Fits p m.taken m.groups m.rest := by
  induction p generalizing s m with
  | text t =>
    simp only [candidates, Fits]
    constructor
    · intro h
      split at h
      · rename_i hpre
        rw [List.mem_singleton.mp h]
        obtain ⟨u, rfl⟩ := List.isPrefixOf_iff_prefix.mp hpre
        simp
      · cases h
    · rintro ⟨rfl, htaken, hgroups⟩
      obtain ⟨taken, groups, rest⟩ := m
      subst htaken hgroups
      simp
  | many cls least greedy =>
    obtain ⟨taken, groups, rest⟩ := m
    have hmem : (⟨taken, groups, rest⟩ : Candidate) ∈ candidates (.many cls least greedy) s ↔
        groups = [] ∧ (taken, rest) ∈ splits cls s ∧ least ≤ taken.length := by
      simp only [candidates, List.mem_map, Candidate.mk.injEq, Prod.exists]
      have hrev : ∀ t, t ∈ (if greedy then
          ((splits cls s).filter fun t => least ≤ t.1.length).reverse
          else (splits cls s).filter fun t => least ≤ t.1.length) ↔
          t ∈ splits cls s ∧ least ≤ t.1.length := by
        intro t
        split <;> simp
      simp only [hrev]
      constructor
      · rintro ⟨t, u, h, rfl, rfl, rfl⟩
        exact ⟨rfl, h⟩
      · rintro ⟨rfl, h⟩
        exact ⟨taken, rest, h, rfl, rfl, rfl⟩
    rw [hmem, mem_splits, Fits]
    tauto
  | seq p q ihp ihq =>
    simp only [candidates, Fits, List.mem_flatMap, List.mem_map]
    constructor
    · rintro ⟨a, ha, b, hb, rfl⟩
      obtain ⟨rfl, hp⟩ := ihp.mp ha
      obtain ⟨hrest, hq⟩ := ihq.mp hb
      refine ⟨by rw [List.append_assoc, ← hrest], _, _, _, _, rfl, rfl, ?_, hq⟩
      rw [← hrest]
      exact hp
    · rintro ⟨rfl, t, u, g, h, htaken, hgroups, hp, hq⟩
      refine ⟨⟨t, g, u ++ m.rest⟩, ihp.mpr ⟨by rw [htaken, List.append_assoc], hp⟩,
        ⟨u, h, m.rest⟩, ihq.mpr ⟨rfl, hq⟩, ?_⟩
      rw [← htaken, ← hgroups]
  | group p ih =>
    simp only [candidates, Fits, List.mem_map]
    constructor
    · rintro ⟨a, ha, rfl⟩
      obtain ⟨hs, hp⟩ := ih.mp ha
      exact ⟨hs, a.groups, rfl, hp⟩
    · rintro ⟨hs, g, hgroups, hp⟩
      refine ⟨⟨m.taken, g, m.rest⟩, ih.mpr ⟨hs, hp⟩, ?_⟩
      rw [← hgroups]
  | atEnd =>
    simp only [candidates, Fits]
    constructor
    · intro h
      split at h
      · rename_i hend
        rw [List.mem_singleton.mp h]
        exact ⟨rfl, rfl, rfl, hend⟩
      · cases h
    · rintro ⟨rfl, htaken, hgroups, hend⟩
      obtain ⟨taken, groups, rest⟩ := m
      subst htaken hgroups
      simp only [List.nil_append]
      rw [if_pos hend]
      exact List.mem_singleton.mpr rfl

theorem fits_of_firstMatch {p : Pattern} {s : Text} {groups : List Text}
    (h : firstMatch p s = some groups) : ∃ taken rest, s = taken ++ rest ∧ Fits p taken groups rest := by
  obtain ⟨m, hm, rfl⟩ := Option.map_eq_some_iff.mp h
  obtain ⟨hs, hfits⟩ := mem_candidates.mp (List.mem_of_mem_head? hm)
  exact ⟨m.taken, m.rest, hs, hfits⟩

/-- A group without groups in it, behind repeated characters at the front of a line pattern. -/
theorem fits_many_group {cls : Char → Bool} {least : Nat} {greedy : Bool} {p : Pattern}
    {ps : List Pattern} {taken g rest : Text} {gs : List Text}
    (hflat : ∀ t h r, Fits p t h r → h = [])
    (h : Fits (concat (.many cls least greedy :: .group p :: ps)) taken (g :: gs) rest) :
    (∃ r, Fits p g [] r) ∧ ∃ u, Fits (concat ps) u gs rest := by
  obtain ⟨_, _, _, _, -, hgroups, ⟨-, -, rfl⟩, t, u, _, gs', -, rfl, ⟨g', rfl, hp⟩, hps⟩ := h
  cases hflat t g' _ hp
  cases hgroups
  exact ⟨⟨_, hp⟩, u, hps⟩

end Pattern

end Storage
