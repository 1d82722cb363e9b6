import Air101.Maptool.Parser

/-!
# Maptool.Attribution

What the parser knows of the functions and the anonymous objects before it shares the sizes out.

* `edgesOf`, `entriesOf`: what the lines of a map file say.
* `Tracks`: the variables of the parser against that. `tracks_addEdge` and `tracks_addEntry` are the
  two kinds of line that count, `parse_tracks` is the whole file.
-/

namespace Air101
namespace Maptool

open Storage

/-! ## What the lines say -/

/-- The lines that are no separators, without their ends, each with the section it is in. -/
def sectionLines : ParseState → List Text → List (ParseState × Text)
  | _, [] => []
  | state, line :: lines =>
    let rawLine := line.rdropWhile fun c => c == '\n' || c == '\r'
    if isSeparator rawLine then sectionLines state.next lines
    else (state, rawLine) :: sectionLines state lines

/-- The lines of a map file. -/
def mapFileLines (content : Text) : List (ParseState × Text) :=
  sectionLines .header (fileLines (universalNewlines content))

/-- The calls in the cross references. -/
def edgesOf (lines : List (ParseState × Text)) : List CallEdge :=
  lines.filterMap fun (state, line) => if state = .crossRefs then crossRef line else none

/-- The entries of the memory map. -/
def entriesOf (decimal : Char → Option Nat) (lines : List (ParseState × Text)) : List MapEntry :=
  lines.filterMap fun (state, line) =>
    if state = .memoryMap then (mapEntry decimal line).join else none

namespace MapEntry

/-- Code in a section `.text`. -/
def IsBare (e : MapEntry) : Prop := e.entryType = "Code".toList ∧ e.sectionName = ".text".toList

/-- Code in the section `.text.` of a function. -/
def Names (e : MapEntry) (x : Text) : Prop :=
  e.entryType = "Code".toList ∧ e.sectionName = textDot ++ x

/-- Code in a section that is `.text` or starts with `.text.`. -/
def IsText (e : MapEntry) : Prop :=
  e.entryType = "Code".toList ∧ (e.sectionName = ".text".toList ∨ textDot <+: e.sectionName)

instance (e : MapEntry) : Decidable e.IsBare := inferInstanceAs (Decidable (_ ∧ _))

instance (e : MapEntry) : Decidable e.IsText := inferInstanceAs (Decidable (_ ∧ _))

end MapEntry

/-- The bytes of the code sections. -/
def textBytes (entries : List MapEntry) : Nat :=
  ((entries.filter fun e => e.IsText).map (·.size)).sum

/-- A section `.text.` has this name. -/
def Named (entries : List MapEntry) (x : Text) : Prop := ∃ e ∈ entries, e.Names x

/-- A caller in an anonymous section has this name. -/
def AnonCaller (edges : List CallEdge) (x : Text) : Prop :=
  ∃ e ∈ edges, e.isCallerAnon = true ∧ e.callerFunc = x

/-- The symbols that a call says of an object. -/
def CallEdge.symbolsFor (e : CallEdge) (objPath : Text) : List Text :=
  (if e.isCalleeAnon ∧ e.calleeObj = objPath then [e.calleeFunc] else []) ++
    (if e.isCallerAnon ∧ e.callerObj = objPath then [e.callerFunc] else [])

/-- The symbols that the calls say of an object. -/
def symbolsOf (edges : List CallEdge) (objPath : Text) : List Text :=
  edges.flatMap fun e => e.symbolsFor objPath

/-- The objects with a bare section, in order of their first one. -/
def anonObjects (entries : List MapEntry) : List Text :=
  ((entries.filter fun e => e.IsBare).map (·.objPath)).eraseDups

/-- The bytes of the bare sections of an object. -/
def anonSize (entries : List MapEntry) (objPath : Text) : Nat :=
  ((entries.filter fun e => e.IsBare ∧ e.objPath = objPath).map (·.size)).sum

/-! ## The lines raise no exception -/

theorem int16_isSome {t u : Text} (ht : t = "0x".toList ++ u) (hne : 1 ≤ u.length)
    (hhex : ∀ c ∈ u, (hexDigit c).isSome = true) : (int16 t).isSome = true := by
  have hcons : t = '0' :: 'x' :: u := ht
  rw [hcons, int16]
  exact numeral_isSome (List.ne_nil_of_length_pos hne) hhex

theorem fits_hexGroup {cls : Char → Bool} {least : Nat} {greedy : Bool} {ps : List Pattern}
    {taken g rest : Text} {gs : List Text}
    (h : Pattern.Fits (Pattern.concat (.many cls least greedy :: .group hexNumber :: ps)) taken
      (g :: gs) rest) :
    (int16 g).isSome = true ∧ ∃ u, Pattern.Fits (Pattern.concat ps) u gs rest := by
  have hhex : ∀ t k r, Pattern.Fits hexNumber t k r → k = [] ∧ (int16 t).isSome = true := by
    rintro t k r ⟨_, _, _, _, rfl, rfl, ⟨rfl, rfl⟩, u, _, _, _, rfl, rfl, ⟨hdigits, hne, rfl⟩, rfl, rfl⟩
    exact ⟨rfl, int16_isSome (by simp) hne hdigits⟩
  obtain ⟨⟨r, hg⟩, hrest⟩ := Pattern.fits_many_group (fun t k r h => (hhex t k r h).1) h
  exact ⟨(hhex g [] r hg).2, hrest⟩

theorem fits_decimalGroup {decimal : Char → Option Nat} {cls : Char → Bool} {least : Nat}
    {greedy : Bool} {ps : List Pattern} {taken g rest : Text} {gs : List Text}
    (h : Pattern.Fits (Pattern.concat (.many cls least greedy :: .group (decimals decimal) :: ps))
      taken (g :: gs) rest) :
    (numeral 10 decimal g).isSome = true ∧ ∃ u, Pattern.Fits (Pattern.concat ps) u gs rest := by
  have hflat : ∀ t k r, Pattern.Fits (decimals decimal) t k r → k = [] := fun _ _ _ h => h.2.2
  obtain ⟨⟨r, hdigits, hne, -⟩, hrest⟩ := Pattern.fits_many_group hflat h
  exact ⟨numeral_isSome (List.ne_nil_of_length_pos hne) hdigits, hrest⟩

theorem mapEntry_isSome (decimal : Char → Option Nat) (line : Text) :
    (mapEntry decimal line).isSome = true := by
  unfold mapEntry
  split
  · rename_i hmatch
    obtain ⟨_, _, -, hfits⟩ := Pattern.fits_of_firstMatch hmatch
    obtain ⟨hbase, _, hfits⟩ := fits_hexGroup hfits
    obtain ⟨hsize, -⟩ := fits_hexGroup hfits
    obtain ⟨b, hb⟩ := Option.isSome_iff_exists.mp hbase
    obtain ⟨n, hn⟩ := Option.isSome_iff_exists.mp hsize
    rw [hb, hn]
    rfl
  · rfl

/-- The totals are all that a line behind the sizes changes. -/
theorem parseTotals_spec (decimal : Char → Option Nat) (line : Text) (t : Tracking) :
    ∃ totals, parseTotals decimal line t =
      some { t with result := { t.result with grandTotals := totals } } := by
  unfold parseTotals
  split
  · rename_i hmatch
    obtain ⟨_, _, -, hfits⟩ := Pattern.fits_of_firstMatch hmatch
    obtain ⟨hcode, _, hfits⟩ := fits_decimalGroup hfits
    obtain ⟨hro, _, hfits⟩ := fits_decimalGroup hfits
    obtain ⟨hrw, _, hfits⟩ := fits_decimalGroup hfits
    obtain ⟨hzi, -⟩ := fits_decimalGroup hfits
    obtain ⟨code, hcode⟩ := Option.isSome_iff_exists.mp hcode
    obtain ⟨ro, hro⟩ := Option.isSome_iff_exists.mp hro
    obtain ⟨rw', hrw⟩ := Option.isSome_iff_exists.mp hrw
    obtain ⟨zi, hzi⟩ := Option.isSome_iff_exists.mp hzi
    simp only [hcode, hro, hrw, hzi]
    split
    · exact ⟨_, rfl⟩
    · exact ⟨_, rfl⟩
  · exact ⟨_, rfl⟩

/-! ## What the parser keeps track of -/

/-- The variables of the parser against the calls and the entries that it has read. -/
structure Tracks (t : Tracking) (edges : List CallEdge) (entries : List MapEntry) : Prop where
  bytes : t.result.functions.total (·.flashSize) + t.anonObjSizes.total id = textBytes entries
  named : ∀ x, (∃ f, t.result.functions.get? x = some f ∧ f.isNamed = true) ↔ Named entries x
  known : ∀ x, x ∈ t.result.functions.keys ↔ Named entries x ∨ AnonCaller edges x
  symbols : ∀ o s, s ∈ t.symbolsOf o ↔ s ∈ symbolsOf edges o
  objects : t.anonObjSizes.keys = anonObjects entries
  sizes : ∀ o, (t.anonObjSizes.get? o).getD 0 = anonSize entries o

theorem mem_symbolsOf (t : Tracking) (o s : Text) :
    s ∈ t.symbolsOf o ↔ s ∈ (t.objToSymbols.get? o).getD FinSet.empty ∨
      s ∈ (t.objToCallers.get? o).getD FinSet.empty := by
  unfold Tracking.symbolsOf
  cases t.objToSymbols.get? o with
  | none =>
    cases t.objToCallers.get? o with
    | none => simp
    | some b => simp [FinSet.mem_union]
  | some a =>
    cases t.objToCallers.get? o with
    | none => simp [FinSet.mem_union]
    | some b => simp [FinSet.mem_union]

theorem tracks_start (target : Text) :
    Tracks ⟨{ targetName := target }, Dict.empty, Dict.empty, Dict.empty⟩ [] [] := by
  refine ⟨rfl, ?_, ?_, ?_, rfl, fun o => rfl⟩
  · intro x
    simp [Named]
  · intro x
    simp [Named, AnonCaller]
  · intro o s
    rw [mem_symbolsOf]
    simp [symbolsOf]

section AddEdge

variable (edge : CallEdge) (t : Tracking)

theorem trackCallee_frame : (trackCallee edge t).result = t.result ∧
    (trackCallee edge t).objToCallers = t.objToCallers ∧
      (trackCallee edge t).anonObjSizes = t.anonObjSizes := by
  unfold trackCallee
  split
  · exact ⟨rfl, rfl, rfl⟩
  · exact ⟨rfl, rfl, rfl⟩

theorem trackCaller_frame : (trackCaller edge t).result = t.result ∧
    (trackCaller edge t).objToSymbols = t.objToSymbols ∧
      (trackCaller edge t).anonObjSizes = t.anonObjSizes := by
  unfold trackCaller
  split
  · exact ⟨rfl, rfl, rfl⟩
  · exact ⟨rfl, rfl, rfl⟩

theorem registerCaller_frame : (registerCaller edge t).objToSymbols = t.objToSymbols ∧
    (registerCaller edge t).objToCallers = t.objToCallers ∧
      (registerCaller edge t).anonObjSizes = t.anonObjSizes := by
  unfold registerCaller
  split
  · exact ⟨rfl, rfl, rfl⟩
  · exact ⟨rfl, rfl, rfl⟩

/-- An anonymous caller is a function, of no size yet. -/
theorem registerCaller_functions :
    ((registerCaller edge t).result.functions = t.result.functions ∧
      (edge.isCallerAnon = true → edge.callerFunc ∈ t.result.functions.keys)) ∨
    (edge.isCallerAnon = true ∧ edge.callerFunc ∉ t.result.functions.keys ∧
      ∃ f : FunctionInfo, f.flashSize = 0 ∧ f.isNamed = false ∧
        (registerCaller edge t).result.functions = t.result.functions.set edge.callerFunc f) := by
  unfold registerCaller
  split
  · rename_i h
    have hnew : edge.callerFunc ∉ t.result.functions.keys := by
      rw [← Dict.contains_iff, h.2]
      exact Bool.false_ne_true
    exact .inr ⟨h.1, hnew, _, rfl, rfl, rfl⟩
  · rename_i h
    refine .inl ⟨rfl, ?_⟩
    intro hanon
    rw [← Dict.contains_iff]
    exact Bool.eq_true_of_not_eq_false fun hno => h ⟨hanon, hno⟩

theorem addEdge_functions :
    ((addEdge edge t).result.functions = t.result.functions ∧
      (edge.isCallerAnon = true → edge.callerFunc ∈ t.result.functions.keys)) ∨
    (edge.isCallerAnon = true ∧ edge.callerFunc ∉ t.result.functions.keys ∧
      ∃ f : FunctionInfo, f.flashSize = 0 ∧ f.isNamed = false ∧
        (addEdge edge t).result.functions = t.result.functions.set edge.callerFunc f) := by
  have hframe : (trackCaller edge (trackCallee edge (appendEdge edge t))).result.functions =
      t.result.functions := by
    rw [(trackCaller_frame edge _).1, (trackCallee_frame edge _).1]
    rfl
  have h := registerCaller_functions edge (trackCaller edge (trackCallee edge (appendEdge edge t)))
  rw [hframe] at h
  exact h

theorem addEdge_anonObjSizes : (addEdge edge t).anonObjSizes = t.anonObjSizes := by
  rw [addEdge, (registerCaller_frame edge _).2.2, (trackCaller_frame edge _).2.2,
    (trackCallee_frame edge _).2.2]
  rfl

theorem addEdge_objToSymbols : (addEdge edge t).objToSymbols =
    if edge.isCalleeAnon then addTo t.objToSymbols edge.calleeObj edge.calleeFunc
    else t.objToSymbols := by
  rw [addEdge, (registerCaller_frame edge _).1, (trackCaller_frame edge _).2.1, trackCallee]
  split
  · rfl
  · rfl

theorem addEdge_objToCallers : (addEdge edge t).objToCallers =
    if edge.isCallerAnon then addTo t.objToCallers edge.callerObj edge.callerFunc
    else t.objToCallers := by
  rw [addEdge, (registerCaller_frame edge _).2.1, trackCaller, (trackCallee_frame edge _).2.1]
  split
  · rfl
  · rw [(trackCallee_frame edge _).2.1]
    rfl

theorem mem_symbolsOf_addEdge (o s : Text) :
    s ∈ (addEdge edge t).symbolsOf o ↔ s ∈ t.symbolsOf o ∨ s ∈ edge.symbolsFor o := by
  rw [mem_symbolsOf, mem_symbolsOf, addEdge_objToSymbols, addEdge_objToCallers]
  have hsymbols : s ∈ ((if edge.isCalleeAnon then
      addTo t.objToSymbols edge.calleeObj edge.calleeFunc else t.objToSymbols).get? o).getD
        FinSet.empty ↔
      (edge.isCalleeAnon ∧ edge.calleeObj = o ∧ s = edge.calleeFunc) ∨
        s ∈ (t.objToSymbols.get? o).getD FinSet.empty := by
    split
    · rename_i h
      rw [mem_addTo]
      simp [h, eq_comm]
    · rename_i h
      simp [h]
  have hcallers : s ∈ ((if edge.isCallerAnon then
      addTo t.objToCallers edge.callerObj edge.callerFunc else t.objToCallers).get? o).getD
        FinSet.empty ↔
      (edge.isCallerAnon ∧ edge.callerObj = o ∧ s = edge.callerFunc) ∨
        s ∈ (t.objToCallers.get? o).getD FinSet.empty := by
    split
    · rename_i h
      rw [mem_addTo]
      simp [h, eq_comm]
    · rename_i h
      simp [h]
  rw [hsymbols, hcallers, CallEdge.symbolsFor, List.mem_append]
  simp only [List.mem_ite_nil_right, List.mem_singleton, and_assoc]
  rw [or_or_or_comm, or_comm]

end AddEdge

/-! ## Entries of the memory map -/

/-- Two states of the parser that differ in no more than the RAM sizes. -/
def SameCode (t t' : Tracking) : Prop :=
  t'.result.functions = t.result.functions ∧ t'.objToSymbols = t.objToSymbols ∧
    t'.objToCallers = t.objToCallers ∧ t'.anonObjSizes = t.anonObjSizes

theorem updateRam_same (e : MapEntry) (f : ObjectRamInfo → ObjectRamInfo) (t : Tracking) :
    SameCode t (updateRam e f t) := ⟨rfl, rfl, rfl, rfl⟩

theorem ensureRam_same (e : MapEntry) (t : Tracking) : SameCode t (ensureRam e t) := by
  unfold ensureRam
  split
  · exact ⟨rfl, rfl, rfl, rfl⟩
  · exact updateRam_same e id t

theorem SameCode.trans {t t' t'' : Tracking} (h : SameCode t t') (h' : SameCode t' t'') :
    SameCode t t'' :=
  ⟨h'.1.trans h.1, h'.2.1.trans h.2.1, h'.2.2.1.trans h.2.2.1, h'.2.2.2.trans h.2.2.2⟩

theorem addOrUpdateFunc_spec (functions : Dict Text FunctionInfo) (name objPath : Text)
    (size : Nat) (isNamed : Bool) :
    ∃ f, addOrUpdateFunc functions name objPath size isNamed = functions.set name f ∧
      f.isNamed = isNamed ∧
      f.flashSize = ((functions.get? name).map (·.flashSize)).getD 0 + size := by
  unfold addOrUpdateFunc
  cases functions.get? name with
  | none => exact ⟨_, rfl, rfl, (Nat.zero_add size).symm⟩
  | some func =>
    refine ⟨_, rfl, rfl, ?_⟩
    simp only [Option.map_some, Option.getD_some]
    split
    · rfl
    · rfl

/-- An entry names at most one function, and none when it is bare. -/
theorem names_iff {e : MapEntry} {x : Text} : e.Names x ↔
    e.entryType = "Code".toList ∧ textDot <+: e.sectionName ∧
      x = e.sectionName.drop textDot.length := by
  refine and_congr_right fun _ => ?_
  constructor
  · intro h
    rw [h]
    exact ⟨List.prefix_append _ _, by rw [List.drop_left]⟩
  · rintro ⟨⟨y, hy⟩, rfl⟩
    rw [← hy, List.drop_left]

theorem not_names_of_bare {e : MapEntry} (h : e.IsBare) (x : Text) : ¬ e.Names x := by
  rw [names_iff, h.2]
  rintro ⟨-, hpre, -⟩
  exact absurd hpre (by decide)

/-- What an entry does to the functions and the anonymous objects. -/
inductive Added (e : MapEntry) (t t' : Tracking) : Prop where
  | named {x : Text} (hname : e.Names x)
      (hfunctions : t'.result.functions = addOrUpdateFunc t.result.functions x e.objPath e.size true)
      (hsizes : t'.anonObjSizes = t.anonObjSizes)
  | bare (hbare : e.IsBare) (hfunctions : t'.result.functions = t.result.functions)
      (hsizes : t'.anonObjSizes = t.anonObjSizes.set e.objPath
        ((t.anonObjSizes.get? e.objPath).getD 0 + e.size))
  | other (htext : ¬ e.IsText) (hfunctions : t'.result.functions = t.result.functions)
      (hsizes : t'.anonObjSizes = t.anonObjSizes)

theorem addCode_added {e : MapEntry} (hcode : e.entryType = "Code".toList) (t : Tracking) :
    Added e t (addCode e t) := by
  unfold addCode
  by_cases hpre : textDot <+: e.sectionName
  · have hne : e.sectionName ≠ ".text".toList := by
      intro h
      rw [h] at hpre
      exact absurd hpre (by decide)
    rw [if_pos ⟨List.isPrefixOf_iff_prefix.mpr hpre, hne⟩]
    exact .named (names_iff.mpr ⟨hcode, hpre, rfl⟩) rfl rfl
  · have hno : ¬ textDot.isPrefixOf e.sectionName = true := by
      rw [List.isPrefixOf_iff_prefix]
      exact hpre
    rw [if_neg fun h => hno h.1]
    by_cases hbare : e.sectionName = ".text".toList
    · rw [if_pos hbare]
      exact .bare ⟨hcode, hbare⟩ rfl rfl
    · rw [if_neg hbare, if_neg hno]
      refine .other ?_ rfl rfl
      rintro ⟨-, h | h⟩
      · exact hbare h
      · exact hpre h

theorem Added.congr {e : MapEntry} {t t₁ t' : Tracking} (h : Added e t₁ t') (hsame : SameCode t t₁) :
    Added e t t' := by
  obtain ⟨hf, -, -, hs⟩ := hsame
  cases h with
  | named hname hfunctions hsizes => exact .named hname (hf ▸ hfunctions) (hsizes.trans hs)
  | bare hbare hfunctions hsizes => exact .bare hbare (hfunctions.trans hf) (hs ▸ hsizes)
  | other htext hfunctions hsizes => exact .other htext (hfunctions.trans hf) (hsizes.trans hs)

theorem addCode_frame (e : MapEntry) (t : Tracking) :
    (addCode e t).objToSymbols = t.objToSymbols ∧ (addCode e t).objToCallers = t.objToCallers := by
  unfold addCode
  split_ifs <;> exact ⟨rfl, rfl⟩

theorem addEntry_added (e : MapEntry) (t : Tracking) : Added e t (addEntry e t) := by
  have hother : ∀ {t'}, e.entryType ≠ "Code".toList → SameCode t t' → Added e t t' :=
    fun hcode h => .other (fun htext => hcode htext.1) h.1 h.2.2.2
  have hram := ensureRam_same e t
  unfold addEntry
  by_cases hcode : e.entryType = "Code".toList
  · have hpad : e.entryType ≠ "PAD".toList := by
      rw [hcode]
      decide
    rw [if_neg hpad, if_pos hcode]
    exact (addCode_added hcode _).congr hram
  · rw [if_neg hcode]
    split_ifs
    · exact hother hcode ⟨rfl, rfl, rfl, rfl⟩
    · exact hother hcode (hram.trans (updateRam_same e _ _))
    · exact hother hcode (hram.trans (updateRam_same e _ _))
    · exact hother hcode hram

theorem addEntry_frame (e : MapEntry) (t : Tracking) :
    (addEntry e t).objToSymbols = t.objToSymbols ∧
      (addEntry e t).objToCallers = t.objToCallers := by
  obtain ⟨-, hsymbols, hcallers, -⟩ := ensureRam_same e t
  obtain ⟨hsymbols', hcallers'⟩ := addCode_frame e (ensureRam e t)
  unfold addEntry
  split_ifs
  · exact ⟨rfl, rfl⟩
  · exact ⟨hsymbols'.trans hsymbols, hcallers'.trans hcallers⟩
  · exact ⟨hsymbols, hcallers⟩
  · exact ⟨hsymbols, hcallers⟩
  · exact ⟨hsymbols, hcallers⟩

/-! ## One line more -/

theorem named_snoc (entries : List MapEntry) (e : MapEntry) (x : Text) :
    Named (entries ++ [e]) x ↔ Named entries x ∨ e.Names x := by
  simp [Named, or_and_right, exists_or]

theorem anonCaller_snoc (edges : List CallEdge) (e : CallEdge) (x : Text) :
    AnonCaller (edges ++ [e]) x ↔
      AnonCaller edges x ∨ (e.isCallerAnon = true ∧ e.callerFunc = x) := by
  simp [AnonCaller, or_and_right, exists_or]

theorem textBytes_snoc (entries : List MapEntry) (e : MapEntry) :
    textBytes (entries ++ [e]) = textBytes entries + if e.IsText then e.size else 0 := by
  unfold textBytes
  rw [List.filter_append, List.map_append, List.sum_append]
  by_cases h : e.IsText
  · simp [h]
  · simp [h]

theorem anonSize_snoc (entries : List MapEntry) (e : MapEntry) (o : Text) :
    anonSize (entries ++ [e]) o =
      anonSize entries o + if e.IsBare ∧ e.objPath = o then e.size else 0 := by
  unfold anonSize
  rw [List.filter_append, List.map_append, List.sum_append]
  by_cases h : e.IsBare ∧ e.objPath = o
  · simp [h]
  · simp [h]

theorem anonObjects_snoc (entries : List MapEntry) (e : MapEntry) :
    anonObjects (entries ++ [e]) =
      if e.IsBare ∧ e.objPath ∉ anonObjects entries then anonObjects entries ++ [e.objPath]
      else anonObjects entries := by
  unfold anonObjects
  rw [List.filter_append, List.map_append]
  by_cases h : e.IsBare
  · have hone : ([e].filter fun e => decide e.IsBare).map (·.objPath) = [e.objPath] := by
      simp [h]
    rw [hone, List.eraseDups_append]
    by_cases hmem : e.objPath ∈ (entries.filter fun e => decide e.IsBare).map (·.objPath)
    · simp [h, hmem, List.removeAll]
    · simp [h, hmem, List.removeAll, List.eraseDups_cons]
  · simp [h]

section Tracks

variable {t : Tracking} {edges : List CallEdge} {entries : List MapEntry}

theorem tracks_addEdge (h : Tracks t edges entries) (e : CallEdge) :
    Tracks (addEdge e t) (edges ++ [e]) entries := by
  have hsymbols : ∀ o s, s ∈ (addEdge e t).symbolsOf o ↔ s ∈ symbolsOf (edges ++ [e]) o := by
    intro o s
    rw [mem_symbolsOf_addEdge, h.symbols]
    simp [symbolsOf]
  have hsizes := addEdge_anonObjSizes e t
  have hobjects : (addEdge e t).anonObjSizes.keys = anonObjects entries := by
    rw [hsizes, h.objects]
  have hsize : ∀ o, ((addEdge e t).anonObjSizes.get? o).getD 0 = anonSize entries o := by
    intro o
    rw [hsizes, h.sizes]
  obtain ⟨hf, hold⟩ | ⟨hanon, hnew, f, hflash, hnamed, hf⟩ := addEdge_functions e t
  · refine ⟨?_, ?_, ?_, hsymbols, hobjects, hsize⟩
    · rw [hf, hsizes]
      exact h.bytes
    · rw [hf]
      exact h.named
    · intro x
      rw [hf, anonCaller_snoc, h.known]
      constructor
      · exact Or.imp_right .inl
      · rintro (hx | hx | ⟨hx, rfl⟩)
        · exact .inl hx
        · exact .inr hx
        · exact (h.known _).mp (hold hx)
  · have hnone := Dict.get?_eq_none_iff.mpr hnew
    refine ⟨?_, ?_, ?_, hsymbols, hobjects, hsize⟩
    · have htotal := Dict.total_set (·.flashSize) t.result.functions e.callerFunc f
      rw [hnone, Option.map_none, Option.getD_none, hflash] at htotal
      rw [hf, hsizes]
      have := h.bytes
      omega
    · intro x
      rw [hf, ← h.named, Dict.get?_set]
      by_cases hx : x = e.callerFunc
      · simp [hx, hnone, hnamed]
      · simp [hx]
    · intro x
      rw [hf, Dict.keys_set, if_neg hnew, List.mem_append, List.mem_singleton, h.known,
        anonCaller_snoc, or_assoc]
      simp [hanon, eq_comm]

/-- The section of a function: its size goes to the function. -/
theorem tracks_named {t' : Tracking} {e : MapEntry} {x : Text} (h : Tracks t edges entries)
    (hsymbols : ∀ o s, s ∈ t'.symbolsOf o ↔ s ∈ symbolsOf edges o) (hname : e.Names x)
    (hfunctions : t'.result.functions = addOrUpdateFunc t.result.functions x e.objPath e.size true)
    (hsizes : t'.anonObjSizes = t.anonObjSizes) : Tracks t' edges (entries ++ [e]) := by
  obtain ⟨f, hset, hnamed, hflash⟩ :=
    addOrUpdateFunc_spec t.result.functions x e.objPath e.size true
  rw [hset] at hfunctions
  have hbytes := h.bytes
  have hbare : ¬ e.IsBare := fun hb => not_names_of_bare hb x hname
  have htext : e.IsText := ⟨hname.1, .inr (names_iff.mp hname).2.1⟩
  have honly : ∀ y, e.Names y ↔ y = x := by
    intro y
    rw [names_iff, ← (names_iff.mp hname).2.2]
    exact ⟨fun hy => hy.2.2, fun hy => ⟨hname.1, (names_iff.mp hname).2.1, hy⟩⟩
  refine ⟨?_, ?_, ?_, hsymbols, ?_, ?_⟩
  · have htotal := Dict.total_set (·.flashSize) t.result.functions x f
    rw [hfunctions, hsizes, textBytes_snoc, if_pos htext]
    omega
  · intro y
    rw [hfunctions, named_snoc, ← h.named, honly, Dict.get?_set]
    by_cases hy : y = x
    · simp [hy, hnamed]
    · simp [hy]
  · intro y
    rw [hfunctions, Dict.mem_keys_set, h.known, named_snoc, honly, or_comm (a := y = x), or_assoc,
      or_assoc, or_comm (a := y = x)]
  · rw [hsizes, h.objects, anonObjects_snoc, if_neg fun hb => hbare hb.1]
  · intro o
    rw [hsizes, h.sizes, anonSize_snoc, if_neg fun hb => hbare hb.1, Nat.add_zero]

/-- A bare section: its size goes to its object. -/
theorem tracks_bare {t' : Tracking} {e : MapEntry} (h : Tracks t edges entries)
    (hsymbols : ∀ o s, s ∈ t'.symbolsOf o ↔ s ∈ symbolsOf edges o) (hbare : e.IsBare)
    (hfunctions : t'.result.functions = t.result.functions)
    (hsizes : t'.anonObjSizes = t.anonObjSizes.set e.objPath
      ((t.anonObjSizes.get? e.objPath).getD 0 + e.size)) : Tracks t' edges (entries ++ [e]) := by
  have hbytes := h.bytes
  have hno := not_names_of_bare hbare
  refine ⟨?_, ?_, ?_, hsymbols, ?_, ?_⟩
  · have htotal := Dict.total_set id t.anonObjSizes e.objPath
      ((t.anonObjSizes.get? e.objPath).getD 0 + e.size)
    rw [Option.map_id_fun, id, id] at htotal
    rw [hfunctions, hsizes, textBytes_snoc, if_pos ⟨hbare.1, .inl hbare.2⟩]
    omega
  · intro x
    rw [hfunctions, named_snoc, h.named]
    simp [hno]
  · intro x
    rw [hfunctions, named_snoc, h.known]
    simp [hno]
  · rw [hsizes, Dict.keys_set, h.objects, anonObjects_snoc]
    by_cases hmem : e.objPath ∈ anonObjects entries
    · simp [hmem]
    · simp [hmem, hbare]
  · intro o
    rw [hsizes, Dict.get?_set, anonSize_snoc, ← h.sizes]
    by_cases ho : o = e.objPath
    · simp [ho, hbare]
    · simp [ho, eq_comm]

/-- Any other entry is no code that counts. -/
theorem tracks_other {t' : Tracking} {e : MapEntry} (h : Tracks t edges entries)
    (hsymbols : ∀ o s, s ∈ t'.symbolsOf o ↔ s ∈ symbolsOf edges o) (htext : ¬ e.IsText)
    (hfunctions : t'.result.functions = t.result.functions)
    (hsizes : t'.anonObjSizes = t.anonObjSizes) : Tracks t' edges (entries ++ [e]) := by
  have hbare : ¬ e.IsBare := fun hb => htext ⟨hb.1, .inl hb.2⟩
  have hno : ∀ x, ¬ e.Names x := fun x hx => htext ⟨hx.1, .inr (names_iff.mp hx).2.1⟩
  refine ⟨?_, ?_, ?_, hsymbols, ?_, ?_⟩
  · rw [hfunctions, hsizes, textBytes_snoc, if_neg htext]
    exact h.bytes
  · intro x
    rw [hfunctions, named_snoc, h.named]
    simp [hno]
  · intro x
    rw [hfunctions, named_snoc, h.known]
    simp [hno]
  · rw [hsizes, h.objects, anonObjects_snoc, if_neg fun hb => hbare hb.1]
  · intro o
    rw [hsizes, h.sizes, anonSize_snoc, if_neg fun hb => hbare hb.1, Nat.add_zero]

theorem tracks_addEntry (h : Tracks t edges entries) (e : MapEntry) :
    Tracks (addEntry e t) edges (entries ++ [e]) := by
  have hsymbols : ∀ o s, s ∈ (addEntry e t).symbolsOf o ↔ s ∈ symbolsOf edges o := by
    intro o s
    rw [← h.symbols, mem_symbolsOf, mem_symbolsOf, (addEntry_frame e t).1, (addEntry_frame e t).2]
  cases addEntry_added e t with
  | named hname hfunctions hsizes => exact tracks_named h hsymbols hname hfunctions hsizes
  | bare hbare hfunctions hsizes => exact tracks_bare h hsymbols hbare hfunctions hsizes
  | other htext hfunctions hsizes => exact tracks_other h hsymbols htext hfunctions hsizes

theorem tracks_totals (h : Tracks t edges entries) (totals : Dict Text Nat) :
    Tracks { t with result := { t.result with grandTotals := totals } } edges entries :=
  ⟨h.bytes, h.named, h.known, h.symbols, h.objects, h.sizes⟩

end Tracks

/-! ## The file -/

/-- A line that is no separator. -/
theorem parseLine_tracks (decimal : Char → Option Nat) {t : Tracking} {edges : List CallEdge}
    {entries : List MapEntry} (h : Tracks t edges entries) (state : ParseState) {line rawLine : Text}
    (hraw : line.rdropWhile (fun c => c == '\n' || c == '\r') = rawLine)
    (hsep : isSeparator rawLine = false) :
    ∃ t', parseLine decimal (state, t) line = some (state, t') ∧
      Tracks t' (edges ++ edgesOf [(state, rawLine)])
        (entries ++ entriesOf decimal [(state, rawLine)]) := by
  subst hraw
  unfold parseLine
  simp only [hsep, Bool.false_eq_true, if_false]
  cases state with
  | crossRefs =>
    refine ⟨_, rfl, ?_⟩
    unfold parseCrossRef
    cases href : crossRef (line.rdropWhile fun c => c == '\n' || c == '\r') with
    | none => simpa [edgesOf, entriesOf, href] using h
    | some edge => simpa [edgesOf, entriesOf, href] using tracks_addEdge h edge
  | memoryMap =>
    unfold parseMemoryMap
    have hsome := mapEntry_isSome decimal (line.rdropWhile fun c => c == '\n' || c == '\r')
    obtain ⟨entry, hentry⟩ := Option.isSome_iff_exists.mp hsome
    rw [hentry]
    cases entry with
    | none => exact ⟨_, rfl, by simpa [edgesOf, entriesOf, hentry] using h⟩
    | some entry =>
      exact ⟨_, rfl, by simpa [edgesOf, entriesOf, hentry] using tracks_addEntry h entry⟩
  | done =>
    obtain ⟨totals, htotals⟩ := parseTotals_spec decimal
      (line.rdropWhile fun c => c == '\n' || c == '\r') t
    refine ⟨_, by rw [htotals]; rfl, ?_⟩
    simpa [edgesOf, entriesOf] using tracks_totals h totals
  | header => exact ⟨t, rfl, by simpa [edgesOf, entriesOf] using h⟩
  | removedSections => exact ⟨t, rfl, by simpa [edgesOf, entriesOf] using h⟩
  | symbolTable => exact ⟨t, rfl, by simpa [edgesOf, entriesOf] using h⟩
  | componentSizes => exact ⟨t, rfl, by simpa [edgesOf, entriesOf] using h⟩

theorem edgesOf_cons (l : ParseState × Text) (ls : List (ParseState × Text)) :
    edgesOf (l :: ls) = edgesOf [l] ++ edgesOf ls :=
  List.filterMap_append (l := [l])

theorem entriesOf_cons (decimal : Char → Option Nat) (l : ParseState × Text)
    (ls : List (ParseState × Text)) :
    entriesOf decimal (l :: ls) = entriesOf decimal [l] ++ entriesOf decimal ls :=
  List.filterMap_append (l := [l])

theorem foldlM_tracks (decimal : Char → Option Nat) (lines : List Text) (state : ParseState)
    {t : Tracking} {edges : List CallEdge} {entries : List MapEntry} (h : Tracks t edges entries) :
    ∃ st, lines.foldlM (parseLine decimal) (state, t) = some st ∧
      Tracks st.2 (edges ++ edgesOf (sectionLines state lines))
        (entries ++ entriesOf decimal (sectionLines state lines)) := by
  induction lines generalizing state t edges entries with
  | nil => exact ⟨_, rfl, by simpa [sectionLines, edgesOf, entriesOf] using h⟩
  | cons line lines ih =>
    rw [List.foldlM_cons]
    simp only [sectionLines]
    by_cases hsep : isSeparator (line.rdropWhile fun c => c == '\n' || c == '\r') = true
    · have hline : parseLine decimal (state, t) line = some (state.next, t) := by
        simp only [parseLine, hsep, if_true]
      rw [if_pos hsep, hline]
      exact ih state.next h
    · obtain ⟨t', hline, h'⟩ :=
        parseLine_tracks decimal h state rfl (Bool.eq_false_of_not_eq_true hsep)
      obtain ⟨st, hst, hfinal⟩ := ih state h'
      refine ⟨st, by rw [hline]; exact hst, ?_⟩
      rw [if_neg hsep, edgesOf_cons, entriesOf_cons, ← List.append_assoc, ← List.append_assoc]
      exact hfinal

/-- The parser behind the last line: what it knows is what the lines say. -/
theorem parse_tracks (decimal : Char → Option Nat) (filepath content : Text) :
    ∃ t, parseMapFile decimal filepath content = some (distributeAnonSizes t) ∧
      Tracks t (edgesOf (mapFileLines content)) (entriesOf decimal (mapFileLines content)) := by
  obtain ⟨st, hst, h⟩ := foldlM_tracks decimal (fileLines (universalNewlines content)) .header
    (tracks_start (targetName filepath))
  exact ⟨st.2, by rw [parseMapFile, hst]; rfl, h⟩

end Maptool
end Air101
