import Air101.Param.Durable

/-!
# Param.Fields

Setting a parameter and getting it back (`tls_param_set` and `tls_param_get` without the flash).
The cases of the two `switch`es treat one member each, in the same place and with the same size; five
members are texts, which both copy up to their NUL without looking at the size of the member.

* `get_set`, `set_frame`: what `tls_param_set` puts into a set of parameters is what `tls_param_get`
  reads, and the bytes outside the member stay.
* `members_apart`, `set_others`: two members share no byte, so setting one leaves the others.
* `setGet_ram`, `setGet_updp`: the law on the record in RAM, and while the defaults are updated.
* `set_get_iff`: the set/get law with its frame holds of a call exactly if the text fits its member
  and both functions work on the same record.
-/

namespace Air101
namespace Param

open Storage
open Fls

/-! ## Members -/

namespace Field

/-- What a caller passes to `tls_param_set`, as far as it is read: a text with its NUL, or as many
bytes as the member has. -/
def value (f : Field) (argv : List Byte) : List Byte :=
  if f.text then cstr argv ++ [0#8] else (argv ++ List.replicate f.size 0#8).take f.size

/-- The argument fits the member. -/
def Fits (f : Field) (argv : List Byte) : Prop := f.text = true → (cstr argv).length < f.size

instance (f : Field) (argv : List Byte) : Decidable (f.Fits argv) :=
  inferInstanceAs (Decidable (f.text = true → (cstr argv).length < f.size))

variable {f : Field} {argv : List Byte}

theorem value_length (h : f.Fits argv) : (f.value argv).length ≤ f.size := by
  unfold value
  split
  · rename_i ht
    have hlt := h ht
    rw [List.length_append, List.length_singleton]
    omega
  · rw [List.length_take]
    omega

/-- An argument that is copied by the size of its member always fits. -/
theorem fits_of_copied (h : f.text = false) : f.Fits argv := by
  intro ht
  rw [h] at ht
  exact Bool.noConfusion ht

end Field

/-! ## The `switch`es -/

variable {id : Int} {f : Field} {argv : List Byte}

theorem mem_fields (h : fields.lookup id = some f) : (id, f) ∈ fields := by
  obtain ⟨l₁, l₂, hsplit, -⟩ := List.lookup_eq_some_iff.mp h
  rw [hsplit]
  exact List.mem_append_right _ List.mem_cons_self

theorem field_in (h : fields.lookup id = some f) : f.offset + f.size ≤ 2016 :=
  fields_in _ (mem_fields h)

/-- Members of two cases share no byte; `TLS_PARAM_ID_ALL` is all of them. -/
theorem members_apart : ∀ a ∈ fields, ∀ b ∈ fields, a.1 = b.1 ∨ a.1 = -1 ∨ b.1 = -1 ∨
    a.2.offset + a.2.size ≤ b.2.offset ∨ b.2.offset + b.2.size ≤ a.2.offset := by
  decide +kernel

/-- Every identifier that has a case passes the check in front of the `switch`. -/
theorem ids_in_range : ∀ f ∈ fields, ¬ (f.1 < -1 ∨ 66 ≤ f.1) := by decide

theorem id_in_range (h : fields.lookup id = some f) : ¬ (id < -1 ∨ 66 ≤ id) :=
  ids_in_range _ (mem_fields h)

namespace Params

variable {p q : Params}

theorem set_eq (hf : fields.lookup id = some f) : p.set id argv = some (p.write f.offset (f.value argv)) := by
  unfold set Field.value
  rw [hf, Option.map_some]
  split
  · rfl
  · rfl

theorem write_out {offset i : Nat} {bs : List Byte} (ho : offset ≤ 2016) (hi : i < 2016)
    (h : i < offset ∨ offset + bs.length ≤ i) : (p.write offset bs).bytes[i]? = p.bytes[i]? := by
  have hp := p.length_eq
  simp only [write]
  rw [List.getElem?_take_of_lt hi, patch_out (by omega) h]

/-- What `tls_param_set` puts into the record is what `tls_param_get` reads. -/
theorem get_set (hf : fields.lookup id = some f) (hfits : f.Fits argv) :
    (p.write f.offset (f.value argv)).get id = some (f.value argv) := by
  have hin := field_in hf
  have hlen := Field.value_length hfits
  have hread := write_read p (Eq.refl (f.value argv).length) (show f.offset + _ ≤ 2016 by omega)
  unfold get
  rw [getFields_eq, hf, Option.map_some]
  congr 1
  split
  · rename_i ht
    -- the text ends at the NUL that was written with it
    have hval : f.value argv = cstr argv ++ [0#8] := if_pos ht
    rw [← List.take_append_drop (f.value argv).length
      ((p.write f.offset (f.value argv)).bytes.drop f.offset), hread, hval, List.append_assoc,
      List.singleton_append, cstr_append]
  · rename_i ht
    have hsize : (f.value argv).length = f.size := by
      unfold Field.value
      rw [if_neg ht, List.length_take, List.length_append, List.length_replicate]
      omega
    rw [hsize] at hread
    exact hread

/-- `tls_param_set` with an argument that fits changes no byte outside the member. -/
theorem set_frame (hf : fields.lookup id = some f) (hfits : f.Fits argv) {i : Nat} (hi : i < 2016)
    (hout : i < f.offset ∨ f.offset + f.size ≤ i) :
    (p.write f.offset (f.value argv)).bytes[i]? = p.bytes[i]? := by
  have hin := field_in hf
  have hlen := Field.value_length hfits
  apply write_out (by omega) hi
  omega

/-- `tls_param_set` with an argument that fits leaves every other member as it was. -/
theorem set_others (hf : fields.lookup id = some f) (hfits : f.Fits argv) {id' : Int} {f' : Field}
    (hf' : fields.lookup id' = some f') (hne : id ≠ id') (hall : id ≠ -1) (hall' : id' ≠ -1) :
    ((p.write f.offset (f.value argv)).bytes.drop f'.offset).take f'.size =
      (p.bytes.drop f'.offset).take f'.size := by
  have hin := field_in hf'
  have happart := members_apart _ (mem_fields hf) _ (mem_fields hf')
  simp only [hne, hall, hall', false_or] at happart
  apply List.ext_getElem?
  intro i
  by_cases hi : i < f'.size
  · rw [List.getElem?_take_of_lt hi, List.getElem?_take_of_lt hi, List.getElem?_drop,
      List.getElem?_drop]
    exact set_frame hf hfits (by omega) (by omega)
  · rw [List.getElem?_take_eq_none (by omega), List.getElem?_take_eq_none (by omega)]

end Params

/-! ## The law -/

/-- From `s` to `s'` the record in RAM changes in the member `f` at most, and the flash does not. -/
structure OnlyMember (f : Field) (s s' : State) : Prop where
  dev : s'.dev = s.dev
  header : s'.flashParam = { s.flashParam with parameters := s'.flashParam.parameters }
  rest : ∀ i, i < 2016 → (i < f.offset ∨ f.offset + f.size ≤ i) →
    s'.flashParam.parameters.bytes[i]? = s.flashParam.parameters.bytes[i]?

section Law

variable (c : Chip) (heap : Nat → Bool)

/-- The set/get law of one call that leaves the flash alone: when it succeeds, `tls_param_get` gives
the value back and only the member has changed; a text that does not fit is refused, and nothing
changes. -/
structure SetGet (id : Int) (f : Field) (argv : List Byte) (s : State) : Prop where
  back : f.Fits argv → (tlsParamSet c heap id (some argv) false s).1 = .ok →
    ∀ mem, tlsParamGet c mem id false (tlsParamSet c heap id (some argv) false s).2 =
      (.ok, some (f.value argv))
  frame : f.Fits argv → (tlsParamSet c heap id (some argv) false s).1 = .ok →
    OnlyMember f s (tlsParamSet c heap id (some argv) false s).2
  refused : ¬ f.Fits argv → (tlsParamSet c heap id (some argv) false s).1 ≠ .ok ∧
    (tlsParamSet c heap id (some argv) false s).2 = s

/-- The condition: the argument fits, and `tls_param_set` works on the record that `tls_param_get`
reads. While the default parameters are updated it works on another one; then the record in RAM has
to have the value already, or the default record cannot be had. -/
def SetsWhatGetReads (id : Int) (f : Field) (argv : List Byte) (s : State) : Prop :=
  if s.updpMode then
    (s.userDefaultParam = none ∧ heap 0 = false) ∨
      (f.Fits argv ∧ s.flashParam.parameters.get id = some (f.value argv))
  else f.Fits argv

end Law

variable {c : Chip} {heap : Nat → Bool} {s : State}

theorem tlsParamGet_ram (hf : fields.lookup id = some f) (mem : Bool) {v : List Byte} :
    tlsParamGet c mem id false s = (.ok, some v) ↔ s.flashParam.parameters.get id = some v := by
  unfold tlsParamGet
  rw [if_neg (id_in_range hf), if_neg (by simp)]
  cases hget : s.flashParam.parameters.get id with
  | none => simp [hget]
  | some bs => simp [hget]

variable (c heap argv) in
/-- `tls_param_set` on the record in RAM. -/
theorem tlsParamSet_ram (hf : fields.lookup id = some f) (hm : s.updpMode = false) :
    tlsParamSet c heap id (some argv) false s =
      (.ok, s.withParams (s.flashParam.parameters.write f.offset (f.value argv))) := by
  unfold tlsParamSet
  rw [if_neg (id_in_range hf)]
  simp only [hm, Params.set_eq hf, Bool.false_eq_true, if_false]

variable (c heap argv) in
/-- `tls_param_set` while the default parameters are updated. -/
theorem tlsParamSet_updp (hf : fields.lookup id = some f) (hm : s.updpMode = true) :
    (s.userDefaultParam = none ∧ heap 0 = false ∧
        tlsParamSet c heap id (some argv) false s = (.emem, s)) ∨
      ¬ (s.userDefaultParam = none ∧ heap 0 = false) ∧
        ∃ p, tlsParamSet c heap id (some argv) false s = (.ok, { s with userDefaultParam := some p }) := by
  unfold tlsParamSet
  rw [if_neg (id_in_range hf)]
  simp only [hm, if_true]
  cases hu : s.userDefaultParam with
  | some p =>
    refine .inr ⟨by simp, p.write f.offset (f.value argv), ?_⟩
    simp only [Option.some_or, Params.set_eq hf]
  | none =>
    cases hh : heap 0 with
    | false => exact .inl ⟨rfl, rfl, by simp⟩
    | true =>
      refine .inr ⟨by simp, Params.zero.write f.offset (f.value argv), ?_⟩
      simp only [Option.none_or, if_true, Params.set_eq hf]

/-- On the record in RAM the law holds exactly if the argument fits. -/
theorem setGet_ram (hf : fields.lookup id = some f) (hm : s.updpMode = false) :
    SetGet c heap id f argv s ↔ f.Fits argv := by
  have hset := tlsParamSet_ram argv c heap hf hm
  constructor
  · intro hlaw
    by_contra hfits
    have hno := (hlaw.refused hfits).1
    rw [hset] at hno
    exact hno rfl
  · intro hfits
    refine ⟨?_, ?_, fun hno => absurd hfits hno⟩
    · intro _ _ mem
      rw [hset, tlsParamGet_ram hf]
      exact Params.get_set hf hfits
    · intro _ _
      rw [hset]
      exact ⟨rfl, rfl, fun i hi hout => Params.set_frame hf hfits hi hout⟩

/-- While the default parameters are updated, the record in RAM stays as it is. -/
theorem setGet_updp (hf : fields.lookup id = some f) (hm : s.updpMode = true) :
    SetGet c heap id f argv s ↔ (s.userDefaultParam = none ∧ heap 0 = false) ∨
      (f.Fits argv ∧ s.flashParam.parameters.get id = some (f.value argv)) := by
  rcases tlsParamSet_updp argv c heap hf hm with ⟨hnone, hheap, hset⟩ | ⟨hmem, p, hset⟩
  · -- no memory for the default record: the call fails
    refine ⟨fun _ => .inl ⟨hnone, hheap⟩, fun _ => ?_⟩
    have hno : (tlsParamSet c heap id (some argv) false s).1 ≠ .ok := by
      rw [hset]
      exact fun h => Status.noConfusion h
    refine ⟨fun _ hok => absurd hok hno, fun _ hok => absurd hok hno, fun _ => ⟨hno, ?_⟩⟩
    rw [hset]
  · constructor
    · intro hlaw
      have hfits : f.Fits argv := by
        by_contra hfits
        have hno := (hlaw.refused hfits).1
        rw [hset] at hno
        exact hno rfl
      have hback := hlaw.back hfits (by rw [hset]) true
      rw [hset, tlsParamGet_ram hf] at hback
      exact .inr ⟨hfits, hback⟩
    · rintro (hnone | ⟨hfits, hhas⟩)
      · exact absurd hnone hmem
      · refine ⟨?_, ?_, fun hno => absurd hfits hno⟩
        · intro _ _ mem
          rw [hset, tlsParamGet_ram hf]
          exact hhas
        · intro _ _
          rw [hset]
          exact ⟨rfl, rfl, fun _ _ _ => rfl⟩

/-- The set/get law holds of a call exactly if the argument fits its member and `tls_param_set` works
on the record that `tls_param_get` reads. -/
theorem set_get_iff (c : Chip) (heap : Nat → Bool) (id : Int) (f : Field)
    (hf : fields.lookup id = some f) (argv : List Byte) (s : State) :
    SetGet c heap id f argv s ↔ SetsWhatGetReads heap id f argv s := by
  unfold SetsWhatGetReads
  cases hm : s.updpMode with
  | false =>
    rw [if_neg Bool.false_ne_true]
    exact setGet_ram hf hm
  | true =>
    rw [if_pos rfl]
    exact setGet_updp hf hm

/-- The store of a board with all parameters zero. -/
def blank : State := State.reset (air101Chip.filled .zero)

/-- A password: the member of six bytes is copied whole. -/
theorem set_get_iff_password : SetGet air101Chip (fun _ => true) 33 ⟨378, 6, false⟩
    [0x31#8, 0x32#8, 0x33#8, 0x34#8, 0x35#8, 0x36#8] blank :=
  (set_get_iff air101Chip (fun _ => true) 33 ⟨378, 6, false⟩ rfl _ blank).2 (Field.fits_of_copied rfl)

/-- A DNS name of 36 letters is taken, and its last four letters become the device name behind it. -/
theorem set_get_long_name :
    ¬ (∀ (id : Int) (f : Field), fields.lookup id = some f → ∀ argv s,
        SetGet air101Chip (fun _ => true) id f argv s) ∧
      (tlsParamSet air101Chip (fun _ => true) 20 (some (List.replicate 36 0x61#8)) false blank).1 = .ok ∧
      tlsParamGet air101Chip true 21 false
          (tlsParamSet air101Chip (fun _ => true) 20 (some (List.replicate 36 0x61#8)) false blank).2 =
        (.ok, some [0x61#8, 0x61#8, 0x61#8, 0x61#8, 0#8]) := by
  have hset : tlsParamSet air101Chip (fun _ => true) 20 (some (List.replicate 36 0x61#8)) false blank =
      (.ok, blank.withParams (Params.zero.write 172 (List.replicate 36 0x61#8 ++ [0#8]))) :=
    tlsParamSet_ram _ _ _ (f := ⟨172, 32, true⟩) rfl rfl
  refine ⟨?_, by rw [hset], ?_⟩
  · intro h
    have hno := ((h 20 ⟨172, 32, true⟩ rfl (List.replicate 36 0x61#8) blank).refused (by decide)).1
    rw [hset] at hno
    exact hno rfl
  · rw [hset, tlsParamGet_ram (f := ⟨204, 32, true⟩) rfl]
    decide +kernel

end Param
end Air101
