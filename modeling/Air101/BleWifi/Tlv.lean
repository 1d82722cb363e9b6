import Air101.BleWifi.Command

/-!
# BleWifi.Tlv

The configuration of a station (`wlan_config_process` of `src/app/bleapp/wm_ble_server_wifi_app.c`) for lists of fields
that are well-formed: type, length and value, one after the other. The loop reads the header of the next field at its end
and does not come to a last field without a value.

* `fieldLoop_rule`: what the loop keeps from field to field.
* `wlanConfigProcess_tlvs`: the connection that is made, with the values in the list.
-/

namespace Air101
namespace BleWifi
namespace Command

open Storage

def apSsid : Byte := 0x01

def apPassword : Byte := 0x02

def apBssid : Byte := 0x03

/-- A call of `tls_wifi_connect`, `tls_wifi_connect_by_ssid_bssid` or `tls_wifi_connect_by_bssid`. Of a pointer it has the
bytes of the field that was copied there. -/
inductive Connect where
  | connect (ssid : List Byte) (ssidLength : Nat) (password : List Byte) (passwordLength : Nat)
  | connectBySsidBssid (ssid : List Byte) (ssidLength : Nat) (bssid password : List Byte) (passwordLength : Nat)
  | connectByBssid (bssid password : List Byte) (passwordLength : Nat)

/-- The three conditions of `wlan_config_process` after its loop, each with its call. The loop is over only when the assertions
on its allocations held. -/
def Fields.connects (fields : Fields) : List Connect :=
  let ssidLength := fields.ssid.length
  let bssidLength := fields.bssid.length
  let passwordLength := fields.password.length
  (if ssidLength ≠ 0 ∧ bssidLength = 0 then [.connect fields.ssid ssidLength fields.password passwordLength] else []) ++
  (if ssidLength ≠ 0 ∧ bssidLength ≠ 0 then
    [.connectBySsidBssid fields.ssid ssidLength fields.bssid fields.password passwordLength] else []) ++
  if ssidLength = 0 ∧ bssidLength ≠ 0 then [.connectByBssid fields.bssid fields.password passwordLength] else []

/-- The fields that `wlan_config_process` finds. -/
def wlanConfigFields (env : Env) (payload : List Byte) (length : Int) : Fields :=
  fieldLoop payload env.heap payload.length 2 (payload.getD 0 0) (payload.getD 1 0)
    { ssid := [], password := [], bssid := [], log := [.read length 0 2] }

theorem wlanConfigProcess_eq (aes : Aes) (s : State) (env : Env) (payload : List Byte) (length : Int) :
    s.wlanConfigProcess aes env payload length =
      if (wlanConfigFields env payload length).status env.connect ≠ 0 then
        (s.note (wlanConfigFields env payload length).log).buildCmdRsp aes env (configStaCmd + 0x80) [0x81, 0x01, 0x01]
      else s.note (wlanConfigFields env payload length).log := rfl

theorem wlanConfigProcess_log (aes : Aes) (s : State) (env : Env) (payload : List Byte) (length : Int) :
    (s.wlanConfigProcess aes env payload length).log = s.log ++ (wlanConfigFields env payload length).log := by
  rw [wlanConfigProcess_eq]
  split <;> rfl

/-! ## Lists of fields -/

/-- A field: the length is one byte. -/
structure Tlv where
  type : Byte
  value : List Byte
  short : value.length ≤ 255

/-- The bytes of a field. -/
def Tlv.bytes (t : Tlv) : List Byte := t.type :: BitVec.ofNat 8 t.value.length :: t.value

def encode (ts : List Tlv) : List Byte := ts.flatMap Tlv.bytes

/-- The value of the first field of a type, if there is one. -/
def find (type : Byte) (ts : List Tlv) : Option (List Byte) := (ts.find? fun t => t.type = type).map Tlv.value

/-- The value of a field that may be absent. -/
def valueOf (type : Byte) (ts : List Tlv) : List Byte := (find type ts).getD []

/-- A type that `wlan_config_process` knows. -/
def Known (type : Byte) : Prop := type = apSsid ∨ type = apPassword ∨ type = apBssid

/-- No type that is known is there twice. -/
def AtMostOnce (ts : List Tlv) : Prop := ∀ type, Known type → (ts.map Tlv.type).count type ≤ 1

theorem Tlv.length_bytes (t : Tlv) : t.bytes.length = t.value.length + 2 := rfl

theorem Tlv.toNat_length (t : Tlv) : (BitVec.ofNat 8 t.value.length).toNat = t.value.length := by
  have := t.short
  rw [BitVec.toNat_ofNat]
  exact Nat.mod_eq_of_lt (by omega)

@[simp] theorem encode_nil : encode [] = [] := rfl

theorem encode_cons (t : Tlv) (ts : List Tlv) : encode (t :: ts) = t.bytes ++ encode ts := rfl

theorem length_encode_cons (t : Tlv) (ts : List Tlv) :
    (encode (t :: ts)).length = t.value.length + 2 + (encode ts).length := by
  rw [encode_cons, List.length_append, t.length_bytes]

theorem encode_append (ts us : List Tlv) : encode (ts ++ us) = encode ts ++ encode us := List.flatMap_append

/-! ## The loop -/

section Loop

variable {all : List Tlv} {heap : Site → Bool} {P : List Tlv → Fields → Prop}

/-- The header of the first of the fields from `pre` on. -/
theorem getD_header (pre rest : List Tlv) (t : Tlv) :
    (encode (pre ++ t :: rest)).getD (encode pre).length 0 = t.type ∧
    (encode (pre ++ t :: rest)).getD ((encode pre).length + 1) 0 = BitVec.ofNat 8 t.value.length := by
  rw [encode_append, encode_cons]
  constructor
  · simp [List.getD_eq_getElem?_getD, Tlv.bytes]
  · simp [List.getD_eq_getElem?_getD, Tlv.bytes]

/-- What holds before the fields `t :: rest`, and is kept by adding a field, by reading a header in the list and by leaving
out a last field without a value, holds after the loop. -/
theorem fieldLoop_rule
    (hadd : ∀ pre t rest fields, all = pre ++ t :: rest → P (t :: rest) fields →
      P rest (fields.add (encode all) ((encode pre).length + 2) t.type t.value.length heap))
    (hread : ∀ offset rest fields, offset + 2 ≤ (encode all).length → P rest fields →
      P rest { fields with log := fields.log ++ [.read (encode all).length offset 2] })
    (hlast : ∀ t fields, t.value = [] → P [t] fields → P [] fields) :
    ∀ rest pre t fuel fields, all = pre ++ t :: rest → (encode all).length ≤ fuel + (encode pre).length →
      P (t :: rest) fields →
      P [] (fieldLoop (encode all) heap fuel ((encode pre).length + 2) t.type (BitVec.ofNat 8 t.value.length) fields) := by
  intro rest
  induction rest with
  | nil =>
    intro pre t fuel fields hall hfuel hP
    have hlen : (encode all).length = (encode pre).length + 2 + t.value.length := by
      rw [hall, encode_append, List.length_append, length_encode_cons, encode_nil, List.length_nil]
      omega
    cases fuel with
    | zero => omega
    | succ fuel =>
      rw [fieldLoop, t.toNat_length]
      split
      · rw [if_pos (by omega)]
        exact hadd pre t [] fields hall hP
      · exact hlast t fields (List.eq_nil_of_length_eq_zero (by omega)) hP
  | cons u rest ih =>
    intro pre t fuel fields hall hfuel hP
    have hall' : all = (pre ++ [t]) ++ u :: rest := by simp [hall]
    have hpre : (encode (pre ++ [t])).length = (encode pre).length + 2 + t.value.length := by
      rw [encode_append, List.length_append, length_encode_cons, encode_nil, List.length_nil]
      omega
    have hlen : (encode (pre ++ [t])).length + 2 ≤ (encode all).length := by
      rw [hall', encode_append (pre ++ [t]), List.length_append, length_encode_cons]
      omega
    cases fuel with
    | zero => omega
    | succ fuel =>
      obtain ⟨htype, hlength⟩ := getD_header (pre ++ [t]) rest u
      rw [← hall', hpre] at htype hlength
      rw [fieldLoop, t.toNat_length, if_pos (by omega)]
      dsimp only
      rw [if_neg (by omega), htype, hlength, ← hpre]
      refine ih (pre ++ [t]) u fuel _ hall' (by omega) ?_
      exact hread _ _ _ hlen (hadd pre t (u :: rest) fields hall hP)

/-- The value that was found for a type. -/
def Fields.value (fields : Fields) (type : Byte) : List Byte :=
  if type = apSsid then fields.ssid
  else if type = apPassword then fields.password
  else if type = apBssid then fields.bssid
  else []

theorem add_value {type type' : Byte} (h : Known type) (fields : Fields) (payload : List Byte) (offset n : Nat) :
    (fields.add payload offset type' n heap).value type
      = if type' = type then (payload.drop offset).take n else fields.value type := by
  unfold Fields.add
  split
  · rcases h with rfl | rfl | rfl <;> simp [Fields.value, copyField, apSsid, apPassword, apBssid]
  · rcases h with rfl | rfl | rfl <;> simp [Fields.value, copyField, apSsid, apPassword, apBssid]
  · rcases h with rfl | rfl | rfl <;> simp [Fields.value, copyField, apSsid, apPassword, apBssid]
  · rename_i h1 h2 h3
    rw [if_neg]
    rintro rfl
    exact h.elim h1 fun h => h.elim h2 h3

theorem drop_take_value (pre rest : List Tlv) (t : Tlv) :
    ((encode (pre ++ t :: rest)).drop ((encode pre).length + 2)).take t.value.length = t.value := by
  rw [encode_append, encode_cons, ← List.drop_drop, List.drop_left]
  show (t.value ++ encode rest).take t.value.length = t.value
  exact List.take_left

theorem find_cons (type : Byte) (t : Tlv) (ts : List Tlv) :
    find type (t :: ts) = if t.type = type then some t.value else find type ts := by
  by_cases h : t.type = type <;> simp [find, h]

theorem find_eq_none {type : Byte} {ts : List Tlv} (h : (ts.map Tlv.type).count type = 0) : find type ts = none := by
  rw [find, Option.map_eq_none_iff, List.find?_eq_none]
  intro t ht heq
  exact List.count_eq_zero.mp h (List.mem_map.mpr ⟨t, ht, of_decide_eq_true heq⟩)

/-- What the loop has of a type, with the fields `ts` to come: the value, unless it is still to come. -/
structure Finding (type : Byte) (all ts : List Tlv) (fields : Fields) : Prop where
  value : (find type ts).getD (fields.value type) = valueOf type all
  empty : find type ts ≠ none → fields.value type = []

/-- The loop finds the value of a known type that is there at most once. -/
theorem fieldLoop_value {type : Byte} (hk : Known type) (honce : (all.map Tlv.type).count type ≤ 1) {t : Tlv}
    {rest : List Tlv} (hall : all = t :: rest) (log : List Access) :
    (fieldLoop (encode all) heap (encode all).length 2 t.type (BitVec.ofNat 8 t.value.length) ⟨[], [], [], log⟩).value type
      = valueOf type all := by
  have hnil : Fields.value ⟨[], [], [], log⟩ type = [] := by simp [Fields.value]
  suffices h : Finding type all [] (fieldLoop (encode all) heap (encode all).length 2 t.type
      (BitVec.ofNat 8 t.value.length) ⟨[], [], [], log⟩) from h.value
  refine fieldLoop_rule (P := Finding type all) ?_ ?_ ?_ rest [] t _ _ hall (Nat.le_add_right _ _) ?_
  · intro pre t rest fields hsplit h
    have hval : (fields.add (encode all) ((encode pre).length + 2) t.type t.value.length heap).value type
        = if t.type = type then t.value else fields.value type := by
      rw [add_value hk, hsplit, drop_take_value]
    have hfind := find_cons type t rest
    by_cases htype : t.type = type
    · rw [if_pos htype] at hval hfind
      -- there is no other field of the type behind this one
      have hnone : find type rest = none := by
        refine find_eq_none ?_
        simp only [hsplit, List.map_append, List.map_cons, List.count_append, htype, List.count_cons_self] at honce
        omega
      refine ⟨?_, fun hne => absurd hnone hne⟩
      rw [hnone, Option.getD_none, ← h.value, hfind]
      exact hval
    · rw [if_neg htype] at hval hfind
      exact ⟨by rw [hval, ← hfind]; exact h.value, fun hne => hval.trans (h.empty (hfind ▸ hne))⟩
  · intro offset rest fields _ h
    exact ⟨h.value, h.empty⟩
  · intro t fields hempty h
    have hfind := find_cons type t []
    refine ⟨?_, fun hne => absurd rfl hne⟩
    rw [← h.value]
    by_cases htype : t.type = type
    · rw [if_pos htype, hempty] at hfind
      rw [hfind, h.empty (by simp [hfind])]
      rfl
    · rw [if_neg htype] at hfind
      rw [hfind]
  · exact ⟨by rw [hnil, hall, valueOf], fun _ => hnil⟩

/-- In order, unless it is the assertion on an allocation. -/
def Access.InOrder (a : Access) : Prop := a.ok ∨ a = .check false

theorem copyField_inOrder {payload : List Byte} {offset n : Nat} (hle : offset + n ≤ payload.length) (heap : Bool) :
    ∀ a ∈ (copyField payload offset n heap).2, a.InOrder := by
  intro a ha
  rcases copyField_log hle heap a ha with rfl | h
  · cases heap with
    | false => exact .inr rfl
    | true => exact .inl rfl
  · exact .inl h

theorem add_inOrder {fields : Fields} {payload : List Byte} {offset n : Nat} (h : ∀ a ∈ fields.log, a.InOrder)
    (hle : offset + n ≤ payload.length) (type : Byte) : ∀ a ∈ (fields.add payload offset type n heap).log, a.InOrder := by
  unfold Fields.add
  split
  · exact List.forall_mem_append.mpr ⟨h, copyField_inOrder hle _⟩
  · exact List.forall_mem_append.mpr ⟨h, copyField_inOrder hle _⟩
  · exact List.forall_mem_append.mpr ⟨h, copyField_inOrder hle _⟩
  · exact h

/-- The accesses of the loop to a list of fields. -/
theorem fieldLoop_inOrder {t : Tlv} {rest : List Tlv} (hall : all = t :: rest) {fields : Fields}
    (hlog : ∀ a ∈ fields.log, a.InOrder) : ∀ a ∈ (fieldLoop (encode all) heap (encode all).length 2 t.type
      (BitVec.ofNat 8 t.value.length) fields).log, a.InOrder := by
  refine fieldLoop_rule (P := fun _ fields => ∀ a ∈ fields.log, a.InOrder) ?_ ?_ ?_ rest [] t _ _ hall
    (Nat.le_add_right _ _) hlog
  · intro pre t rest fields hsplit h
    refine add_inOrder h ?_ t.type
    rw [hsplit, encode_append, List.length_append, length_encode_cons]
    omega
  · intro offset rest fields hle h
    refine List.forall_mem_append.mpr ⟨h, List.forall_mem_singleton.mpr (.inl (.inr ⟨?_, ?_, ?_⟩))⟩ <;> omega
  · intro t fields _ h
    exact h

end Loop

/-! ## The connection -/

/-- The connection that is to be made. -/
def connectOf (ssid bssid password : List Byte) : List Connect :=
  match ssid, bssid with
  | [], [] => []
  | [], bssid => [.connectByBssid bssid password password.length]
  | ssid, [] => [.connect ssid ssid.length password password.length]
  | ssid, bssid => [.connectBySsidBssid ssid ssid.length bssid password password.length]

theorem Fields.connects_eq (fields : Fields) : fields.connects = connectOf fields.ssid fields.bssid fields.password := by
  obtain ⟨ssid, password, bssid, log⟩ := fields
  cases ssid <;> cases bssid <;> simp [Fields.connects, connectOf]

/-- For a list of fields, no known type twice, the connection is made that the SSID and the BSSID ask for, with the values
in the list, and all that is read is in the list. -/
theorem wlanConfigProcess_tlvs (aes : Aes) (s : State) (env : Env) (ts : List Tlv) (hlen : 2 ≤ (encode ts).length)
    (honce : AtMostOnce ts) :
    (wlanConfigFields env (encode ts) (encode ts).length).connects
      = connectOf (valueOf apSsid ts) (valueOf apBssid ts) (valueOf apPassword ts) ∧
    ∃ log, (s.wlanConfigProcess aes env (encode ts) (encode ts).length).log = s.log ++ log ∧ ∀ a ∈ log, a.InOrder := by
  have hne : ts ≠ [] := by
    rintro rfl
    simp at hlen
  obtain ⟨t, rest, hts⟩ := List.exists_cons_of_ne_nil hne
  have hheader := getD_header [] rest t
  rw [List.nil_append, ← hts] at hheader
  have hfields : wlanConfigFields env (encode ts) (encode ts).length = fieldLoop (encode ts) env.heap (encode ts).length 2
      t.type (BitVec.ofNat 8 t.value.length) ⟨[], [], [], [.read (encode ts).length 0 2]⟩ := by
    rw [wlanConfigFields]
    exact congrArg₂ (fun a b => fieldLoop _ _ _ 2 a b _) hheader.1 hheader.2
  constructor
  · have hvalue : ∀ type, Known type → (wlanConfigFields env (encode ts) (encode ts).length).value type = valueOf type ts :=
      fun type hk => hfields ▸ fieldLoop_value hk (honce type hk) hts _
    rw [Fields.connects_eq, ← hvalue apSsid (.inl rfl), ← hvalue apBssid (.inr (.inr rfl)),
      ← hvalue apPassword (.inr (.inl rfl))]
    rfl
  · refine ⟨_, wlanConfigProcess_log aes s env (encode ts) (encode ts).length, ?_⟩
    rw [hfields]
    refine fieldLoop_inOrder hts (List.forall_mem_singleton.mpr (.inl (.inr ⟨?_, ?_, ?_⟩))) <;> omega

/-- An SSID, a type that is not known, a password, and a BSSID without a value at the end. -/
def stationFields : List Tlv :=
  [⟨apSsid, [0x61, 0x70], by decide⟩, ⟨0x07, [0x01], by decide⟩, ⟨apPassword, [0x31], by decide⟩, ⟨apBssid, [], by decide⟩]

theorem wlanConfigProcess_station :
    (wlanConfigFields goodEnv (encode stationFields) (encode stationFields).length).connects
      = [.connect [0x61, 0x70] 2 [0x31] 1] :=
  (wlanConfigProcess_tlvs plainAes State.init goodEnv stationFields (by decide) (by
    rintro type (rfl | rfl | rfl) <;> decide)).1

end Command
end BleWifi
end Air101
