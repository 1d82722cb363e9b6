import Mathlib.Data.Vector.Basic
import Mathlib.Logic.Function.Basic
import Mathlib.Tactic.Common

/-!
# Wlan.Mac

`sys_mac_init` of `app/network/luat_wlan_air101.c`. At boot it reads the station, AP and BLE addresses and replaces those
that `is_mac_ok` refuses: the station's by one from the chip id or from random bytes, the AP's by the station's plus one
and the BLE's by the AP's plus one, the increment being of the last byte alone.

A store maps each of the three parameters to its address. `sets` is what an observer writes down: the calls of
`tls_ft_param_set`, which succeeds here, so that its error returns are left out.

* `staMac_ok`: an address made from the chip id or from random bytes is valid.
* `plusOne_ok`: the increment of a valid address is valid unless its last byte is `0xFE`.
* `sysMacInit_store`: the three addresses after a run.
* `sysMacInit_settles_iff`: when they are valid and distinct, so that the next run sets nothing.
-/

namespace Air101
namespace Wlan

/-- `u8 mac_addr[6]`. -/
abbrev Mac := Vector UInt8 6

/-- `CMD_WIFI_MAC`, `CMD_WIFI_MACAP` and `CMD_BT_MAC`. -/
inductive Param where
  | wifiMac
  | wifiMacap
  | btMac
deriving DecidableEq

/-- What a boot finds: the unique id of the flash, if it can be read, and the results of `tls_crypto_trng`. -/
structure Boot where
  uniqueId : Option (Vector UInt8 20)
  trng : Nat → Vector UInt8 4

/-- The stored parameters and the calls of `tls_ft_param_set`. -/
structure Run where
  store : Param → Mac
  sets : List (Param × Mac)

/-- `tls_ft_param_set` of an address. -/
def Run.set (run : Run) (p : Param) (mac : Mac) : Run where
  store := Function.update run.store p mac
  sets := run.sets ++ [(p, mac)]

/-- A byte that no address may have. -/
def badByte (b : UInt8) : Bool := b == 0 || b == 0xFF

def defaultMac : Mac := #v[0x00, 0x25, 0x08, 0x09, 0x01, 0x0F]

def isUniqueIdOkForMac (uniqueId : Vector UInt8 20) : Bool :=
  if uniqueId[1] < 4 then false
  else !(#v[uniqueId[2], uniqueId[3], uniqueId[4], uniqueId[5]].toList.any badByte)

/-- The bytes that the last draw leaves, with every `0` and `0xFF` replaced. -/
def patchSuffix (suffix : Vector UInt8 4) : Vector UInt8 4 :=
  suffix.mapIdx fun i b =>
    if b = 0 then 0x01 + UInt8.ofNat i else if b = 0xFF then 0xFE - UInt8.ofNat i else b

/-- The first of four draws without a bad byte, or else the last one patched. -/
def fillMacSuffixWithRandom (trng : Nat → Vector UInt8 4) : Vector UInt8 4 :=
  match (List.range 4).find? fun retry => !(trng retry).toList.any badByte with
  | some retry => trng retry
  | none => patchSuffix (trng 3)

def isMacOk (mac : Mac) : Bool :=
  if mac = defaultMac then false
  else if mac.toList.any badByte then false
  else if mac[0] ≠ 0xC8 ∨ mac[1] ≠ 0xC2 then false
  else true

/-- The suffix of a new station address. -/
def Boot.suffix (boot : Boot) : Vector UInt8 4 :=
  match boot.uniqueId with
  | some id =>
    if isUniqueIdOkForMac id then #v[id[2], id[3], id[4], id[5]] else fillMacSuffixWithRandom boot.trng
  | none => fillMacSuffixWithRandom boot.trng

/-- The address for a station that has none. -/
def Boot.staMac (boot : Boot) : Mac :=
  #v[0xC8, 0xC2, boot.suffix[0], boot.suffix[1], boot.suffix[2], boot.suffix[3]]

/-- The address with its last byte incremented. -/
def plusOne (mac : Mac) : Mac := mac.set 5 (mac[5] + 1)

/-- The address of a parameter, after it is set to `mac` if it is not valid. -/
def Run.repair (run : Run) (p : Param) (mac : Mac) : Mac × Run :=
  if isMacOk (run.store p) then (run.store p, run) else (mac, run.set p mac)

def sysMacInit (boot : Boot) (run : Run) : Run :=
  let (macAddr, run) := run.repair .wifiMac boot.staMac
  let (apMac, run) := run.repair .wifiMacap (plusOne macAddr)
  (run.repair .btMac (plusOne apMac)).2

/-- The three addresses are valid and distinct, and no later boot sets one. -/
structure Settles (run : Run) : Prop where
  ok : ∀ p, isMacOk (run.store p) = true
  distinct : Function.Injective run.store
  fixed : ∀ boot, (sysMacInit boot ⟨run.store, []⟩).sets = []

/-- The station's address that the others are derived from: the stored one, or the one for a station that has none. -/
def base (boot : Boot) (store : Param → Mac) : Mac :=
  if isMacOk (store .wifiMac) then store .wifiMac else boot.staMac

/-- Every increment stays below `0xFF`, and the addresses that are kept differ from the others. -/
def Repairable (boot : Boot) (store : Param → Mac) : Prop :=
  let sta := base boot store
  let ap := store .wifiMacap
  let ble := store .btMac
  match isMacOk ap, isMacOk ble with
  | true, true => ap ≠ sta ∧ ble ≠ sta ∧ ble ≠ ap
  | true, false => ap[5] ≠ 0xFE ∧ ap ≠ sta ∧ plusOne ap ≠ sta
  | false, true => sta[5] ≠ 0xFE ∧ ble ≠ sta ∧ ble ≠ plusOne sta
  | false, false => sta[5] ≠ 0xFE ∧ sta[5] ≠ 0xFD

/-! ## Addresses -/

section Addresses

variable {mac : Mac}

theorem badByte_eq_false {b : UInt8} : badByte b = false ↔ b ≠ 0 ∧ b ≠ 0xFF := by
  simp [badByte]

theorem any_eq_false {n : Nat} {xs : Vector UInt8 n} :
    xs.toList.any badByte = false ↔ ∀ (i : Nat) (_ : i < n), xs[i] ≠ 0 ∧ xs[i] ≠ 0xFF := by
  rw [Vector.any_toList, Vector.any_eq_false]
  constructor
  · intro h i hi
    exact badByte_eq_false.mp (Bool.eq_false_iff.mpr (h i hi))
  · intro h i hi
    exact Bool.eq_false_iff.mp (badByte_eq_false.mpr (h i hi))

theorem isMacOk_iff :
    isMacOk mac = true ↔
      (∀ (i : Nat) (_ : i < 6), mac[i] ≠ 0 ∧ mac[i] ≠ 0xFF) ∧ mac[0] = 0xC8 ∧ mac[1] = 0xC2 := by
  rw [← any_eq_false, isMacOk]
  constructor
  · intro h
    split at h
    · cases h
    · rename_i hdefault
      split at h
      · cases h
      · rename_i hany
        split at h
        · cases h
        · rename_i hhead
          rw [not_or, not_not, not_not] at hhead
          exact ⟨Bool.eq_false_iff.mpr hany, hhead⟩
  · rintro ⟨hany, h0, h1⟩
    have hdefault : mac ≠ defaultMac := by
      rintro rfl
      cases h0
    rw [if_neg hdefault, hany, if_neg (by simp), if_neg (by simp [h0, h1])]

/-- The increment of a valid address is valid unless it gets to `0xFF`. -/
theorem plusOne_ok (h : isMacOk mac = true) : isMacOk (plusOne mac) = true ↔ mac[5] ≠ 0xFE := by
  rw [isMacOk_iff] at h ⊢
  obtain ⟨hbytes, h0, h1⟩ := h
  have h5 := (hbytes 5 (by decide)).2
  constructor
  · intro hnext hfe
    have hff := (hnext.1 5 (by decide)).2
    simp [plusOne, hfe] at hff
  · intro hfe
    refine ⟨fun i hi => ?_, ?_, ?_⟩
    · by_cases hi5 : i = 5
      · subst hi5
        simp only [plusOne, Vector.getElem_set_self]
        grind
      · simp only [plusOne, Vector.getElem_set_ne (h := Ne.symm hi5)]
        exact hbytes i hi
    · simpa [plusOne] using h0
    · simpa [plusOne] using h1

theorem plusOne_last (mac : Mac) : (plusOne mac)[5] = mac[5] + 1 := by simp [plusOne]

theorem plusOne_ne (mac : Mac) : plusOne mac ≠ mac := by
  intro h
  have hlast := plusOne_last mac
  rw [h] at hlast
  grind

theorem plusOne_plusOne_ne (mac : Mac) : plusOne (plusOne mac) ≠ mac := by
  intro h
  have hlast := plusOne_last (plusOne mac)
  rw [h, plusOne_last] at hlast
  grind

/-! ## The station's address -/

theorem patchSuffix_ok (suffix : Vector UInt8 4) : (patchSuffix suffix).toList.any badByte = false := by
  rw [any_eq_false]
  intro i hi
  rw [patchSuffix, Vector.getElem_mapIdx]
  rcases (by omega : i = 0 ∨ i = 1 ∨ i = 2 ∨ i = 3) with rfl | rfl | rfl | rfl <;>
    split <;> grind

theorem fillMacSuffixWithRandom_ok (trng : Nat → Vector UInt8 4) :
    (fillMacSuffixWithRandom trng).toList.any badByte = false := by
  rw [fillMacSuffixWithRandom]
  split
  · rename_i retry hfind
    simpa using List.find?_some hfind
  · exact patchSuffix_ok (trng 3)

theorem suffix_ok (boot : Boot) : boot.suffix.toList.any badByte = false := by
  rw [Boot.suffix]
  split
  · rename_i id _
    split
    · rename_i hid
      rw [isUniqueIdOkForMac] at hid
      split at hid
      · cases hid
      · simpa using hid
    · exact fillMacSuffixWithRandom_ok boot.trng
  · exact fillMacSuffixWithRandom_ok boot.trng

theorem staMac_ok (boot : Boot) : isMacOk boot.staMac = true := by
  have hsuffix := any_eq_false.mp (suffix_ok boot)
  rw [isMacOk_iff]
  have hC8 : (0xC8 : UInt8) ≠ 0 ∧ (0xC8 : UInt8) ≠ 0xFF := by decide
  have hC2 : (0xC2 : UInt8) ≠ 0 ∧ (0xC2 : UInt8) ≠ 0xFF := by decide
  refine ⟨fun i hi => ?_, rfl, rfl⟩
  match i, hi with
  | 0, _ => exact hC8
  | 1, _ => exact hC2
  | 2, _ => exact hsuffix 0 (by decide)
  | 3, _ => exact hsuffix 1 (by decide)
  | 4, _ => exact hsuffix 2 (by decide)
  | 5, _ => exact hsuffix 3 (by decide)

theorem base_ok (boot : Boot) (store : Param → Mac) : isMacOk (base boot store) = true := by
  rw [base]
  split
  · assumption
  · exact staMac_ok boot

end Addresses

/-! ## A run -/

/-- An address that is kept if it is valid. -/
def keep (mac new : Mac) : Mac := if isMacOk mac then mac else new

section Run

variable {run : Run} {p q : Param} {mac : Mac}

theorem repair_fst (run : Run) (p : Param) (mac : Mac) : (run.repair p mac).1 = keep (run.store p) mac := by
  rw [Run.repair, keep]
  split <;> rfl

theorem repair_store (run : Run) (p : Param) (mac : Mac) :
    (run.repair p mac).2.store = Function.update run.store p (keep (run.store p) mac) := by
  rw [Run.repair, keep]
  split
  · exact (Function.update_eq_self p run.store).symm
  · rfl

theorem repair_of_ok (h : isMacOk (run.store p) = true) : run.repair p mac = (run.store p, run) := by
  rw [Run.repair, if_pos h]

theorem sysMacInit_store (boot : Boot) (run : Run) :
    let ap := keep (run.store .wifiMacap) (plusOne (base boot run.store))
    (sysMacInit boot run).store .wifiMac = base boot run.store ∧
      (sysMacInit boot run).store .wifiMacap = ap ∧
      (sysMacInit boot run).store .btMac = keep (run.store .btMac) (plusOne ap) := by
  have hbase : keep (run.store .wifiMac) boot.staMac = base boot run.store := rfl
  simp only [sysMacInit, repair_fst, repair_store, hbase]
  refine ⟨?_, ?_, ?_⟩ <;> simp [Function.update_of_ne]

theorem sysMacInit_sets (run : Run) (boot : Boot) (h : ∀ p, isMacOk (run.store p) = true) : sysMacInit boot run = run := by
  simp only [sysMacInit, repair_of_ok (h _)]

theorem settles_iff (run : Run) :
    Settles run ↔ (∀ p, isMacOk (run.store p) = true) ∧ Function.Injective run.store := by
  constructor
  · intro h
    exact ⟨h.ok, h.distinct⟩
  · rintro ⟨hok, hdistinct⟩
    refine ⟨hok, hdistinct, fun boot => ?_⟩
    rw [sysMacInit_sets ⟨run.store, []⟩ boot hok]

theorem forall_param {P : Param → Prop} : (∀ p, P p) ↔ P .wifiMac ∧ P .wifiMacap ∧ P .btMac := by
  constructor
  · intro h
    exact ⟨h _, h _, h _⟩
  · rintro ⟨h1, h2, h3⟩ (_ | _ | _) <;> assumption

theorem injective_param {store : Param → Mac} :
    Function.Injective store ↔ store .wifiMacap ≠ store .wifiMac ∧ store .btMac ≠ store .wifiMac ∧
      store .btMac ≠ store .wifiMacap := by
  constructor
  · intro h
    exact ⟨h.ne (by decide), h.ne (by decide), h.ne (by decide)⟩
  · rintro ⟨h1, h2, h3⟩ p q hpq
    cases p <;> cases q <;> first | rfl | simp_all

end Run

/-- For every content of the store, unique id and random bytes, a boot leaves three valid and distinct addresses, which
no later boot sets, if and only if no increment gets to `0xFF` and the addresses it keeps differ from the others. -/
theorem sysMacInit_settles_iff (boot : Boot) (store : Param → Mac) :
    Settles (sysMacInit boot ⟨store, []⟩) ↔ Repairable boot store := by
  obtain ⟨hsta, hap, hble⟩ := sysMacInit_store boot ⟨store, []⟩
  have hbase := base_ok boot store
  rw [settles_iff, forall_param, injective_param, hsta, hap, hble, Repairable]
  generalize base boot store = sta at hbase
  dsimp only [keep]
  cases hapOk : isMacOk (store .wifiMacap) <;> cases hbleOk : isMacOk (store .btMac)
  · have hne : (plusOne sta)[5] ≠ 0xFE ↔ sta[5] ≠ 0xFD := by
      rw [plusOne_last]
      grind
    by_cases hfe : sta[5] = 0xFE
    · simp [hbase, plusOne_ok hbase, hfe]
    · have hnext := (plusOne_ok hbase).mpr hfe
      simp [hbase, hnext, plusOne_ok hnext, hne, hfe, plusOne_ne, plusOne_plusOne_ne]
  · simp [hbase, hbleOk, plusOne_ok hbase, plusOne_ne]
  · simp [hbase, hapOk, plusOne_ok hapOk, plusOne_ne]
  · simp [hbase, hapOk, hbleOk]

/-- A station at `…:FE`, with no AP and no BLE address: the AP's becomes `…:FF` and the BLE's `…:00`, which are not valid,
and the next boot sets them again. -/
theorem increment_to_ff :
    let store : Param → Mac := fun p => if p = .wifiMac then #v[0xC8, 0xC2, 1, 2, 3, 0xFE] else defaultMac
    let boot : Boot := ⟨none, fun _ => #v[1, 2, 3, 4]⟩
    ¬ Settles (sysMacInit boot ⟨store, []⟩) ∧
      isMacOk ((sysMacInit boot ⟨store, []⟩).store .wifiMacap) = false ∧
      (sysMacInit boot ⟨(sysMacInit boot ⟨store, []⟩).store, []⟩).sets =
        [(.wifiMacap, #v[0xC8, 0xC2, 1, 2, 3, 0xFF]), (.btMac, #v[0xC8, 0xC2, 1, 2, 3, 0])] := by
  refine ⟨fun h => ?_, by decide, by decide⟩
  have hap := h.ok .wifiMacap
  revert hap
  decide

end Wlan
end Air101
