import Air101.Fls.FastWrite
import Air101.Fwup.Header

/-!
# Fwup.Update

The firmware update (`platform/common/fwup/wm_fwup.c`): what `fwup_scheduler` does with one request,
and `tls_fwup_enter` and `tls_fwup_exit` around the requests of a session.

A request that has failed, or that has completed the image, resets the system (`resets`). The image
header is collected in `booter`, a local of `fwup_scheduler` that outlives the requests and the
sessions. Every `current_image_src` is at most `TLS_FWUP_IMAGE_SRC_WEB`, so the test of it is left out.

The lengths are 32-bit numbers.
-/

namespace Air101
namespace Fwup

open Storage
open Crypto
open Fls
open Fota (Header.signature Header.imgLen Header.orgChecksum)

/-- `TLS_FWUP_REQ_STATUS_*`. -/
inductive ReqStatus where
  | idle
  | busy
  | success
  | fio
  | fsignature
  | fmem
  | fcrc
  | fcomplete
  deriving DecidableEq, Repr

/-- The bits of `current_state`. -/
structure CurrentState where
  busy : Bool
  complete : Bool
  errorIo : Bool
  errorSignature : Bool
  errorMem : Bool
  errorCrc : Bool
  deriving DecidableEq, Repr

/-- `current_state = 0`. -/
def CurrentState.zero : CurrentState := ⟨false, false, false, false, false, false⟩

/-- Why a request is discarded without being looked at. -/
def CurrentState.discards (st : CurrentState) : Option ReqStatus :=
  if st.errorIo || st.errorSignature || st.errorMem || st.errorCrc then
    some (if st.errorIo then .fio
      else if st.errorSignature then .fsignature
      else if st.errorMem then .fmem
      else .fcrc)
  else if st.complete then some .fcomplete
  else none

/-- `fwup`, the scheduler's `booter`, and the flash under them. -/
structure State where
  fast : Fast
  busy : Bool
  currentState : CurrentState
  currentSessionId : Nat
  receivedLen : Nat
  totalLen : Nat
  updatedLen : Nat
  programBase : Nat
  programOffset : Nat
  booter : List Byte

/-- `TLS_FLASH_OTA_FLAG_ADDR`, as `tls_fls_sys_param_postion_init` sets it. -/
def otaFlagAddr (density : Nat) : Nat := 0x8000000 + density - 0x1000

namespace State

/-- The write of a part of the image at `program_base + program_offset`. -/
def program (f : State) (buf : List Byte) : Option (Status × State) :=
  match tlsFlsFastWrite f.fast ((f.programBase + f.programOffset) % 2 ^ 32) buf with
  | some (st, fast) => some (st, { f with fast := fast })
  | none => none

/-- The request fails with `TLS_FWUP_REQ_STATUS_FIO`. -/
def failIo (f : State) : State × ReqStatus :=
  ({ f with currentState := { f.currentState with errorIo := true } }, .fio)

/-- `received_len += data_len`. -/
def received (f : State) (n : Nat) : State := { f with receivedLen := (f.receivedLen + n) % 2 ^ 32 }

section Request

variable (hw : Engine) (t : Target)

/-- The header part of a request: bytes go to `booter` until it is full; then it is tested and written.
The bytes that are left over, or `none` if the request fails. -/
def takeHeader (junk : List Byte) (f : State) (data : List Byte) : Option (State × Option (List Byte)) :=
  if f.receivedLen < 64 then
    let len := min data.length (64 - f.receivedLen)
    let f := { f with
      booter := patch f.booter f.receivedLen (data.take len)
      receivedLen := f.receivedLen + len }
    let rest := data.drop len
    if f.receivedLen = 64 then
      if tlsFwupImgHeaderCheck hw t f.fast.dev junk f.booter then
        let f := { f with
          programBase := programBaseOf f.booter
          programOffset := 0
          totalLen := (Header.imgLen f.booter + 64 + signatureLen f.booter) % 2 ^ 32 }
        match f.program f.booter with
        | some (.ok, f) =>
          some (received { f with updatedLen := 64, programOffset := 64 } rest.length, some rest)
        | some (_, f) => some (f, none)
        | none => none
      else some (f, none)
    else some (f.received rest.length, some rest)
  else some (f.received data.length, some data)

/-- The loop that reads the body back, 1 KB at a time. -/
def verifyLoop (d : Dev) (programBase : Nat) : Nat → Nat → Nat → PsCrcContext → Option PsCrcContext
  | 0, _, _, ctx => some ctx
  | fuel + 1, offset, left, ctx =>
    if left = 0 then some ctx
    else
      let len := min left 1024
      match tlsFlsRead d true ((programBase + offset) % 2 ^ 32) len with
      | (.ok, bs) =>
        verifyLoop d programBase fuel (offset + len) (left - len) (tlsCryptoCrcUpdate hw ctx bs)
      | _ => none

/-- The image is complete: the cache goes to the flash, the body is read back and its checksum decides
about the flag. `heap` says whether the buffer for this can be allocated. -/
def finish (heap : Bool) (f : State) : State × ReqStatus :=
  let f := { f with fast := tlsFlsFastWriteDestroy f.fast }
  if heap = false then ({ f with currentState := { f.currentState with errorMem := true } }, .fmem)
  else
    let left := (f.totalLen + 2 ^ 32 - signatureLen f.booter - 64) % 2 ^ 32
    match verifyLoop hw f.fast.dev f.programBase left 64 left
        (tlsCryptoCrcInit 0xFFFFFFFF#32 .crc32 3) with
    | none => f.failIo
    | some ctx =>
      if Header.orgChecksum f.booter ≠ (tlsCryptoCrcFinal ctx).toNat then
        ({ f with currentState := { f.currentState with errorCrc := true } }, .fcrc)
      else
        let dev := (tlsFlsWrite f.fast.dev (otaFlagAddr (f.fast.dev.insideFls.getD 0))
          (leBytes 4 (Header.orgChecksum f.booter))).2
        ({ f with
            fast := { f.fast with dev := dev }
            currentState := { f.currentState with complete := true } }, .success)

/-- The part of a request behind the header. -/
def body (heap : Bool) (f : State) (rest : List Byte) : Option (State × ReqStatus) :=
  if rest = [] then some (f, .success)
  else
    match f.program rest with
    | none => none
    | some (.ok, f) =>
      let f := { f with
        programOffset := (f.programOffset + rest.length) % 2 ^ 32
        updatedLen := (f.updatedLen + rest.length) % 2 ^ 32 }
      if f.totalLen ≤ f.updatedLen then some (f.finish hw heap) else some (f, .success)
    | some (_, f) => some f.failIo

/-- `fwup_scheduler` on one request, up to `request_finish`; `none` when it copies to a NULL cache. -/
def request (junk : List Byte) (heap : Bool) (f : State) (data : List Byte) :
    Option (State × ReqStatus) :=
  match f.currentState.discards with
  | some st => some (f, st)
  | none =>
    match f.takeHeader hw t junk data with
    | none => none
    | some (f, none) => some f.failIo
    | some (f, some rest) => f.body hw heap rest

end Request

/-- Whether `tls_sys_reset` is called behind a request. -/
def resets (f : State) (st : ReqStatus) : Bool :=
  (64 ≤ f.updatedLen ∧ f.totalLen ≤ f.updatedLen) ∨ st ≠ .success

/-- The state both `tls_fwup_enter` and `tls_fwup_exit` leave in the counters. -/
def clear (f : State) : State :=
  { f with
    currentState := .zero
    receivedLen := 0
    totalLen := 0
    updatedLen := 0
    programBase := 0
    programOffset := 0 }

end State

/-- `tls_fwup_enter` on an installed module: the session id `rand()` has given, and the memory that
`tls_fls_fast_write_init` gets. -/
def tlsFwupEnter (sessionId : Nat) (mem : Option (List Byte)) (f : State) : Nat × State :=
  if f.busy then (0, f)
  else
    (sessionId, { f.clear with
      currentSessionId := sessionId
      busy := true
      fast := (tlsFlsFastWriteInit mem f.fast).2 })

/-- `TLS_FWUP_STATUS_*`, as far as these functions return them. -/
inductive FwupStatus where
  | ok
  | eperm
  | ebusy
  | esessionid
  deriving DecidableEq, Repr

/-- The tests in front of `tls_fwup_exit` and `tls_fwup_reset`. -/
def exitCheck (sessionId : Nat) (f : State) : FwupStatus :=
  if f.busy = false then .eperm
  else if sessionId ≠ f.currentSessionId then .esessionid
  else if f.currentState.busy then .ebusy
  else .ok

/-- `tls_fwup_exit`. -/
def tlsFwupExit (sessionId : Nat) (f : State) : FwupStatus × State :=
  match exitCheck sessionId f with
  | .ok => (.ok, { f.clear with currentSessionId := 0, busy := false })
  | e => (e, f)

/-- `tls_fwup_reset`. -/
def tlsFwupReset (sessionId : Nat) (f : State) : FwupStatus × State :=
  match exitCheck sessionId f with
  | .ok => (.ok, f.clear)
  | e => (e, f)

/-! ## What requests leave alone -/

/-- The session goes on, and `TLS_FWUP_STATE_BUSY` is what it was. -/
structure State.SameSession (f f' : State) : Prop where
  busy : f'.busy = f.busy
  id : f'.currentSessionId = f.currentSessionId
  state : f'.currentState.busy = f.currentState.busy

theorem State.SameSession.refl (f : State) : f.SameSession f := ⟨rfl, rfl, rfl⟩

theorem State.SameSession.trans {f g h : State} (hg : f.SameSession g) (hh : g.SameSession h) :
    f.SameSession h :=
  ⟨hh.busy.trans hg.busy, hh.id.trans hg.id, hh.state.trans hg.state⟩

section Keeps

variable {hw : Engine} {t : Target} {junk : List Byte} {heap : Bool} {f f' : State} {data : List Byte}

theorem program_session {st : Status} (h : f.program data = some (st, f')) : f.SameSession f' := by
  unfold State.program at h
  split at h
  · cases h
    exact ⟨rfl, rfl, rfl⟩
  · cases h

theorem takeHeader_session {rest : Option (List Byte)}
    (h : f.takeHeader hw t junk data = some (f', rest)) : f.SameSession f' := by
  unfold State.takeHeader at h
  split at h
  · simp only [] at h
    split at h
    · split at h
      · split at h
        · rename_i hprog
          have hkeep := program_session hprog
          cases h
          exact ⟨hkeep.busy, hkeep.id, hkeep.state⟩
        · rename_i hprog
          have hkeep := program_session hprog
          cases h
          exact ⟨hkeep.busy, hkeep.id, hkeep.state⟩
        · cases h
      · cases h
        exact ⟨rfl, rfl, rfl⟩
    · cases h
      exact ⟨rfl, rfl, rfl⟩
  · cases h
    exact ⟨rfl, rfl, rfl⟩

theorem finish_session (hw : Engine) (heap : Bool) (f : State) : f.SameSession (f.finish hw heap).1 := by
  unfold State.finish
  simp only []
  split
  · exact ⟨rfl, rfl, rfl⟩
  · split
    · exact ⟨rfl, rfl, rfl⟩
    · split
      · exact ⟨rfl, rfl, rfl⟩
      · exact ⟨rfl, rfl, rfl⟩

theorem body_session {st : ReqStatus} (h : f.body hw heap data = some (f', st)) :
    f.SameSession f' := by
  unfold State.body at h
  split at h
  · cases h
    exact ⟨rfl, rfl, rfl⟩
  · split at h
    · cases h
    · rename_i g hprog
      have hkeep := program_session hprog
      simp only [] at h
      split at h
      · simp only [Option.some.injEq] at h
        have hfin := finish_session hw heap { g with
          programOffset := (g.programOffset + data.length) % 2 ^ 32
          updatedLen := (g.updatedLen + data.length) % 2 ^ 32 }
        rw [h] at hfin
        exact ⟨hfin.busy.trans hkeep.busy, hfin.id.trans hkeep.id, hfin.state.trans hkeep.state⟩
      · cases h
        exact ⟨hkeep.busy, hkeep.id, hkeep.state⟩
    · rename_i hprog
      have hkeep := program_session hprog
      cases h
      exact ⟨hkeep.busy, hkeep.id, hkeep.state⟩

theorem request_session {st : ReqStatus} (h : f.request hw t junk heap data = some (f', st)) :
    f.SameSession f' := by
  unfold State.request at h
  split at h
  · cases h
    exact ⟨rfl, rfl, rfl⟩
  · split at h
    · cases h
    · rename_i htake
      have hkeep := takeHeader_session htake
      cases h
      exact ⟨hkeep.busy, hkeep.id, hkeep.state⟩
    · rename_i htake
      have hkeep := takeHeader_session htake
      have hbody := body_session h
      exact hkeep.trans hbody

end Keeps

end Fwup
end Air101
