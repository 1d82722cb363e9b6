import Air101.Fwup.Stream

/-!
# Fwup.Sessions

Sessions of the firmware update, one after the other.

The write-back cache and `gsSector` outlive a session that was left with `tls_fwup_exit`; `Left` is what
such a session leaves.

* `session_promise`: the image arrives in the flash and its checksum decides about the flag.
* `session_left`: what a session leaves for the next one.
* `fwup_stream`: every session of a run keeps its promise.
-/

namespace Air101
namespace Fwup

open Storage
open Crypto
open Fls
open Fota (Header.signature Header.imgLen Header.orgChecksum Header.imgLen_lt)

/-! ## Sessions -/

/-- A session: its id, what `tls_fls_fast_write_init` gets from `tls_mem_alloc` for the cache, what the
stack of the header test holds, whether the buffer for the verification can be allocated, and the
requests. -/
structure Session where
  sessionId : Nat
  mem : Option (List Byte)
  junk : List Byte
  heap : Bool
  requests : List (List Byte)
  mem_len : ∀ bs, mem = some bs → bs.length = 4096
  nonempty : ∀ r ∈ requests, r ≠ []

/-- The bytes of a session. -/
def Session.bytes (x : Session) : List Byte := x.requests.flatten

/-- The header at the start of them. -/
def Session.header (x : Session) : List Byte := x.bytes.take 64

section Sessions

variable (hw : Engine) (t : Target)

/-- The requests one after the other; `true` behind a request that resets the system. -/
def serve (x : Session) : State → List (List Byte) → Option (State × Bool)
  | f, [] => some (f, false)
  | f, r :: rs =>
    match f.request hw t x.junk x.heap r with
    | none => none
    | some (f, st) => if f.resets st then some (f, true) else serve x f rs

/-- The module after a reset of the system, over the flash that is left. -/
def reboot (f : State) : State :=
  { f.clear with
    fast := ⟨f.fast.dev, none, 0⟩
    busy := false
    currentSessionId := 0 }

/-- The state behind a session: left with `tls_fwup_exit`, or after a reset. -/
def sessionStep (f : State) (x : Session) : State :=
  match serve hw t x (tlsFwupEnter x.sessionId x.mem f).2 x.requests with
  | some (g, false) => (tlsFwupExit x.sessionId g).2
  | some (g, true) => reboot g
  | none => f

/-- What a session promises for an accepted header. Before the image is complete the system is not reset,
`COMPLETE` is not set and the flag's sector is not touched; the request that completes it leaves the
image in the flash and lets its checksum decide. -/
def Session.Promise (c : MapChip) (f : State) (x : Session) : Prop :=
  64 ≤ x.bytes.length → tlsFwupImgHeaderCheck hw t f.fast.dev x.junk x.header = true →
    imageBytes x.header < 2 ^ 32 →
    ∀ before last after, x.requests = before ++ last :: after →
      before.flatten.length < imageBytes x.header →
      ∃ g, serve hw t x (tlsFwupEnter x.sessionId x.mem f).2 before = some (g, false) ∧
        g.updatedLen < imageBytes x.header ∧ g.currentState.complete = false ∧
        ¬ FlagTouched c f.fast.dev g.fast.dev ∧
        (imageBytes x.header ≤ (before.flatten ++ last).length →
          ∃ g' st, g.request hw t x.junk x.heap last = some (g', st) ∧
            Finished c f.fast.dev x.header (before.flatten ++ last) g')

/-- There is a cache: `tls_fwup_enter` does not look at what `tls_fls_fast_write_init` returns. -/
def Session.Cached (f : State) (x : Session) : Prop := f.fast.gsflscache = none → x.mem ≠ none

/-- The session has a cache, the sum that the header test compares with `CODE_RUN_START_ADDR` does not
wrap, and the request that completes the image finds memory for the verification, has more than the
header's bytes behind it and ends below the flag's sector. -/
def Session.Sound (c : MapChip) (f : State) (x : Session) : Prop :=
  64 ≤ x.bytes.length → tlsFwupImgHeaderCheck hw t f.fast.dev x.junk x.header = true →
    x.Cached f ∧ programBaseOf x.header + Header.imgLen x.header < 2 ^ 32 ∧
      ∀ before last after, x.requests = before ++ last :: after →
        before.flatten.length < imageBytes x.header →
        imageBytes x.header ≤ (before.flatten ++ last).length →
        x.heap = true ∧ 64 < (before.flatten ++ last).length ∧
          programBaseOf x.header + (before.flatten ++ last).length < otaFlagAddr c.density

/-- What earlier sessions have left. -/
structure Left (c : MapChip) (f : State) : Prop where
  installed : f.fast.dev.insideFls = some c.density
  cache : ∀ cache, f.fast.gsflscache = some cache → cache.length = 4096
  sector : f.fast.gsSector ≠ 0 → f.fast.gsSector < c.density / 4096 + 0x8000 →
    f.fast.gsSector * 4096 % 0x8000000 + 4096 ≤ c.density - 0x1000
  idle : f.busy = false
  booter : f.booter.length = 64

end Sessions

section Progress

variable (c : MapChip) {hw : Engine} {t : Target} {f : State} {x : Session}

/-- The flash driver when the session's first request arrives. -/
def Session.start (x : Session) (f : State) : Fast := (tlsFlsFastWriteInit x.mem f.fast).2

theorem start_dev (x : Session) (f : State) : (x.start f).dev = f.fast.dev := by
  unfold Session.start tlsFlsFastWriteInit
  split <;> rfl

theorem start_gsSector (x : Session) (f : State) : (x.start f).gsSector = f.fast.gsSector := by
  unfold Session.start tlsFlsFastWriteInit
  split <;> rfl

theorem start_installed (x : Session) (h : Left c f) : (x.start f).dev.insideFls = some c.density := by
  rw [start_dev, h.installed]

theorem start_cache (x : Session) (h : Left c f) (cache : List Byte)
    (hc : (x.start f).gsflscache = some cache) : cache.length = 4096 := by
  unfold Session.start tlsFlsFastWriteInit at hc
  split at hc
  · exact h.cache cache hc
  · exact h.cache cache hc
  · exact h.cache cache hc
  · rename_i hmem
    cases hc
    exact x.mem_len _ hmem

theorem start_sector (x : Session) (h : Left c f) : (x.start f).gsSector ≠ 0 →
    (x.start f).gsSector < c.density / 4096 + 0x8000 →
      (x.start f).gsSector * 4096 % 0x8000000 + 4096 ≤ c.density - 0x1000 := by
  rw [start_gsSector]
  exact h.sector

theorem start_ready (h : Left c f) (hx : x.Cached f) : Ready c (x.start f) := by
  obtain ⟨cache, hc⟩ : ∃ cache, (x.start f).gsflscache = some cache := by
    unfold Session.start tlsFlsFastWriteInit
    rw [h.installed]
    cases hc : f.fast.gsflscache with
    | some cache => exact ⟨cache, hc⟩
    | none =>
      obtain ⟨bs, hbs⟩ := Option.ne_none_iff_exists'.mp (hx hc)
      rw [hbs]
      exact ⟨bs, rfl⟩
  exact ⟨start_installed c x h, ⟨cache, hc, start_cache c x h cache hc⟩, start_sector c x h⟩

theorem enter_collecting (h : Left c f) :
    Collecting (x.start f) [] (tlsFwupEnter x.sessionId x.mem f).2 := by
  unfold tlsFwupEnter
  rw [if_neg (by rw [h.idle]; decide)]
  exact ⟨rfl, rfl, rfl, by decide, rfl, h.booter, rfl⟩

theorem prefix_take {bs ys : List Byte} {n : Nat} (h : bs <+: ys) (hn : n ≤ bs.length) :
    bs.take n = ys.take n := by
  obtain ⟨zs, rfl⟩ := h
  rw [List.take_append_of_le_length hn]

/-! ## The requests of a session -/

theorem serve_append (x : Session) (rs after : List (List Byte)) : ∀ f g : State,
    serve hw t x f rs = some (g, false) → serve hw t x f (rs ++ after) = serve hw t x g after := by
  induction rs with
  | nil =>
    intro f g h
    cases h
    rfl
  | cons r rs ih =>
    intro f g h
    simp only [serve, List.cons_append] at h ⊢
    cases hreq : f.request hw t x.junk x.heap r with
    | none =>
      rw [hreq] at h
      cases h
    | some p =>
      rw [hreq] at h
      simp only [] at h ⊢
      split at h
      · cases h
      · rename_i hno
        rw [if_neg hno]
        exact ih p.1 g h

theorem serve_session (rs : List (List Byte)) : ∀ (f g : State) (b : Bool),
    serve hw t x f rs = some (g, b) → f.SameSession g := by
  induction rs with
  | nil =>
    intro f g b h
    cases h
    exact .refl f
  | cons r rs ih =>
    intro f g b h
    simp only [serve] at h
    cases hreq : f.request hw t x.junk x.heap r with
    | none =>
      rw [hreq] at h
      cases h
    | some p =>
      have hkeep := request_session hreq
      rw [hreq] at h
      simp only [] at h
      split at h
      · cases h
        exact hkeep
      · have hrest := ih p.1 g b h
        exact hkeep.trans hrest

theorem serve_collecting (hw : Engine) (t : Target) (x : Session) (rs : List (List Byte)) :
    ∀ (s : Fast) (bs : List Byte) (f : State), Collecting s bs f → (bs ++ rs.flatten).length < 64 →
    ∃ g, serve hw t x f rs = some (g, false) ∧ Collecting s (bs ++ rs.flatten) g := by
  induction rs with
  | nil =>
    intro s bs f hc _
    rw [List.flatten_nil, List.append_nil]
    exact ⟨f, rfl, hc⟩
  | cons r rs ih =>
    intro s bs f hc hshort
    rw [List.flatten_cons, ← List.append_assoc] at hshort ⊢
    have hr : bs.length + r.length < 64 := by
      rw [List.length_append, List.length_append] at hshort
      omega
    obtain ⟨f', htake, hc'⟩ := takeHeader_collect hw t x.junk hc hr
    have hreq : f.request hw t x.junk x.heap r = some (f', .success) := by
      rw [request_zero hw t x.junk x.heap hc.state, htake]
      rfl
    have hno : f'.resets .success = false := by
      unfold State.resets
      rw [hc'.updated]
      simp
    obtain ⟨g, hserve, hcg⟩ := ih s (bs ++ r) f' hc' hshort
    refine ⟨g, ?_, hcg⟩
    rw [serve, hreq]
    simp only [hno]
    exact hserve

theorem serve_more {s : Fast} (hs : Ready c s)
    (hok : tlsFwupImgHeaderCheck hw t s.dev x.junk x.header = true) (hp : Placed x.header)
    (rs : List (List Byte)) : ∀ (bs : List Byte) (f : State),
    Underway c s x.header bs f → bs ++ rs.flatten <+: x.bytes →
    (bs ++ rs.flatten).length < imageBytes x.header →
    ∃ g, serve hw t x f rs = some (g, false) ∧ Underway c s x.header (bs ++ rs.flatten) g := by
  induction rs with
  | nil =>
    intro bs f hu _ _
    rw [List.flatten_nil, List.append_nil]
    exact ⟨f, rfl, hu⟩
  | cons r rs ih =>
    intro bs f hu hpre hless
    rw [List.flatten_cons, ← List.append_assoc] at hpre hless ⊢
    have hr : bs ++ r <+: x.bytes := (List.prefix_append _ _).trans hpre
    obtain ⟨f', hreq, hu', hno⟩ := request_more c hw t x.junk x.heap hs hu hok hp
      (fun h64 => prefix_take hr h64)
      (by rw [List.length_append] at hless; omega)
    obtain ⟨g, hserve, hug⟩ := ih (bs ++ r) f' hu' hpre hless
    refine ⟨g, ?_, hug⟩
    rw [serve, hreq]
    simp only [hno]
    exact hserve

theorem Underway.within {s : Fast} {h bs : List Byte} {g : State} (hu : Underway c s h bs g) :
    s.dev.Within (c.density - 0x1000) g.fast.dev := by
  rcases hu with hc | ⟨_, hp, _⟩
  · rw [hc.fast]
    exact .refl _ _
  · exact hp.within

theorem Underway.updated_lt {s : Fast} {h bs : List Byte} {g : State} (hu : Underway c s h bs g)
    (hless : bs.length < imageBytes h) : g.updatedLen < imageBytes h := by
  rcases hu with hc | ⟨_, hp, _⟩
  · rw [hc.updated]
    omega
  · rw [hp.updated]
    exact hless

/-- A sound session keeps its promise, whatever earlier sessions have left. -/
theorem session_promise (hr : Reflected hw) (hl : Left c f) (hs : x.Sound hw t c f) :
    x.Promise hw t c f := by
  intro h64 hok _ before last after hreq hless
  obtain ⟨hcached, hwrap, hlast⟩ := hs h64 hok
  have hp : Placed x.header := (accepted hok).placed hwrap
  have hready := start_ready c hl hcached
  have hok' : tlsFwupImgHeaderCheck hw t (x.start f).dev x.junk x.header = true := by
    rw [start_dev]
    exact hok
  have hbytes : x.bytes = before.flatten ++ (last ++ after.flatten) := by
    rw [Session.bytes, hreq, List.flatten_append, List.flatten_cons]
  obtain ⟨g, hserve, hu⟩ := serve_more c hready hok' hp before [] _ (.inl (enter_collecting c hl))
    ⟨_, hbytes.symm⟩ hless
  rw [List.nil_append] at hu
  refine ⟨g, hserve, hu.updated_lt c hless, by rw [hu.state]; rfl, ?_, ?_⟩
  · have hwithin := hu.within c
    rw [start_dev] at hwithin
    exact not_flagTouched c hwithin
  · intro hmore
    obtain ⟨hheap, h65, hend⟩ := hlast before last after hreq hless hmore
    have hpre : before.flatten ++ last <+: x.bytes := ⟨after.flatten, by rw [hbytes, List.append_assoc]⟩
    obtain ⟨f', hcall, hprog⟩ := request_last c hw t x.junk x.heap hready hu hok' hp
      (prefix_take hpre (by omega)) (x.nonempty last (by rw [hreq]; simp)) hmore h65 hend
    have hfin := finish_spec c hr hprog hp hmore hend
    rw [start_dev] at hfin
    rw [hheap] at hcall ⊢
    cases hg' : f'.finish hw true with
    | mk g' st =>
      rw [hg'] at hcall hfin
      exact ⟨g', st, hcall, hfin⟩

/-! ## What a session leaves -/

theorem finish_kept (hw : Engine) (heap : Bool) (g : State) :
    (g.finish hw heap).1.fast.dev.insideFls = g.fast.dev.insideFls ∧
      (g.finish hw heap).1.booter = g.booter ∧ (g.finish hw heap).1.updatedLen = g.updatedLen ∧
      (g.finish hw heap).1.totalLen = g.totalLen := by
  have hdes : (tlsFlsFastWriteDestroy g.fast).dev.insideFls = g.fast.dev.insideFls := by
    unfold tlsFlsFastWriteDestroy
    split
    · rw [flushSector_insideFls]
    · rfl
  unfold State.finish
  simp only []
  split
  · exact ⟨hdes, rfl, rfl, rfl⟩
  · split
    · exact ⟨hdes, rfl, rfl, rfl⟩
    · split
      · exact ⟨hdes, rfl, rfl, rfl⟩
      · refine ⟨?_, rfl, rfl, rfl⟩
        rw [tlsFlsWrite_insideFls]
        exact hdes

theorem reboot_left {g : State} (hd : g.fast.dev.insideFls = some c.density)
    (hb : g.booter.length = 64) : Left c (reboot g) :=
  ⟨hd, fun _ h => (by cases h), fun h => absurd rfl h, rfl, hb⟩

theorem exit_left {h bs : List Byte} {g : State} (hl : Left c f)
    (hu : Underway c (x.start f) h bs g) (hp : 64 ≤ bs.length → Placed h ∧ h.length = 64)
    (hless : bs.length < imageBytes h) (hbusy : g.busy = true)
    (hid : g.currentSessionId = x.sessionId) : Left c (tlsFwupExit x.sessionId g).2 := by
  have hcheck : exitCheck x.sessionId g = .ok := by
    unfold exitCheck
    rw [hbusy, hid, hu.state]
    simp [CurrentState.zero]
  unfold tlsFwupExit
  rw [hcheck]
  rcases hu with hc | ⟨h64, hprog, _⟩
  · have hinst := start_installed c x hl
    have hcache := start_cache c x hl
    have hsec := start_sector c x hl
    rw [← hc.fast] at hinst hcache hsec
    exact ⟨hinst, hcache, hsec, rfl, hc.booter_len⟩
  · obtain ⟨m, cache, hcache, hst⟩ := hprog.carries
    obtain ⟨hplaced, hlen⟩ := hp h64
    have hinst : g.fast.dev.insideFls = some c.density := hst.installed
    have hcl : cache.length = 4096 := hst.cache
    have hsector : g.fast.gsSector = (programBaseOf h + bs.length) / 4096 := hst.sector
    refine ⟨hinst, ?_, ?_, rfl, ?_⟩
    · intro cache' hc'
      have : some cache = some cache' := hcache.symm.trans hc'
      cases this
      exact hcl
    · intro _ _
      have hge := hplaced.base_ge
      have hend := hplaced.imageBytes_le
      have hroom := c.room
      change g.fast.gsSector * 4096 % 0x8000000 + 4096 ≤ c.density - 0x1000
      rw [hsector]
      lia
    · change g.booter.length = 64
      rw [hprog.header, hlen]

theorem split_requests : ∀ (rs : List (List Byte)) (n : Nat), 0 < n → n ≤ rs.flatten.length →
    ∃ before last after, rs = before ++ last :: after ∧ before.flatten.length < n ∧
      n ≤ (before.flatten ++ last).length := by
  intro rs
  induction rs with
  | nil =>
    intro n hn hle
    simp at hle
    omega
  | cons r rs ih =>
    intro n hn hle
    rw [List.flatten_cons, List.length_append] at hle
    by_cases hr : n ≤ r.length
    · exact ⟨[], r, rs, rfl, by simpa using hn, by simpa using hr⟩
    · obtain ⟨before, last, after, rfl, hless, hmore⟩ := ih (n - r.length) (by omega) (by omega)
      refine ⟨r :: before, last, after, rfl, ?_, ?_⟩
      · rw [List.flatten_cons, List.length_append]
        omega
      · rw [List.flatten_cons, List.append_assoc, List.length_append]
        omega

theorem sessionStep_reset {before after : List (List Byte)} {last : List Byte} {g g' : State}
    {st : ReqStatus} (hreq : x.requests = before ++ last :: after)
    (hserve : serve hw t x (tlsFwupEnter x.sessionId x.mem f).2 before = some (g, false))
    (hcall : g.request hw t x.junk x.heap last = some (g', st)) (hres : g'.resets st = true) :
    sessionStep hw t f x = reboot g' := by
  unfold sessionStep
  rw [hreq, serve_append x before _ _ g hserve, serve, hcall]
  simp only [hres]
  rfl

theorem sessionStep_exit {g : State}
    (hserve : serve hw t x (tlsFwupEnter x.sessionId x.mem f).2 x.requests = some (g, false)) :
    sessionStep hw t f x = (tlsFwupExit x.sessionId g).2 := by
  unfold sessionStep
  rw [hserve]

theorem enter_session (hl : Left c f) {g : State} {b : Bool} {rs : List (List Byte)}
    (hserve : serve hw t x (tlsFwupEnter x.sessionId x.mem f).2 rs = some (g, b)) :
    g.busy = true ∧ g.currentSessionId = x.sessionId := by
  obtain ⟨hbusy, hid, _⟩ := serve_session rs _ g b hserve
  unfold tlsFwupEnter at hbusy hid
  rw [if_neg (by rw [hl.idle]; decide)] at hbusy hid
  exact ⟨hbusy, hid⟩

theorem refused_left (hl : Left c f) (h64 : 64 ≤ x.bytes.length)
    (hno : tlsFwupImgHeaderCheck hw t f.fast.dev x.junk x.header = false) :
    Left c (sessionStep hw t f x) := by
  obtain ⟨before, last, after, hreq, hless, hmore⟩ := split_requests x.requests 64 (by omega) h64
  obtain ⟨g, hserve, hc⟩ := serve_collecting hw t x before _ [] _
    (enter_collecting c hl) hless
  rw [List.nil_append] at hc
  have hpre : before.flatten ++ last <+: x.bytes :=
    ⟨after.flatten, by rw [Session.bytes, hreq]; simp⟩
  obtain ⟨g', hcall, hfast, hlen⟩ := request_refused hw t x.junk x.heap
    hc hmore (by rw [prefix_take hpre hmore, start_dev]; exact hno)
  rw [sessionStep_reset hreq hserve hcall (by simp [State.resets])]
  refine reboot_left c ?_ hlen
  change g'.fast.dev.insideFls = some c.density
  rw [hfast]
  exact start_installed c x hl

section Accepted

variable (hl : Left c f) (hcached : x.Cached f) (hok : tlsFwupImgHeaderCheck hw t f.fast.dev x.junk x.header = true)
variable (hp : Placed x.header) (hlen : x.header.length = 64)

include hl hcached hok hp hlen

theorem complete_left {before after : List (List Byte)} {last : List Byte}
    (hreq : x.requests = before ++ last :: after)
    (hless : before.flatten.length < imageBytes x.header)
    (hmore : imageBytes x.header ≤ (before.flatten ++ last).length)
    (h65 : 64 < (before.flatten ++ last).length)
    (hend : programBaseOf x.header + (before.flatten ++ last).length < otaFlagAddr c.density) :
    Left c (sessionStep hw t f x) := by
  have hready := start_ready c hl hcached
  rw [← start_dev x f] at hok
  have hpre : before.flatten ++ last <+: x.bytes :=
    ⟨after.flatten, by rw [Session.bytes, hreq]; simp⟩
  obtain ⟨g, hserve, hu⟩ := serve_more c hready hok hp before [] _ (.inl (enter_collecting c hl))
    ((List.prefix_append _ _).trans hpre) hless
  rw [List.nil_append] at hu
  obtain ⟨f', hcall, hprog⟩ := request_last c hw t x.junk x.heap hready hu hok hp
    (prefix_take hpre (by omega)) (x.nonempty last (by rw [hreq]; simp)) hmore h65 hend
  obtain ⟨hdev, hbooter, hupd, htot⟩ := finish_kept hw x.heap f'
  obtain ⟨m, cache, _, hst⟩ := hprog.carries
  have hinst : f'.fast.dev.insideFls = some c.density := hst.installed
  cases hg' : f'.finish hw x.heap with
  | mk g' st =>
    rw [hg'] at hcall hdev hbooter hupd htot
    simp only [] at hdev hbooter hupd htot
    rw [sessionStep_reset hreq hserve hcall ?_]
    · exact reboot_left c (by rw [hdev, hinst]) (by rw [hbooter, hprog.header, hlen])
    · unfold State.resets
      rw [hupd, htot, hprog.updated, hprog.total, decide_eq_true_eq]
      exact .inl ⟨by omega, hmore⟩

theorem partial_left (hless : x.bytes.length < imageBytes x.header) :
    Left c (sessionStep hw t f x) := by
  have hready := start_ready c hl hcached
  rw [← start_dev x f] at hok
  obtain ⟨g, hserve, hu⟩ := serve_more c hready hok hp x.requests [] _
    (.inl (enter_collecting c hl)) (by rw [List.nil_append]; exact List.prefix_rfl)
    (by rw [List.nil_append]; exact hless)
  rw [List.nil_append] at hu
  obtain ⟨hbusy, hid⟩ := enter_session c hl hserve
  rw [sessionStep_exit hserve]
  exact exit_left c hl hu (fun _ => ⟨hp, hlen⟩) hless hbusy hid

end Accepted

theorem headless_left (hl : Left c f) (h64 : x.bytes.length < 64) :
    Left c (sessionStep hw t f x) := by
  obtain ⟨g, hserve, hc⟩ := serve_collecting hw t x x.requests _ [] _
    (enter_collecting c hl) h64
  obtain ⟨hbusy, hid⟩ := enter_session c hl hserve
  rw [List.nil_append] at hc
  rw [sessionStep_exit hserve]
  refine exit_left c (h := []) hl (.inl hc) (fun h => absurd h (Nat.not_le.mpr h64)) ?_
    hbusy hid
  have : 64 ≤ imageBytes [] := by
    unfold imageBytes
    omega
  unfold Session.bytes at h64
  omega

/-- A sound session leaves what the next one needs. -/
theorem session_left (hl : Left c f) (hs : x.Sound hw t c f) : Left c (sessionStep hw t f x) := by
  by_cases h64 : 64 ≤ x.bytes.length
  · cases hok : tlsFwupImgHeaderCheck hw t f.fast.dev x.junk x.header with
    | false => exact refused_left c hl h64 hok
    | true =>
      obtain ⟨hcached, hwrap, hlast⟩ := hs h64 hok
      have hp : Placed x.header := (accepted hok).placed hwrap
      have hlen : x.header.length = 64 := by
        rw [Session.header, List.length_take]
        omega
      by_cases hall : imageBytes x.header ≤ x.bytes.length
      · obtain ⟨before, last, after, hreq, hless, hmore⟩ :=
          split_requests x.requests _ (by unfold imageBytes; omega) hall
        obtain ⟨_, h65, hend⟩ := hlast before last after hreq hless hmore
        exact complete_left c hl hcached hok hp hlen hreq hless hmore h65 hend
      · exact partial_left c hl hcached hok hp hlen (Nat.not_le.mp hall)
  · exact headless_left c hl (Nat.not_le.mp h64)

/-- The module after power-on, over a flash that has been found. -/
def powerOn (d : Dev) (booter : List Byte) : State :=
  { fast := ⟨d, none, 0⟩
    busy := false
    currentState := .zero
    currentSessionId := 0
    receivedLen := 0
    totalLen := 0
    updatedLen := 0
    programBase := 0
    programOffset := 0
    booter := booter }

end Progress

/-- In every run of sound sessions after power-on, each session keeps its promise. -/
theorem fwup_stream (c : MapChip) (hw : Engine) (t : Target) (hr : Reflected hw) (d : Dev)
    (hd : d.insideFls = some c.density) (booter : List Byte) (hb : booter.length = 64)
    (xs : List Session)
    (hs : ∀ p ∈ trace (sessionStep hw t) (powerOn d booter) xs, p.2.Sound hw t c p.1) :
    ∀ p ∈ trace (sessionStep hw t) (powerOn d booter) xs, p.2.Promise hw t c p.1 := by
  have hstart : Left c (powerOn d booter) :=
    ⟨hd, fun _ h => (by cases h), fun h => absurd rfl h, rfl, hb⟩
  have hinv := (trace_inv (Left c) (fun f (x : Session) => x.Sound hw t c f)
    (fun _ _ hsound hl => session_left c hl hsound) hs hstart).1
  intro p hp
  exact session_promise c hr (hinv p hp) (hs p hp)

/-- The chip of 2 MB. -/
def mapChip2M : MapChip := ⟨chip2M, by decide⟩

/-- A session of an image with four body bytes, in two requests. -/
def fourBytes : Session where
  sessionId := 7
  mem := some (List.replicate 4096 0#8)
  junk := []
  heap := true
  requests := [headerFor 4 0 ++ [1#8], [2#8, 3#8, 4#8]]
  mem_len := fun _ h => by
    cases h
    exact cache_length
  nonempty := by simp [headerFor]

theorem fourBytes_bytes : fourBytes.bytes = headerFor 4 0 ++ [1#8, 2#8, 3#8, 4#8] := by
  change (headerFor 4 0 ++ [1#8]) ++ ([2#8, 3#8, 4#8] ++ []) = _
  simp

theorem headerFor_length (len org : Nat) : (headerFor len org).length = 64 := by
  simp [headerFor]

theorem fourBytes_header : fourBytes.header = headerFor 4 0 := by
  rw [Session.header, fourBytes_bytes, List.take_left' (headerFor_length 4 0)]

theorem fourBytes_sound (f : State) : fourBytes.Sound softEngine .air101 mapChip2M f := by
  have himg : imageBytes (headerFor 4 0) = 68 := by decide +kernel
  have hbase : programBaseOf (headerFor 4 0) = 0x8010000 := by decide +kernel
  have hlen : Header.imgLen (headerFor 4 0) = 4 := by decide +kernel
  have hflag : otaFlagAddr mapChip2M.density = 0x81FF000 := by decide
  have hall : fourBytes.bytes.length = 68 := by
    rw [fourBytes_bytes, List.length_append, headerFor_length, List.length_cons]
    simp
  intro _ _
  rw [fourBytes_header, himg, hbase, hlen, hflag]
  refine ⟨fun _ => Option.some_ne_none _, by decide, ?_⟩
  intro before last after hreq _ hmore
  have hbytes : (before.flatten ++ last).length + after.flatten.length = 68 := by
    rw [← hall, Session.bytes, hreq, ← List.length_append]
    simp
  exact ⟨rfl, by omega, by omega⟩

theorem fwup_stream_four_bytes :
    tlsFwupImgHeaderCheck softEngine .air101 zeros2M [] fourBytes.header = true ∧
      fourBytes.Promise softEngine .air101 mapChip2M (powerOn zeros2M (List.replicate 64 0#8)) := by
  refine ⟨by rw [fourBytes_header]; decide +kernel, ?_⟩
  have hrun := fwup_stream mapChip2M softEngine .air101 softEngine_reflected zeros2M rfl
    (List.replicate 64 0#8) List.length_replicate [fourBytes]
    (by simpa [trace] using fourBytes_sound _)
  exact hrun (_, fourBytes) List.mem_cons_self

/-- A session of an image without a body, in one request. -/
def bodiless : Session where
  sessionId := 7
  mem := some (List.replicate 4096 0#8)
  junk := []
  heap := true
  requests := [headerFor 0 0xFFFFFFFF]
  mem_len := fun _ h => by
    cases h
    exact cache_length
  nonempty := by simp [headerFor]

/-- The header ends the request, so that the test for the image's end is not reached: `COMPLETE` is not
set although the checksum is right. -/
theorem fwup_stream_bodiless :
    ¬ ∀ xs : List Session,
      ∀ p ∈ trace (sessionStep softEngine .air101) (powerOn zeros2M (List.replicate 64 0#8)) xs,
        p.2.Promise softEngine .air101 mapChip2M p.1 := by
  intro hall
  have hbytes : bodiless.bytes = headerFor 0 0xFFFFFFFF := List.append_nil _
  have hheader : bodiless.header = headerFor 0 0xFFFFFFFF := by
    rw [Session.header, hbytes, List.take_of_length_le (Nat.le_of_eq (headerFor_length _ _))]
  have himg : imageBytes (headerFor 0 0xFFFFFFFF) = 64 := by decide +kernel
  have hpromise := hall [bodiless] (_, bodiless) List.mem_cons_self
  obtain ⟨g, hserve, _, _, _, hlast⟩ := hpromise (by simp [hbytes, headerFor_length])
    (by rw [hheader]; decide +kernel) (by rw [hheader, himg]; decide) [] (headerFor 0 0xFFFFFFFF) [] rfl
    (by rw [hheader, himg]; decide)
  cases hserve
  obtain ⟨g', st, hcall, hfin⟩ := hlast (by rw [hheader, himg]; simp [headerFor_length])
  have hno : ((tlsFwupEnter 7 (some (List.replicate 4096 0#8))
      (powerOn zeros2M (List.replicate 64 0#8))).2.request softEngine .air101 [] true
        (headerFor 0 0xFFFFFFFF)).map (·.1.currentState.complete) = some false := by
    decide +kernel
  have hcomplete : g'.currentState.complete = false := by
    have hcall' := congrArg (Option.map (·.1.currentState.complete)) hcall
    rw [Option.map_some, show ((tlsFwupEnter bodiless.sessionId bodiless.mem
      (powerOn zeros2M (List.replicate 64 0#8))).2.request softEngine .air101 bodiless.junk bodiless.heap
        (headerFor 0 0xFFFFFFFF)).map (·.1.currentState.complete) = some false from hno] at hcall'
    exact (Option.some.inj hcall').symm
  have hlen : Header.imgLen (headerFor 0 0xFFFFFFFF) = 0 := by decide +kernel
  have horg : Header.orgChecksum (headerFor 0 0xFFFFFFFF) = 0xFFFFFFFF := by decide +kernel
  have hright := (hfin.right (by rw [hheader, hlen, horg]; rfl)).1
  rw [hcomplete] at hright
  cases hright

end Fwup
end Air101
