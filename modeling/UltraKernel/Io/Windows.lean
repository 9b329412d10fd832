import UltraKernel.Io.Model
import Mathlib.Algebra.Group.Nat.Defs
import Mathlib.Tactic.ByContra

/-!
# What a window of ports gives access to

* `ioWindowMapPio_port`, `ioWindowMapPio_refused`, `ioWindowMapPio_wrapped`: the three ways of a map;
* `mapsPort_iff`: a window or an error, unless the base wraps around;
* `call_ported`: the accesses to a window, by all functions;
* `call_inside_iff`: where they stay inside of it.
-/

namespace UltraKernel.Io

open Outcome

/-! ### Maps -/

section Map

variable {physBase length : BitVec 64}

/-- **A port number** is mapped to the windows of ports. -/
theorem ioWindowMapPio_port (build : Build) (h : physBase.toNat < 2 ^ 16) (length : BitVec 64) :
    ioWindowMapPio build physBase length = build.makeWindow (physBase + 0x10000) length := by
  have hpass : ¬ physBase + BitVec.ofNat 64 portIoWindowOffset ≥ BitVec.ofNat 64 portIoWindowEnd := by
    rw [portIoWindowEnd, portIoWindowLen, portIoWindowOffset]
    bv_omega
  have hret : errorPioAddr (archMapPortIo physBase) = false := by
    rw [errorPioAddr, archMapPortIo, portIoWindowLen]
    exact decide_eq_false (by bv_omega)
  have haddress : (archMapPortIo physBase + BitVec.ofNat 32 portIoWindowOffset).setWidth 64 =
      physBase + 0x10000 := by
    rw [archMapPortIo, portIoWindowOffset]
    bv_omega
  rw [ioWindowMapPio, if_neg hpass]
  dsimp only
  rw [hret, haddress]
  rfl

/-- **Another base** is refused. -/
theorem ioWindowMapPio_refused (build : Build) (h : 2 ^ 16 ≤ physBase.toNat)
    (hwrap : physBase.toNat < 2 ^ 64 - 2 ^ 16) (length : BitVec 64) :
    ioWindowMapPio build physBase length = .error (encodeErrorPtr eInval) := by
  have hstop : physBase + BitVec.ofNat 64 portIoWindowOffset ≥ BitVec.ofNat 64 portIoWindowEnd := by
    rw [portIoWindowEnd, portIoWindowLen, portIoWindowOffset]
    bv_omega
  rw [ioWindowMapPio, if_pos hstop]

/-- **A base that wraps around** passes the check, and its lower half is taken for an error. -/
theorem ioWindowMapPio_wrapped (build : Build) (h : 2 ^ 64 - 2 ^ 16 ≤ physBase.toNat)
    (length : BitVec 64) :
    ioWindowMapPio build physBase length =
      .error (encodeErrorPtr (physBase.setWidth 32 - 0x10000)) := by
  have hpass : ¬ physBase + BitVec.ofNat 64 portIoWindowOffset ≥ BitVec.ofNat 64 portIoWindowEnd := by
    rw [portIoWindowEnd, portIoWindowLen, portIoWindowOffset]
    bv_omega
  have hret : errorPioAddr (archMapPortIo physBase) = true := by
    rw [errorPioAddr, archMapPortIo, portIoWindowLen]
    exact decide_eq_true (by bv_omega)
  rw [ioWindowMapPio, if_neg hpass]
  dsimp only
  rw [hret]
  rfl

/-- A window is mapped for port numbers only. -/
theorem port_of_mapped {build : Build} {iow : build.Window}
    (h : ioWindowMapPio build physBase length = .ok iow) : physBase.toNat < 2 ^ 16 := by
  by_contra hport
  rcases Nat.lt_or_ge physBase.toNat (2 ^ 64 - 2 ^ 16) with hwrap | hwrap
  · rw [ioWindowMapPio_refused build (by omega) hwrap] at h
    exact nomatch h
  · rw [ioWindowMapPio_wrapped build hwrap] at h
    exact nomatch h

/-- The pointer is the encoding of an error. -/
def IsErrno (pointer : BitVec 64) : Prop :=
  errorPtr pointer = true ∧ 0 < decodeErrorPtr pointer ∧ decodeErrorPtr pointer ≤ eXDev

/-- The pointer is a window of ports that starts at a base. -/
def IsPortWindow (pointer physBase : BitVec 64) : Prop :=
  errorPtr pointer = false ∧ pointerType pointer = .portIo ∧
    ∃ port, portIoWindowGetPort plain pointer 0 = .done port ∧ port.toNat = physBase.toNat

/-- An error for what is not a port number, otherwise a window of ports that starts there. -/
structure MapsPort (physBase pointer : BitVec 64) : Prop where
  errno_iff : IsErrno pointer ↔ 2 ^ 16 ≤ physBase.toNat
  window_iff : IsPortWindow pointer physBase ↔ physBase.toNat < 2 ^ 16

theorem returnedPointer_makeWindow (address length : BitVec 64) :
    returnedPointer (plain.makeWindow address length) = address := rfl

theorem plainPointer_port (h : physBase.toNat < 2 ^ 16) (length : BitVec 64) :
    plainPointer physBase length = physBase + 0x10000 :=
  (congrArg returnedPointer (ioWindowMapPio_port plain h length)).trans
    (returnedPointer_makeWindow _ length)

theorem plainPointer_refused (h : 2 ^ 16 ≤ physBase.toNat)
    (hwrap : physBase.toNat < 2 ^ 64 - 2 ^ 16) (length : BitVec 64) :
    plainPointer physBase length = encodeErrorPtr eInval :=
  congrArg returnedPointer (ioWindowMapPio_refused plain h hwrap length)

theorem plainPointer_wrapped (h : 2 ^ 64 - 2 ^ 16 ≤ physBase.toNat) (length : BitVec 64) :
    plainPointer physBase length = encodeErrorPtr (physBase.setWidth 32 - 0x10000) :=
  congrArg returnedPointer (ioWindowMapPio_wrapped plain h length)

/-- The port of a window that is among the windows of ports. -/
theorem portIoWindowGetPort_eq {build : Build} {iow : build.Window} {address : BitVec 64}
    (haddress : build.getAddress iow = address)
    (hoffset : ¬ address < BitVec.ofNat 64 portIoWindowOffset)
    (hend : address < BitVec.ofNat 64 portIoWindowEnd) (offset : BitVec 64) :
    portIoWindowGetPort build iow offset = build.checkBounds iow offset >>= fun _ =>
      .done ((address - BitVec.ofNat 64 portIoWindowOffset + offset).setWidth 32) := by
  rw [← haddress] at hoffset hend ⊢
  simp only [portIoWindowGetPort]
  rw [if_neg hoffset, if_neg (BitVec.not_le.mpr hend)]
  rfl

/-- **The window** of a port number. -/
theorem isPortWindow_port (h : physBase.toNat < 2 ^ 16) :
    IsPortWindow (physBase + 0x10000) physBase := by
  have herror : errorPtr (physBase + 0x10000) = false := by
    rw [errorPtr, maxErrno]
    exact decide_eq_false (by bv_omega)
  have hend : physBase + 0x10000 < BitVec.ofNat 64 portIoWindowEnd := by
    rw [portIoWindowEnd, portIoWindowLen, portIoWindowOffset]
    bv_omega
  have hoffset : ¬ physBase + 0x10000 < BitVec.ofNat 64 portIoWindowOffset := by
    rw [portIoWindowOffset]
    bv_omega
  refine ⟨herror, ?_, ?_⟩
  · rw [pointerType, if_pos hend, if_neg hoffset]
  · refine ⟨(physBase + 0x10000 - BitVec.ofNat 64 portIoWindowOffset + 0).setWidth 32, ?_, ?_⟩
    · exact @portIoWindowGetPort_eq plain _ _ rfl hoffset hend 0
    · rw [portIoWindowOffset]
      bv_omega

/-- **A base that wraps around** gives a pointer that is no error and is taken for memory. -/
theorem plainPointer_wrapped_memory (h : 2 ^ 64 - 2 ^ 16 ≤ physBase.toNat) (length : BitVec 64) :
    errorPtr (plainPointer physBase length) = false ∧
      pointerType (plainPointer physBase length) = .memIo := by
  rw [plainPointer_wrapped h, encodeErrorPtr]
  have herror : errorPtr ((physBase.setWidth 32 - 0x10000).setWidth 64) = false := by
    rw [errorPtr, maxErrno]
    exact decide_eq_false (by bv_omega)
  have hend : ¬ (physBase.setWidth 32 - 0x10000).setWidth 64 < BitVec.ofNat 64 portIoWindowEnd := by
    rw [portIoWindowEnd, portIoWindowLen, portIoWindowOffset]
    bv_omega
  exact ⟨herror, by rw [pointerType, if_neg hend]⟩

theorem not_isPortWindow_errno : ¬ IsPortWindow (encodeErrorPtr eInval) physBase := by
  intro h
  exact absurd h.1 (by decide)

/-- **A map gives** an error for what is not a port number and otherwise a window of ports that
starts there, if and only if the sum with the offset does not wrap around. -/
theorem mapsPort_iff (physBase length : BitVec 64) :
    MapsPort physBase (plainPointer physBase length) ↔ physBase.toNat < 2 ^ 64 - 2 ^ 16 := by
  constructor
  · intro h
    by_contra hwrap
    have herrno := h.errno_iff.mpr (by omega)
    rw [IsErrno, (plainPointer_wrapped_memory (Nat.le_of_not_lt hwrap) length).1] at herrno
    exact absurd herrno.1 (by decide)
  · intro hwrap
    rcases Nat.lt_or_ge physBase.toNat (2 ^ 16) with hport | hport
    · rw [plainPointer_port hport]
      have hwindow := isPortWindow_port hport
      constructor
      · constructor
        · intro herrno
          rw [IsErrno, hwindow.1] at herrno
          exact absurd herrno.1 (by decide)
        · intro hle
          omega
      · exact iff_of_true hwindow hport
    · rw [plainPointer_refused hport hwrap]
      constructor
      · exact iff_of_true ⟨by decide, by decide, by decide⟩ hport
      · exact iff_of_false not_isPortWindow_errno (by omega)

/-- The last base of all: the pointer is `0xFFFEFFFF`. -/
theorem not_mapsPort_last :
    plainPointer 0xFFFFFFFFFFFFFFFF 1 = 0xFFFEFFFF ∧ pointerType 0xFFFEFFFF = .memIo ∧
      ¬ ∀ physBase length : BitVec 64, MapsPort physBase (plainPointer physBase length) := by
  refine ⟨by decide, by decide, ?_⟩
  intro h
  have herrno := (h 0xFFFFFFFFFFFFFFFF 1).errno_iff.mpr (by decide)
  exact absurd herrno.1 (by decide)

end Map

/-! ### Accesses -/

section Access

variable {alloc : Bool} {physBase length offset : BitVec 64} {iow : (hardened alloc).Window}
  {device : ℕ → List Byte} {accesses : List Access}

/-- A window object. -/
theorem window_of_mapped (h : ioWindowMapPio (hardened alloc) physBase length = .ok iow) :
    iow = WindowImpl.mk .portIo (physBase + 0x10000) length := by
  rw [ioWindowMapPio_port _ (port_of_mapped h)] at h
  cases alloc with
  | false => exact nomatch h
  | true => exact (Except.ok.inj h).symm

theorem mem_portWidths_le {width : ℕ} (h : width ∈ portWidths) : 0 < width ∧ width ≤ 4 := by
  simp only [portWidths, List.mem_cons, List.not_mem_nil, or_false] at h
  omega

/-- The rounds of a loop go to one target, with one width. -/
theorem accessLoop_done {widths : List ℕ} {direction : Direction} {target : Target} {width : ℕ}
    {bytes : ℕ → List Byte} {count i : ℕ}
    (h : accessLoop widths direction target width bytes count i = .done accesses) :
    accesses.length = count ∧ (0 < count → width ∈ widths) ∧
      ∀ a ∈ accesses, a.target = target ∧ a.width = width := by
  induction count generalizing i accesses with
  | zero =>
    obtain rfl : [] = accesses := by simpa [accessLoop] using h
    exact ⟨rfl, fun hpos => absurd hpos (Nat.lt_irrefl 0), fun a ha => absurd ha List.not_mem_nil⟩
  | succ count ih =>
    rw [accessLoop] at h
    by_cases hwidth : width ∈ widths
    · rw [if_pos hwidth] at h
      obtain ⟨rest, hrest, hdone⟩ := bind_eq_done.mp h
      obtain rfl : _ :: rest = accesses := by simpa using hdone
      obtain ⟨hlength, -, htarget⟩ := ih hrest
      refine ⟨congrArg Nat.succ hlength, fun _ => hwidth, ?_⟩
      intro a ha
      rcases List.mem_cons.mp ha with rfl | ha
      · exact ⟨rfl, rfl⟩
      · exact htarget a ha
    · rw [if_neg hwidth] at h
      exact nomatch h

/-- What the checks leave of a call: all of its accesses go to one port. -/
structure Ported (physBase length offset : BitVec 64) (width count : ℕ) (accesses : List Access) :
    Prop where
  bounds : offset.toNat < length.toNat
  length_eq : accesses.length = count
  width_le : 0 < count → 0 < width ∧ width ≤ 4
  target : ∀ a ∈ accesses, a.target = .port ((physBase + offset).setWidth 16) ∧ a.width = width

/-- The port that an access to a window object gets. -/
theorem portIoWindowGetPort_hardened {address : BitVec 64} {port : BitVec 32}
    (hoffset : ¬ address < BitVec.ofNat 64 portIoWindowOffset)
    (hend : address < BitVec.ofNat 64 portIoWindowEnd)
    (h : portIoWindowGetPort (hardened alloc) (WindowImpl.mk .portIo address length) offset =
      .done port) :
    offset.toNat < length.toNat ∧
      port = (address - BitVec.ofNat 64 portIoWindowOffset + offset).setWidth 32 := by
  rw [portIoWindowGetPort_eq rfl hoffset hend] at h
  obtain ⟨_, hbounds, haddr⟩ := bind_eq_done.mp h
  have hlt : ¬ offset ≥ length := by
    intro hge
    have hstop : (hardened alloc).checkBounds (WindowImpl.mk .portIo address length) offset =
        .halt .bounds := if_pos hge
    exact nomatch (hstop.symm.trans hbounds)
  exact ⟨BitVec.not_le.mp hlt, (done.inj haddr).symm⟩

/-- The port that an access to a mapped window gets. -/
theorem portIoWindowGetPort_mapped (hport : physBase.toNat < 2 ^ 16) {port : BitVec 32}
    (h : portIoWindowGetPort (hardened alloc) (WindowImpl.mk .portIo (physBase + 0x10000) length)
      offset = .done port) :
    offset.toNat < length.toNat ∧ port = (physBase + offset).setWidth 32 := by
  have hoffset : ¬ physBase + 0x10000 < BitVec.ofNat 64 portIoWindowOffset := by
    rw [portIoWindowOffset]
    bv_omega
  have hend : physBase + 0x10000 < BitVec.ofNat 64 portIoWindowEnd := by
    rw [portIoWindowEnd, portIoWindowLen, portIoWindowOffset]
    bv_omega
  obtain ⟨hbounds, hvalue⟩ := portIoWindowGetPort_hardened hoffset hend h
  refine ⟨hbounds, hvalue.trans ?_⟩
  rw [portIoWindowOffset]
  bv_omega

/-- Reads and writes get a port and go through a loop. -/
theorem loop_ported (hport : physBase.toNat < 2 ^ 16) {direction : Direction} {width count : ℕ}
    {bytes : ℕ → List Byte}
    (h : (portIoWindowGetPort (hardened alloc) (WindowImpl.mk .portIo (physBase + 0x10000) length)
      offset >>= fun addr =>
        accessLoop portWidths direction (.port (addr.setWidth 16)) width bytes count 0) =
      .done accesses) :
    Ported physBase length offset width count accesses := by
  obtain ⟨addr, haddr, hloop⟩ := bind_eq_done.mp h
  obtain ⟨hbounds, rfl⟩ := portIoWindowGetPort_mapped hport haddr
  obtain ⟨hlength, hwidth, htarget⟩ := accessLoop_done hloop
  have hnarrow : ((physBase + offset).setWidth 32).setWidth 16 = (physBase + offset).setWidth 16 := by
    bv_omega
  rw [hnarrow] at htarget
  exact ⟨hbounds, hlength, fun hcount => mem_portWidths_le (hwidth hcount), htarget⟩

/-- **The accesses** to a window, by all functions. -/
theorem call_ported (hmap : ioWindowMapPio (hardened alloc) physBase length = .ok iow) {f : IoFn}
    {bits : ℕ} (hcall : f.call (hardened alloc) bits device iow offset = .done accesses) :
    Ported physBase length offset (bits / 8) f.count accesses := by
  have hport := port_of_mapped hmap
  rw [window_of_mapped hmap] at hcall
  cases f with
  | readAt => exact loop_ported hport hcall
  | readMany count => exact loop_ported hport hcall
  | writeAt value => exact loop_ported hport hcall
  | writeMany buffer count => exact loop_ported hport hcall

/-- All ports of an access are ports of the window, and it starts at the offset. -/
def Access.Inside (physBase length offset : BitVec 64) (a : Access) : Prop :=
  ∃ port, a.target = .port port ∧ port.toNat = physBase.toNat + offset.toNat ∧
    ∀ q, port.toNat ≤ q → q < port.toNat + a.width →
      physBase.toNat ≤ q ∧ q < physBase.toNat + length.toNat ∧ q < 2 ^ 16

theorem Access.inside_iff {a : Access} {width : ℕ} (hport : physBase.toNat < 2 ^ 16)
    (hwidth : 0 < width)
    (ha : a.target = .port ((physBase + offset).setWidth 16) ∧ a.width = width) :
    a.Inside physBase length offset ↔ offset.toNat + width ≤ length.toNat ∧
      physBase.toNat + offset.toNat + width ≤ 2 ^ 16 := by
  obtain ⟨htarget, rfl⟩ := ha
  constructor
  · intro ⟨port, htarget', hstart, hports⟩
    -- the last port of the access
    obtain ⟨-, hlength, hlast⟩ := hports (port.toNat + (a.width - 1)) (by omega) (by omega)
    omega
  · intro h
    refine ⟨_, htarget, ?_, ?_⟩
    · rw [BitVec.toNat_setWidth, BitVec.toNat_add]
      omega
    · intro q hle hlt
      rw [BitVec.toNat_setWidth, BitVec.toNat_add] at hle hlt
      omega

/-- **The accesses to a window stay inside** of it and below the end of the ports, and go to the
port at the offset, if and only if the width is there behind the offset. -/
theorem call_inside_iff (hmap : ioWindowMapPio (hardened alloc) physBase length = .ok iow) {f : IoFn}
    {bits : ℕ} (hcall : f.call (hardened alloc) bits device iow offset = .done accesses) :
    (∀ a ∈ accesses, a.Inside physBase length offset) ↔
      f.count = 0 ∨ (offset.toNat + bits / 8 ≤ length.toNat ∧
        physBase.toNat + offset.toNat + bits / 8 ≤ 2 ^ 16) := by
  have hport := port_of_mapped hmap
  have hported := call_ported hmap hcall
  rcases Nat.eq_zero_or_pos f.count with hzero | hpos
  · have hnil : accesses = [] := List.eq_nil_of_length_eq_zero (hported.length_eq.trans hzero)
    rw [hnil]
    exact iff_of_true (fun a ha => absurd ha List.not_mem_nil) (Or.inl hzero)
  · have hwidth := (hported.width_le hpos).1
    constructor
    · intro h
      obtain ⟨a, ha⟩ := List.exists_mem_of_length_pos (hported.length_eq ▸ hpos)
      exact Or.inr ((Access.inside_iff hport hwidth (hported.target a ha)).mp (h a ha))
    · intro h a ha
      exact (Access.inside_iff hport hwidth (hported.target a ha)).mpr
        (h.resolve_left (Nat.ne_of_gt hpos))

/-- A read of 4 bytes at the first of the 4 ports at `0x3F8`. -/
theorem call_inside_iff_serial :
    (⟨.input, .port 0x3F8, 4, [1, 2, 3, 4]⟩ : Access).Inside 0x3F8 4 0 := by
  have hmap : ioWindowMapPio (hardened true) 0x3F8 4 = .ok (WindowImpl.mk .portIo 0x103F8 4) := rfl
  have hcall : IoFn.readAt.call (hardened true) 32 (fun _ => [1, 2, 3, 4])
      (WindowImpl.mk .portIo 0x103F8 4) 0 = .done [⟨.input, .port 0x3F8, 4, [1, 2, 3, 4]⟩] := rfl
  exact (call_inside_iff hmap hcall).mpr (Or.inr ⟨by decide, by decide⟩) _ (List.mem_singleton_self _)

/-- A read of 4 bytes at the last of the 4 ports. -/
theorem not_call_inside_serial :
    ¬ ∀ (physBase length offset : BitVec 64) (iow : (hardened true).Window) (f : IoFn) (bits : ℕ)
      (device : ℕ → List Byte) (accesses : List Access),
      ioWindowMapPio (hardened true) physBase length = .ok iow →
        f.call (hardened true) bits device iow offset = .done accesses →
          ∀ a ∈ accesses, a.Inside physBase length offset := by
  intro h
  obtain ⟨port, htarget, -, hports⟩ := h 0x3F8 4 3 (WindowImpl.mk .portIo 0x103F8 4) .readAt 32
    (fun _ => [1, 2, 3, 4]) [⟨.input, .port 0x3FB, 4, [1, 2, 3, 4]⟩] rfl rfl _
    (List.mem_singleton.mpr rfl)
  obtain rfl : (0x3FB : BitVec 16) = port := Target.port.inj htarget
  exact absurd (hports 0x3FC (by decide) (by decide)).2.1 (by decide)

end Access

end UltraKernel.Io
