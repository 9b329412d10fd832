import UltraKernel.Lib.Outcome

/-!
# I/O windows, as `io.c` keeps them on x86

What `ULTRA_HARDENED_IO` decides is a `Build`: what a window is, and what is checked when it is used.
The functions are the same for all builds.  An access to a port or to the memory is an event, and the
bytes that it moves come from a buffer or from the device.
-/

namespace UltraKernel.Io

open Outcome

abbrev Byte := BitVec 8

/-! ### Error encodings -/

/-- `EINVAL` -/
def eInval : BitVec 32 := 28

/-- `ENOMEM` -/
def eNoMem : BitVec 32 := 49

/-- `EXDEV`, the last one. -/
def eXDev : BitVec 32 := 80

/-- `MAX_ERRNO` -/
def maxErrno : BitVec 64 := 4095

def encodeErrorPtr (value : BitVec 32) : BitVec 64 := value.setWidth 64

def decodeErrorPtr (value : BitVec 64) : BitVec 32 := value.setWidth 32

def errorPtr (ret : BitVec 64) : Bool := ret ≤ maxErrno

/-- `ULTRA_ARCH_PORT_IO_WINDOW_OFFSET` -/
def portIoWindowOffset : ℕ := 0x10000

/-- `ULTRA_ARCH_PORT_IO_WINDOW_LEN` -/
def portIoWindowLen : ℕ := 0xFFFF

/-- `ULTRA_ARCH_PORT_IO_WINDOW_END` -/
def portIoWindowEnd : ℕ := portIoWindowOffset + portIoWindowLen + 1

def decodeErrorPioAddr (ret : BitVec 32) : BitVec 32 := ret - BitVec.ofNat 32 (portIoWindowLen + 1)

def errorPioAddr (ret : BitVec 32) : Bool := ret > BitVec.ofNat 32 portIoWindowLen

/-! ### Windows -/

inductive IoType where
  | invalid
  | portIo
  | memIo
  deriving DecidableEq, Repr

/-- The checks that may fail. -/
inductive IoBug where
  | belowPortWindow
  | abovePortWindow
  | bounds
  | windowType
  | width
  deriving DecidableEq, Repr

/-- What the build decides. -/
structure Build where
  Window : Type
  /-- The end of `io_window_map_pio`: an error pointer or a window. -/
  makeWindow : BitVec 64 → BitVec 64 → Except (BitVec 64) Window
  getType : Window → IoType
  getAddress : Window → BitVec 64
  checkBounds : Window → BitVec 64 → Outcome IoBug Unit

/-- `io_window_impl` -/
structure WindowImpl where
  type : IoType
  address : BitVec 64
  length : BitVec 64
  deriving DecidableEq, Repr

/-- `io_window_get_type` of a window that is a pointer. -/
def pointerType (rawIow : BitVec 64) : IoType :=
  if rawIow < BitVec.ofNat 64 portIoWindowEnd then
    if rawIow < BitVec.ofNat 64 portIoWindowOffset then .invalid else .portIo
  else .memIo

/-- Without `ULTRA_HARDENED_IO` a window is a pointer. -/
abbrev plain : Build where
  Window := BitVec 64
  makeWindow address _ := .ok address
  getType := pointerType
  getAddress iow := iow
  checkBounds _ _ := .done ()

/-- With `ULTRA_HARDENED_IO` it is an object, if `alloc` returns one. -/
abbrev hardened (alloc : Bool) : Build where
  Window := WindowImpl
  makeWindow address length :=
    if alloc then .ok ⟨.portIo, address, length⟩ else .error (encodeErrorPtr eNoMem)
  getType := WindowImpl.type
  getAddress := WindowImpl.address
  checkBounds iow offset := if offset ≥ iow.length then .halt .bounds else .done ()

/-- `arch_map_port_io`, which has no use for the length. -/
def archMapPortIo (physBase : BitVec 64) : BitVec 32 := physBase.setWidth 32

def ioWindowMapPio (build : Build) (physBase length : BitVec 64) :
    Except (BitVec 64) build.Window :=
  if physBase + BitVec.ofNat 64 portIoWindowOffset ≥ BitVec.ofNat 64 portIoWindowEnd then
    .error (encodeErrorPtr eInval)
  else
    let ret := archMapPortIo physBase
    if errorPioAddr ret then .error (encodeErrorPtr (decodeErrorPioAddr ret))
    else build.makeWindow ((ret + BitVec.ofNat 32 portIoWindowOffset).setWidth 64) length

/-- The pointer that is returned where a window is a pointer, too. -/
def returnedPointer : Except (BitVec 64) plain.Window → BitVec 64
  | .error pointer => pointer
  | .ok iow => iow

def plainPointer (physBase length : BitVec 64) : BitVec 64 :=
  returnedPointer (ioWindowMapPio plain physBase length)

def portIoWindowGetPort (build : Build) (iow : build.Window) (offset : BitVec 64) :
    Outcome IoBug (BitVec 32) :=
  let port := build.getAddress iow
  if port < BitVec.ofNat 64 portIoWindowOffset then .halt .belowPortWindow
  else if port ≥ BitVec.ofNat 64 portIoWindowEnd then .halt .abovePortWindow
  else do
    build.checkBounds iow offset
    return (port - BitVec.ofNat 64 portIoWindowOffset + offset).setWidth 32

def memIoWindowGetPtr (build : Build) (iow : build.Window) (offset : BitVec 64) :
    Outcome IoBug (BitVec 64) := do
  build.checkBounds iow offset
  return build.getAddress iow + offset

/-! ### Accesses -/

inductive Target where
  | port (port : BitVec 16)
  | memory (pointer : BitVec 64)
  deriving DecidableEq, Repr

inductive Direction where
  | input
  | output
  deriving DecidableEq, Repr

/-- An access, with the bytes that it moves. -/
structure Access where
  direction : Direction
  target : Target
  width : ℕ
  bytes : List Byte
  deriving DecidableEq, Repr

/-- The loops of `arch_port_io_read` and its siblings: `bytes i` are those that the access number
`i` moves, and other widths than `widths` are a bug. -/
def accessLoop (widths : List ℕ) (direction : Direction) (target : Target) (width : ℕ)
    (bytes : ℕ → List Byte) : ℕ → ℕ → Outcome IoBug (List Access)
  | 0, _ => .done []
  | count + 1, i =>
    if width ∈ widths then do
      let rest ← accessLoop widths direction target width bytes count (i + 1)
      return ⟨direction, target, width, bytes i⟩ :: rest
    else .halt .width

/-- The bytes at `in += width` in the round number `i`. -/
def bufferBytes (buffer : List Byte) (width i : ℕ) : List Byte := (buffer.drop (i * width)).take width

/-- What `WIDTH_SWITCH` has for ports: the action for 8 bytes is empty and falls into the bug. -/
def portWidths : List ℕ := [1, 2, 4]

def memoryWidths : List ℕ := [1, 2, 4, 8]

def archPortIoRead (addr : BitVec 32) (width : ℕ) (device : ℕ → List Byte) (count : ℕ) :
    Outcome IoBug (List Access) :=
  accessLoop portWidths .input (.port (addr.setWidth 16)) width device count 0

def archPortIoWrite (addr : BitVec 32) (width : ℕ) (buffer : List Byte) (count : ℕ) :
    Outcome IoBug (List Access) :=
  accessLoop portWidths .output (.port (addr.setWidth 16)) width (bufferBytes buffer width) count 0

def archMemoryIoRead (ptr : BitVec 64) (width : ℕ) (device : ℕ → List Byte) (count : ℕ) :
    Outcome IoBug (List Access) :=
  accessLoop memoryWidths .input (.memory ptr) width device count 0

def archMemoryIoWrite (ptr : BitVec 64) (width : ℕ) (buffer : List Byte) (count : ℕ) :
    Outcome IoBug (List Access) :=
  accessLoop memoryWidths .output (.memory ptr) width (bufferBytes buffer width) count 0

def doReadMany (build : Build) (iow : build.Window) (offset : BitVec 64) (width : ℕ)
    (device : ℕ → List Byte) (count : ℕ) : Outcome IoBug (List Access) :=
  match build.getType iow with
  | .portIo => do
    let addr ← portIoWindowGetPort build iow offset
    archPortIoRead addr width device count
  | .memIo => do
    let addr ← memIoWindowGetPtr build iow offset
    archMemoryIoRead addr width device count
  | .invalid => .halt .windowType

def doWriteMany (build : Build) (iow : build.Window) (offset : BitVec 64) (width : ℕ)
    (buffer : List Byte) (count : ℕ) : Outcome IoBug (List Access) :=
  match build.getType iow with
  | .portIo => do
    let addr ← portIoWindowGetPort build iow offset
    archPortIoWrite addr width buffer count
  | .memIo => do
    let addr ← memIoWindowGetPtr build iow offset
    archMemoryIoWrite addr width buffer count
  | .invalid => .halt .windowType

/-- The functions that `MAKE_IO_FN` makes for a width. -/
inductive IoFn where
  | readAt
  | readMany (count : ℕ)
  | writeAt (value : List Byte)
  | writeMany (buffer : List Byte) (count : ℕ)
  deriving DecidableEq, Repr

/-- The number of accesses. -/
def IoFn.count : IoFn → ℕ
  | readAt => 1
  | readMany count => count
  | writeAt _ => 1
  | writeMany _ count => count

/-- `MAKE_IO_FN` -/
def IoFn.call (build : Build) (bits : ℕ) (device : ℕ → List Byte) (iow : build.Window)
    (offset : BitVec 64) : IoFn → Outcome IoBug (List Access)
  | readAt => doReadMany build iow offset (bits / 8) device 1
  | readMany count => doReadMany build iow offset (bits / 8) device count
  | writeAt value => doWriteMany build iow offset (bits / 8) value 1
  | writeMany buffer count => doWriteMany build iow offset (bits / 8) buffer count

end UltraKernel.Io
