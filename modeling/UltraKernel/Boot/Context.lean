import UltraKernel.BootAlloc.Init
import UltraKernel.Common.StringContainer
import UltraKernel.Lib.TaggedRecords
import UltraKernel.Log.Model

/-!
# What the loader hands over

The boot context is a list of attributes, each a record with a type and a size.  `boot_context_init`
goes over it and keeps where the attributes are.

* `bootContextInit`: the loop, on the bytes of the memory;
* `Attribute`: an attribute as the loader means it, and its bytes;
* `contextOf`: what is kept of a list of attributes.
-/

namespace UltraKernel.Boot

open Word Outcome Format Log BootAlloc

/-! ### `boot_context_init` -/

/-- What ends the boot: a mandatory attribute is missing. -/
inductive BootBug where
  | mandatory
  deriving DecidableEq, Repr

/-- The arguments of a call of `print`. -/
abbrev Message := List Char × List Arg

/-- `struct boot_context`: a pointer is its address, and `NULL` is 0. -/
structure BootContext where
  platformInfo : ℕ
  kernelInfo : ℕ
  memoryMap : ℕ
  fb : ℕ
  modules : ℕ
  numModules : ℕ
  cmdline : Str

/-- `ULTRA_ATTRIBUTE_PLATFORM_INFO` -/
def ultraAttributePlatformInfo : ℕ := 1

/-- `ULTRA_ATTRIBUTE_KERNEL_INFO` -/
def ultraAttributeKernelInfo : ℕ := 2

/-- `ULTRA_ATTRIBUTE_MEMORY_MAP` -/
def ultraAttributeMemoryMap : ℕ := 3

/-- `ULTRA_ATTRIBUTE_MODULE_INFO` -/
def ultraAttributeModuleInfo : ℕ := 4

/-- `ULTRA_ATTRIBUTE_COMMAND_LINE` -/
def ultraAttributeCommandLine : ℕ := 5

/-- `ULTRA_ATTRIBUTE_FRAMEBUFFER_INFO` -/
def ultraAttributeFramebufferInfo : ℕ := 6

/-- `WARN()` in a line of a file. -/
def warn (file : List Char) (line : ℕ) : Message :=
  (LogLevel.warn.text ++ ("entry: WARNING: At %s() in file %s:%d\n").toList,
    [.string (some ("boot_context_init").toList), .string (some file), .int (BitVec.ofNat 32 line)])

/-- The warning of an attribute of another type. -/
def unhandled (type : ℕ) : Message :=
  (LogLevel.warn.text ++ ("entry: Unhandled ultra attribute 0x%08X\n").toList,
    [.int (BitVec.ofNat 32 type)])

/-- `WARN_ON` of a pointer that is not `NULL`. -/
def warnOn (file : List Char) (line pointer : ℕ) : List Message :=
  if pointer ≠ 0 then [warn file line] else []

/-- The loop of `strlen`. -/
def strlenLoop (mem : ℕ → BitVec 8) (str : ℕ) : ℕ → ℕ → Outcome BootBug ℕ
  | 0, _ => .outOfFuel
  | fuel + 1, str1 => if mem str1 ≠ 0 then strlenLoop mem str fuel (str1 + 1) else .done (str1 - str)

def strlen (fuel : ℕ) (mem : ℕ → BitVec 8) (str : ℕ) : Outcome BootBug ℕ := strlenLoop mem str fuel str

/-- `STR_RUNTIME`, of a pointer that is not `NULL`. -/
def strRuntime (fuel : ℕ) (mem : ℕ → BitVec 8) (str : ℕ) : Outcome BootBug Str := do
  let size ← strlen fuel mem str
  return ⟨some ((List.range size).map fun i => Char.ofNat (mem (str + i)).toNat), size⟩

/-- The `switch` on the type of an attribute. -/
def attributeInit (fuel : ℕ) (mem : ℕ → BitVec 8) (file : List Char) (hdr : ℕ) (boot : BootContext) :
    Outcome BootBug (BootContext × List Message) :=
  let type := numberAt mem hdr 4
  if type = ultraAttributePlatformInfo then
    .done ({ boot with platformInfo := hdr }, warnOn file 36 boot.platformInfo)
  else if type = ultraAttributeKernelInfo then
    .done ({ boot with kernelInfo := hdr }, warnOn file 40 boot.kernelInfo)
  else if type = ultraAttributeMemoryMap then
    .done ({ boot with memoryMap := hdr }, warnOn file 44 boot.memoryMap)
  else if type = ultraAttributeCommandLine then do
    let cmdline ← strRuntime fuel mem (hdr + ultraAttributeHeaderSize)
    return ({ boot with cmdline := cmdline }, [])
  else if type = ultraAttributeFramebufferInfo then
    .done ({ boot with fb := hdr }, warnOn file 56 boot.fb)
  else if type = ultraAttributeModuleInfo then
    let first := boot.numModules = 0
    .done ({ boot with
      modules := if first then hdr else boot.modules
      numModules := add64 boot.numModules 1 }, if first then warnOn file 61 boot.modules else [])
  else .done (boot, [unhandled type])

/-- `ULTRA_NEXT_ATTRIBUTE` -/
def ultraNextAttribute (mem : ℕ → BitVec 8) (hdr : ℕ) : ℕ := add64 hdr (numberAt mem (hdr + 4) 4)

/-- The loop over the attributes. -/
def attributesInit (fuel : ℕ) (mem : ℕ → BitVec 8) (file : List Char) :
    ℕ → ℕ → BootContext → List Message → Outcome BootBug (BootContext × List Message)
  | 0, _, boot, messages => .done (boot, messages)
  | left + 1, hdr, boot, messages => do
    let (boot, more) ← attributeInit fuel mem file hdr boot
    attributesInit fuel mem file left (ultraNextAttribute mem hdr) boot (messages ++ more)

/-- `g_boot_ctx` at first. -/
def initialContext : BootContext := ⟨0, 0, 0, 0, 0, 0, ⟨none, 0⟩⟩

/-- `g_boot_ctx`, and the calls of `print`. -/
def bootContextInit (fuel : ℕ) (mem : ℕ → BitVec 8) (file : List Char) (ctx : ℕ) :
    Outcome BootBug (BootContext × List Message) := do
  let (boot, messages) ←
    attributesInit fuel mem file (numberAt mem (ctx + 4) 4) (ctx + 8) initialContext []
  if boot.kernelInfo = 0 ∨ boot.platformInfo = 0 ∨ boot.memoryMap = 0 then .halt .mandatory
  else return (boot, messages)

/-! ### What `entry` reads -/

/-- `platform_type` -/
def platformType (mem : ℕ → BitVec 8) (info : ℕ) : ℕ := numberAt mem (info + 8) 4

/-- `loader_name`, all of its bytes. -/
def loaderName (mem : ℕ → BitVec 8) (info : ℕ) : List (BitVec 8) :=
  (List.range 32).map fun i => mem (info + 16 + i)

/-- `higher_half_base` -/
def higherHalfBase (mem : ℕ → BitVec 8) (info : ℕ) : ℕ := numberAt mem (info + 56) 8

/-- `page_table_depth` -/
def pageTableDepth (mem : ℕ → BitVec 8) (info : ℕ) : ℕ := numberAt mem (info + 64) 1

/-- The memory map that `boot_alloc_init` goes over. -/
def memoryMapAt (mem : ℕ → BitVec 8) (map : ℕ) : UltraMemoryMapAttribute where
  headerSize := numberAt mem (map + 4) 4
  entries i :=
    let entry := map + ultraAttributeHeaderSize + i * ultraMemoryMapEntrySize
    ⟨numberAt mem entry 8, numberAt mem (entry + 8) 8, numberAt mem (entry + 16) 8⟩

/-! ### Attributes -/

/-- `struct ultra_platform_info_attribute` behind its header. -/
structure PlatformInfo where
  platformType : BitVec 32
  loaderMajor : BitVec 16
  loaderMinor : BitVec 16
  loaderName : List (BitVec 8)
  acpiRsdpAddress : BitVec 64
  higherHalfBase : BitVec 64
  pageTableDepth : BitVec 8
  reserved : List (BitVec 8)
  loaderName_length : loaderName.length = 32
  reserved_length : reserved.length = 7

def PlatformInfo.body (info : PlatformInfo) : List (BitVec 8) :=
  little 4 info.platformType.toNat ++ (little 2 info.loaderMajor.toNat ++
    (little 2 info.loaderMinor.toNat ++ (info.loaderName ++ (little 8 info.acpiRsdpAddress.toNat ++
      (little 8 info.higherHalfBase.toNat ++ (little 1 info.pageTableDepth.toNat ++ info.reserved))))))

/-- `struct ultra_memory_map_entry` -/
structure MapEntry where
  physicalAddress : BitVec 64
  size : BitVec 64
  type : BitVec 64

def MapEntry.bytes (entry : MapEntry) : List (BitVec 8) :=
  little 8 entry.physicalAddress.toNat ++ (little 8 entry.size.toNat ++ little 8 entry.type.toNat)

def MapEntry.value (entry : MapEntry) : UltraMemoryMapEntry :=
  ⟨entry.physicalAddress.toNat, entry.size.toNat, entry.type.toNat⟩

/-- An attribute.  The text of a command line has a NUL behind it, and maybe more bytes. -/
inductive Attribute where
  | platformInfo (info : PlatformInfo)
  | kernelInfo (body : List (BitVec 8))
  | memoryMap (entries : List MapEntry)
  | moduleInfo (body : List (BitVec 8))
  | commandLine (text : List (BitVec 8)) (plain : 0 ∉ text) (rest : List (BitVec 8))
  | framebufferInfo (body : List (BitVec 8))
  | other (type : BitVec 32) (unknown : type = 0 ∨ 6 < type.toNat) (body : List (BitVec 8))

namespace Attribute

def type : Attribute → ℕ
  | platformInfo _ => ultraAttributePlatformInfo
  | kernelInfo _ => ultraAttributeKernelInfo
  | memoryMap _ => ultraAttributeMemoryMap
  | moduleInfo _ => ultraAttributeModuleInfo
  | commandLine .. => ultraAttributeCommandLine
  | framebufferInfo _ => ultraAttributeFramebufferInfo
  | other type _ _ => type.toNat

def body : Attribute → List (BitVec 8)
  | platformInfo info => info.body
  | kernelInfo body => body
  | memoryMap entries => entries.flatMap MapEntry.bytes
  | moduleInfo body => body
  | commandLine text _ rest => text ++ 0 :: rest
  | framebufferInfo body => body
  | other _ _ body => body

def record (attr : Attribute) : TaggedRecord := ⟨attr.type, attr.body⟩

/-- The text of a command line. -/
def text? : Attribute → Option (List Char)
  | commandLine text _ _ => some (text.map fun b => Char.ofNat b.toNat)
  | _ => none

end Attribute

/-! ### What is kept -/

/-- The attributes with their addresses, the first at the given one. -/
def located : ℕ → List Attribute → List (ℕ × Attribute)
  | _, [] => []
  | address, attr :: attrs => (address, attr) :: located (address + attr.record.size 4) attrs

/-- The address of the last attribute of a type, or `NULL`. -/
def lastAt (type : ℕ) (found : List (ℕ × Attribute)) : ℕ :=
  ((found.filter fun p => p.2.type = type).getLast?.map Prod.fst).getD 0

/-- The address of the first attribute of a type, or `NULL`. -/
def firstAt (type : ℕ) (found : List (ℕ × Attribute)) : ℕ :=
  ((found.filter fun p => p.2.type = type).head?.map Prod.fst).getD 0

/-- The text of the last command line. -/
def cmdlineOf (found : List (ℕ × Attribute)) : Str :=
  match (found.filterMap fun p => p.2.text?).getLast? with
  | some text => ⟨some text, text.length⟩
  | none => ⟨none, 0⟩

/-- **What is kept** of attributes at their addresses. -/
def contextOf (found : List (ℕ × Attribute)) : BootContext where
  platformInfo := lastAt ultraAttributePlatformInfo found
  kernelInfo := lastAt ultraAttributeKernelInfo found
  memoryMap := lastAt ultraAttributeMemoryMap found
  fb := lastAt ultraAttributeFramebufferInfo found
  modules := firstAt ultraAttributeModuleInfo found
  numModules := found.countP fun p => p.2.type = ultraAttributeModuleInfo
  cmdline := cmdlineOf found

/-- The warning of one more attribute of a type. -/
def repeated (file : List Char) (line type : ℕ) (before : List Attribute) : List Message :=
  if ∃ attr ∈ before, attr.type = type then [warn file line] else []

/-- What is printed about an attribute behind others. -/
def Attribute.messages (file : List Char) (before : List Attribute) : Attribute → List Message
  | platformInfo _ => repeated file 36 ultraAttributePlatformInfo before
  | kernelInfo _ => repeated file 40 ultraAttributeKernelInfo before
  | memoryMap _ => repeated file 44 ultraAttributeMemoryMap before
  | framebufferInfo _ => repeated file 56 ultraAttributeFramebufferInfo before
  | moduleInfo _ | commandLine .. => []
  | other type _ _ => [unhandled type.toNat]

/-- What is printed about attributes behind others. -/
def messagesOf (file : List Char) : List Attribute → List Attribute → List Message
  | _, [] => []
  | before, attr :: attrs => attr.messages file before ++ messagesOf file (before ++ [attr]) attrs

/-- A boot context with its attributes lies in the memory. -/
structure Laid (mem : ℕ → BitVec 8) (ctx : ℕ) (attrs : List Attribute) : Prop where
  count : Lies mem (ctx + 4) (little 4 attrs.length)
  count_lt : attrs.length < 2 ^ 32
  attributes : Lies mem (ctx + 8) (attrs.flatMap fun attr => attr.record.bytes 4)
  size_lt : ∀ attr ∈ attrs, attr.record.size 4 < 2 ^ 32
  room : ctx + 8 + (attrs.flatMap fun attr => attr.record.bytes 4).length < 2 ^ 64

end UltraKernel.Boot
