import UltraKernel.Boot.Context

/-!
# What the loader means is what the kernel reads

For attributes that lie in the memory, `boot_context_init` keeps where the last attribute of each type
is, and the first and the number of the modules.  What `entry` and `boot_alloc_init` read there is what
the attributes were made from.

* `attributeInit_located`: one attribute;
* `attributesInit_located`: all of them;
* `boot_context_reads`: what is read.
-/

namespace UltraKernel.Boot

open Word Outcome Format Log BootAlloc

/-! ### One more attribute -/

section Append

variable {found : List (ℕ × Attribute)} {address type : ℕ} {attr : Attribute}

theorem lastAt_append (type : ℕ) (found : List (ℕ × Attribute)) (address : ℕ) (attr : Attribute) :
    lastAt type (found ++ [(address, attr)]) = if attr.type = type then address else lastAt type found := by
  rw [lastAt, List.filter_append, List.filter_singleton]
  by_cases htype : attr.type = type
  · simp [htype]
  · simp [htype, lastAt]

theorem firstAt_append (type : ℕ) (found : List (ℕ × Attribute)) (address : ℕ) (attr : Attribute) :
    firstAt type (found ++ [(address, attr)]) =
      if attr.type = type ∧ found.countP (fun p => p.2.type = type) = 0 then address
      else firstAt type found := by
  rw [firstAt, firstAt, List.filter_append, List.filter_singleton, List.countP_eq_length_filter]
  cases hfilter : found.filter fun p => p.2.type = type with
  | nil =>
    by_cases htype : attr.type = type
    · simp [htype]
    · simp [htype]
  | cons p ps => simp

theorem cmdlineOf_append (found : List (ℕ × Attribute)) (address : ℕ) (attr : Attribute) :
    cmdlineOf (found ++ [(address, attr)]) =
      match attr.text? with
      | some text => ⟨some text, text.length⟩
      | none => cmdlineOf found := by
  rw [cmdlineOf, List.filterMap_append]
  cases htext : attr.text? with
  | none => simp [htext, cmdlineOf]
  | some text => simp [htext]

theorem contextOf_append (found : List (ℕ × Attribute)) (address : ℕ) (attr : Attribute) :
    contextOf (found ++ [(address, attr)]) =
      { platformInfo := if attr.type = ultraAttributePlatformInfo then address
          else (contextOf found).platformInfo
        kernelInfo := if attr.type = ultraAttributeKernelInfo then address
          else (contextOf found).kernelInfo
        memoryMap := if attr.type = ultraAttributeMemoryMap then address
          else (contextOf found).memoryMap
        fb := if attr.type = ultraAttributeFramebufferInfo then address else (contextOf found).fb
        modules := if attr.type = ultraAttributeModuleInfo ∧ (contextOf found).numModules = 0
          then address else (contextOf found).modules
        numModules := (contextOf found).numModules +
          if attr.type = ultraAttributeModuleInfo then 1 else 0
        cmdline := match attr.text? with
          | some text => ⟨some text, text.length⟩
          | none => (contextOf found).cmdline } := by
  rw [contextOf, lastAt_append, lastAt_append, lastAt_append, lastAt_append, firstAt_append,
    cmdlineOf_append, List.countP_append, List.countP_singleton]
  simp only [decide_eq_true_eq]
  rfl

/-- A pointer that was kept is not `NULL`. -/
theorem lastAt_ne_zero (hfound : ∀ p ∈ found, p.1 ≠ 0) (type : ℕ) :
    lastAt type found ≠ 0 ↔ ∃ attr ∈ found.map Prod.snd, attr.type = type := by
  rw [lastAt]
  cases hlast : (found.filter fun p => p.2.type = type).getLast? with
  | none =>
    rw [List.getLast?_eq_none_iff, List.filter_eq_nil_iff] at hlast
    simp only [Option.map_none, Option.getD_none, ne_eq, not_true_eq_false, false_iff, not_exists]
    intro attr hattr
    obtain ⟨p, hp, rfl⟩ := List.mem_map.mp hattr.1
    exact hlast p hp (decide_eq_true hattr.2)
  | some p =>
    have hmem := List.mem_of_getLast? hlast
    rw [List.mem_filter, decide_eq_true_eq] at hmem
    exact iff_of_true (hfound p hmem.1) ⟨p.2, List.mem_map_of_mem hmem.1, hmem.2⟩

theorem warnOn_lastAt (hfound : ∀ p ∈ found, p.1 ≠ 0) (file : List Char) (line type : ℕ) :
    warnOn file line (lastAt type found) = repeated file line type (found.map Prod.snd) :=
  if_congr (lastAt_ne_zero hfound type) rfl rfl

theorem firstAt_eq_zero (h : found.countP (fun p => p.2.type = type) = 0) : firstAt type found = 0 := by
  rw [List.countP_eq_length_filter, List.length_eq_zero_iff] at h
  rw [firstAt, h]
  rfl

end Append

/-! ### The loop -/

section Loop

variable {mem : ℕ → BitVec 8} {fuel : ℕ} {found : List (ℕ × Attribute)} {address : ℕ}
  {attr : Attribute} {text rest : List (BitVec 8)}

/-- **The end of a text** is found. -/
theorem strlenLoop_lies {str : ℕ} (hlies : Lies mem address (text ++ 0 :: rest)) (hplain : 0 ∉ text)
    (hfuel : text.length < fuel) :
    strlenLoop mem str fuel address = .done (address + text.length - str) := by
  induction text generalizing address fuel with
  | nil =>
    obtain ⟨left, rfl⟩ : ∃ n, fuel = n + 1 := ⟨fuel - 1, by omega⟩
    have hend : mem address = 0 := hlies.1
    rw [strlenLoop, if_neg (not_not.mpr hend)]
    rfl
  | cons b text ih =>
    obtain ⟨left, rfl⟩ : ∃ n, fuel = n + 1 := ⟨fuel - 1, by omega⟩
    rw [List.length_cons] at hfuel
    have hb : mem address ≠ 0 := by
      have hfirst : mem address = b := hlies.1
      rw [hfirst]
      rintro rfl
      exact hplain List.mem_cons_self
    rw [strlenLoop, if_pos hb, ih hlies.2 (fun hmem => hplain (List.mem_cons_of_mem _ hmem))
      (by omega), List.length_cons, show address + 1 + text.length = address + (text.length + 1) by omega]

theorem strRuntime_lies (hlies : Lies mem address (text ++ 0 :: rest)) (hplain : 0 ∉ text)
    (hfuel : text.length < fuel) :
    strRuntime fuel mem address =
      .done ⟨some (text.map fun b => Char.ofNat b.toNat), text.length⟩ := by
  have hchars : (List.range text.length).map (fun i => Char.ofNat (mem (address + i)).toNat) =
      text.map fun b => Char.ofNat b.toNat := by
    conv_rhs => rw [← (lies_append.mp hlies).1.eq, List.map_map]
    rfl
  rw [strRuntime, strlen, strlenLoop_lies hlies hplain hfuel, done_bind, Nat.add_sub_cancel_left, hchars]
  rfl

theorem Attribute.type_lt (attr : Attribute) : attr.type < 2 ^ 32 := by
  cases attr with
  | platformInfo _ => exact show 1 < 2 ^ 32 by decide
  | kernelInfo _ => exact show 2 < 2 ^ 32 by decide
  | memoryMap _ => exact show 3 < 2 ^ 32 by decide
  | moduleInfo _ => exact show 4 < 2 ^ 32 by decide
  | commandLine _ _ _ => exact show 5 < 2 ^ 32 by decide
  | framebufferInfo _ => exact show 6 < 2 ^ 32 by decide
  | other type _ _ => exact type.isLt

theorem record_fits (hsize : attr.record.size 4 < 2 ^ 32) : attr.record.Fits 4 :=
  ⟨attr.type_lt, hsize⟩

/-- **One attribute** is kept, or warned about. -/
theorem attributeInit_located (file : List Char) (hfound : ∀ p ∈ found, p.1 ≠ 0)
    (hcount : found.length + 1 < 2 ^ 64) (hlies : Lies mem address (attr.record.bytes 4))
    (hsize : attr.record.size 4 < 2 ^ 32) (hfuel : attr.body.length < fuel) :
    attributeInit fuel mem file address (contextOf found) =
      .done (contextOf (found ++ [(address, attr)]), attr.messages file (found.map Prod.snd)) := by
  have htype : numberAt mem address 4 = attr.type := tag_read hlies (record_fits hsize)
  have hwarn := warnOn_lastAt hfound file
  rw [attributeInit, htype, contextOf_append]
  cases attr with
  | platformInfo info => exact congrArg (fun m => Outcome.done (_, m)) (hwarn 36 _)
  | kernelInfo body => exact congrArg (fun m => Outcome.done (_, m)) (hwarn 40 _)
  | memoryMap entries => exact congrArg (fun m => Outcome.done (_, m)) (hwarn 44 _)
  | framebufferInfo body => exact congrArg (fun m => Outcome.done (_, m)) (hwarn 56 _)
  | commandLine text plain rest =>
    have hbody : Lies mem (address + 8) (text ++ 0 :: rest) := body_lies hlies
    have hlength : text.length < fuel := by
      have hlt : (text ++ 0 :: rest).length < fuel := hfuel
      rw [List.length_append] at hlt
      omega
    have hcmdline := strRuntime_lies hbody plain hlength
    show (strRuntime fuel mem (address + 8) >>= _) = _
    rw [hcmdline, done_bind]
    simp [Attribute.type, Attribute.text?, Attribute.messages, ultraAttributeCommandLine,
      ultraAttributePlatformInfo, ultraAttributeKernelInfo, ultraAttributeMemoryMap,
      ultraAttributeFramebufferInfo, ultraAttributeModuleInfo]
  | moduleInfo body =>
    have hroom : (contextOf found).numModules + 1 < 2 ^ 64 :=
      Nat.lt_of_le_of_lt (Nat.succ_le_succ List.countP_le_length) hcount
    have hwarnings : (if (contextOf found).numModules = 0 then
        warnOn file 61 (contextOf found).modules else []) = [] := by
      split_ifs with hfirst
      · rw [show (contextOf found).modules = 0 from firstAt_eq_zero hfirst]
        rfl
      · rfl
    have hmodules : (if (Attribute.moduleInfo body).type = ultraAttributeModuleInfo ∧
        (contextOf found).numModules = 0 then address else (contextOf found).modules) =
        if (contextOf found).numModules = 0 then address else (contextOf found).modules :=
      if_congr (and_iff_right rfl) rfl rfl
    rw [hmodules]
    show Outcome.done (_, if (contextOf found).numModules = 0 then
      warnOn file 61 (contextOf found).modules else []) = _
    rw [hwarnings, add64_of_lt hroom]
    rfl
  | other type unknown body =>
    have hne : ∀ n, 1 ≤ n → n ≤ 6 → (Attribute.other type unknown body).type ≠ n := by
      intro n hone hsix
      show type.toNat ≠ n
      rcases unknown with rfl | hlarge
      · exact Nat.ne_of_lt hone
      · omega
    have hplatform := hne ultraAttributePlatformInfo (by decide) (by decide)
    have hkernel := hne ultraAttributeKernelInfo (by decide) (by decide)
    have hmap := hne ultraAttributeMemoryMap (by decide) (by decide)
    have hmodule := hne ultraAttributeModuleInfo (by decide) (by decide)
    have hcmdline := hne ultraAttributeCommandLine (by decide) (by decide)
    have hfb := hne ultraAttributeFramebufferInfo (by decide) (by decide)
    simp only [hplatform, hkernel, hmap, hmodule, hcmdline, hfb, if_false, false_and]
    rfl

/-- **The loop over the attributes.** -/
theorem attributesInit_located (file : List Char) {attrs : List Attribute}
    (hlies : Lies mem address (attrs.flatMap fun attr => attr.record.bytes 4))
    (hroom : address + (attrs.flatMap fun attr => attr.record.bytes 4).length < 2 ^ 64)
    (hsize : ∀ attr ∈ attrs, attr.record.size 4 < 2 ^ 32)
    (hfuel : ∀ attr ∈ attrs, attr.body.length < fuel) (haddress : address ≠ 0)
    (hfound : ∀ p ∈ found, p.1 ≠ 0) (hcount : found.length + attrs.length < 2 ^ 64)
    (messages : List Message) :
    attributesInit fuel mem file attrs.length address (contextOf found) messages =
      .done (contextOf (found ++ located address attrs),
        messages ++ messagesOf file (found.map Prod.snd) attrs) := by
  induction attrs generalizing address found messages with
  | nil => simp [attributesInit, located, messagesOf]
  | cons attr attrs ih =>
    rw [List.flatMap_cons] at hlies hroom
    rw [List.length_append, attr.record.bytes_length] at hroom
    rw [List.length_cons] at hcount
    obtain ⟨hfirst, hrest⟩ := lies_append.mp hlies
    rw [attr.record.bytes_length] at hrest
    have hattr := attributeInit_located file hfound (show found.length + 1 < 2 ^ 64 by omega) hfirst
      (hsize attr List.mem_cons_self) (hfuel attr List.mem_cons_self)
    have hnext : ultraNextAttribute mem address = address + attr.record.size 4 := by
      rw [ultraNextAttribute,
        size_read_back hfirst (record_fits (hsize attr List.mem_cons_self)), add64_of_lt (by omega)]
    have hfound' : ∀ p ∈ found ++ [(address, attr)], p.1 ≠ 0 := by
      intro p hp
      rcases List.mem_append.mp hp with hp | hp
      · exact hfound p hp
      · rw [List.mem_singleton.mp hp]
        exact haddress
    rw [List.length_cons, attributesInit, hattr, done_bind]
    dsimp only
    rw [hnext, ih hrest (by omega) (fun a ha => hsize a (List.mem_cons_of_mem _ ha))
      (fun a ha => hfuel a (List.mem_cons_of_mem _ ha)) (by omega) hfound'
      (by rw [List.length_append, List.length_singleton]; omega)]
    rw [located, messagesOf, List.append_assoc, List.append_assoc, List.map_append]
    rfl

end Loop

/-! ### What is read there -/

section Reads

variable {mem : ℕ → BitVec 8} {address ctx type : ℕ} {attr : Attribute} {attrs before after : List Attribute}

/-- The bytes of attributes. -/
def bytesOf (attrs : List Attribute) : List (BitVec 8) := attrs.flatMap fun attr => attr.record.bytes 4

theorem located_append (address : ℕ) (before after : List Attribute) :
    located address (before ++ after) =
      located address before ++ located (address + (bytesOf before).length) after := by
  induction before generalizing address with
  | nil => rfl
  | cons attr before ih =>
    rw [List.cons_append, located, located, ih, bytesOf, bytesOf, List.flatMap_cons, List.length_append,
      attr.record.bytes_length, List.cons_append, Nat.add_assoc]

theorem mem_of_located {p : ℕ × Attribute} (hp : p ∈ located address attrs) : p.2 ∈ attrs := by
  induction attrs generalizing address with
  | nil => cases hp
  | cons attr attrs ih =>
    rcases List.mem_cons.mp hp with rfl | hp
    · exact List.mem_cons_self
    · exact List.mem_cons_of_mem _ (ih hp)

theorem filter_located (h : ∀ attr ∈ attrs, attr.type ≠ type) :
    (located address attrs).filter (fun p => p.2.type = type) = [] := by
  rw [List.filter_eq_nil_iff]
  intro p hp
  simpa using h p.2 (mem_of_located hp)

/-- **The last attribute of a type** is behind all the others. -/
theorem lastAt_located (htype : attr.type = type) (hafter : ∀ attr ∈ after, attr.type ≠ type) :
    lastAt type (located address (before ++ attr :: after)) = address + (bytesOf before).length := by
  rw [located_append, located, lastAt, List.filter_append,
    List.filter_cons, if_pos (decide_eq_true htype), filter_located hafter, List.getLast?_concat]
  rfl

theorem firstAt_located (htype : attr.type = type) (hbefore : ∀ attr ∈ before, attr.type ≠ type) :
    firstAt type (located address (before ++ attr :: after)) = address + (bytesOf before).length := by
  rw [located_append, located, firstAt, List.filter_append, filter_located hbefore, List.nil_append,
    List.filter_cons, if_pos (decide_eq_true htype)]
  rfl

/-- The body of an attribute behind others. -/
theorem body_located (h : Laid mem ctx (before ++ attr :: after)) :
    Lies mem (ctx + 8 + (bytesOf before).length) (attr.record.bytes 4) := by
  have hlies := h.attributes
  rw [List.flatMap_append, lies_append, List.flatMap_cons] at hlies
  exact (lies_append.mp hlies.2).1

/-- **The platform info** is read back. -/
theorem platformInfo_reads {info : PlatformInfo}
    (h : Lies mem address ((Attribute.platformInfo info).record.bytes 4)) :
    platformType mem address = info.platformType.toNat ∧ loaderName mem address = info.loaderName ∧
      higherHalfBase mem address = info.higherHalfBase.toNat ∧
      pageTableDepth mem address = info.pageTableDepth.toNat := by
  have hbody : Lies mem (address + 8) info.body := body_lies h
  simp only [PlatformInfo.body, lies_append, little_length, info.loaderName_length] at hbody
  obtain ⟨htype, -, -, hname, -, hbase, hdepth, -⟩ := hbody
  refine ⟨numberAt_little htype info.platformType.isLt, ?_,
    numberAt_little hbase info.higherHalfBase.isLt, numberAt_little hdepth info.pageTableDepth.isLt⟩
  have heq := hname.eq
  rw [info.loaderName_length] at heq
  exact heq

theorem mapEntries_length (entries : List MapEntry) :
    (entries.flatMap MapEntry.bytes).length = entries.length * ultraMemoryMapEntrySize := by
  induction entries with
  | nil => rfl
  | cons entry entries ih =>
    rw [List.flatMap_cons, List.length_append, ih, List.length_cons, MapEntry.bytes]
    simp only [List.length_append, little_length, ultraMemoryMapEntrySize]
    omega

theorem mapEntries_read {entries : List MapEntry} (h : Lies mem address (entries.flatMap MapEntry.bytes)) :
    (List.range entries.length).map (fun i =>
        let entry := address + i * ultraMemoryMapEntrySize
        (⟨numberAt mem entry 8, numberAt mem (entry + 8) 8, numberAt mem (entry + 16) 8⟩ :
          UltraMemoryMapEntry)) = entries.map MapEntry.value := by
  induction entries generalizing address with
  | nil => rfl
  | cons entry entries ih =>
    rw [List.flatMap_cons, lies_append] at h
    obtain ⟨hentry, hrest⟩ := h
    simp only [MapEntry.bytes, lies_append, little_length, List.length_append] at hentry hrest
    rw [List.length_cons, List.range_succ_eq_map, List.map_cons, List.map_map, List.map_cons]
    have hfirst : (⟨numberAt mem (address + 0 * ultraMemoryMapEntrySize) 8,
        numberAt mem (address + 0 * ultraMemoryMapEntrySize + 8) 8,
        numberAt mem (address + 0 * ultraMemoryMapEntrySize + 16) 8⟩ : UltraMemoryMapEntry) =
        entry.value := by
      rw [Nat.zero_mul, Nat.add_zero, numberAt_little hentry.1 entry.physicalAddress.isLt,
        numberAt_little hentry.2.1 entry.size.isLt, numberAt_little hentry.2.2 entry.type.isLt]
      rfl
    refine congrArg₂ List.cons hfirst ((List.map_congr_left fun i _ => ?_).trans (ih hrest))
    show _ = _
    simp only [Function.comp_apply, ultraMemoryMapEntrySize]
    rw [show address + Nat.succ i * 24 = address + 24 + i * 24 by rw [Nat.succ_mul]; omega]

/-- **The memory map** is read back. -/
theorem memoryMap_reads {entries : List MapEntry}
    (h : Lies mem address ((Attribute.memoryMap entries).record.bytes 4))
    (hsize : (Attribute.memoryMap entries).record.size 4 < 2 ^ 32) :
    (memoryMapAt mem address).visited = entries.map MapEntry.value := by
  have hheader : (memoryMapAt mem address).headerSize =
      8 + entries.length * ultraMemoryMapEntrySize := by
    show numberAt mem (address + 4) 4 = _
    rw [size_read_back h (record_fits hsize)]
    exact congrArg (8 + ·) (mapEntries_length entries)
  have hcount : ultraMemoryMapEntryCount (memoryMapAt mem address).headerSize = entries.length := by
    have hlt : 8 + (entries.flatMap MapEntry.bytes).length < 2 ^ 32 := hsize
    rw [mapEntries_length] at hlt
    rw [hheader, ultraMemoryMapEntryCount, sub64_of_le (by unfold ultraAttributeHeaderSize; omega) (by omega)]
    unfold ultraAttributeHeaderSize ultraMemoryMapEntrySize
    omega
  rw [UltraMemoryMapAttribute.visited, hcount]
  exact mapEntries_read (body_lies h)

theorem Attribute.text?_eq_none (h : attr.type ≠ ultraAttributeCommandLine) : attr.text? = none := by
  cases attr with
  | commandLine text plain rest => exact absurd rfl h
  | _ => rfl

theorem filterMap_located (h : ∀ attr ∈ attrs, attr.type ≠ ultraAttributeCommandLine) :
    (located address attrs).filterMap (fun p => p.2.text?) = [] := by
  rw [List.filterMap_eq_nil_iff]
  exact fun p hp => Attribute.text?_eq_none (h p.2 (mem_of_located hp))

/-- **The text of the last command line.** -/
theorem cmdlineOf_located {text : List Char} (htext : attr.text? = some text)
    (hafter : ∀ attr ∈ after, attr.type ≠ ultraAttributeCommandLine) :
    cmdlineOf (located address (before ++ attr :: after)) = ⟨some text, text.length⟩ := by
  rw [located_append, located, cmdlineOf, List.filterMap_append,
    List.filterMap_cons_some (f := fun p : ℕ × Attribute => p.2.text?) htext,
    filterMap_located hafter, List.getLast?_concat]

theorem located_map (address : ℕ) (attrs : List Attribute) :
    (located address attrs).map Prod.snd = attrs := by
  induction attrs generalizing address with
  | nil => rfl
  | cons attr attrs ih => rw [located, List.map_cons, ih]

theorem located_ne_zero (haddress : address ≠ 0) : ∀ p ∈ located address attrs, p.1 ≠ 0 := by
  induction attrs generalizing address with
  | nil => exact fun p hp => absurd hp List.not_mem_nil
  | cons attr attrs ih =>
    intro p hp
    rcases List.mem_cons.mp hp with rfl | hp
    · exact haddress
    · exact ih (by omega) p hp

/-- The attributes that must be there. -/
def Complete (attrs : List Attribute) : Prop :=
  (∃ attr ∈ attrs, attr.type = ultraAttributeKernelInfo) ∧
    (∃ attr ∈ attrs, attr.type = ultraAttributePlatformInfo) ∧
      ∃ attr ∈ attrs, attr.type = ultraAttributeMemoryMap

instance (attrs : List Attribute) : Decidable (Complete attrs) :=
  inferInstanceAs (Decidable (_ ∧ _ ∧ _))

theorem kept_iff (attrs : List Attribute) (ctx type : ℕ) :
    lastAt type (located (ctx + 8) attrs) = 0 ↔ ¬ ∃ attr ∈ attrs, attr.type = type := by
  have hkept := lastAt_ne_zero (@located_ne_zero (ctx + 8) attrs (Nat.succ_ne_zero _)) type
  rw [located_map] at hkept
  rw [← hkept, not_not]

/-- **`boot_context_init`** as a whole. -/
theorem bootContextInit_laid {fuel : ℕ} (h : Laid mem ctx attrs)
    (hfuel : ∀ attr ∈ attrs, attr.body.length < fuel) (file : List Char) :
    let kept := contextOf (located (ctx + 8) attrs)
    bootContextInit fuel mem file ctx =
      if kept.kernelInfo = 0 ∨ kept.platformInfo = 0 ∨ kept.memoryMap = 0 then .halt .mandatory
      else .done (kept, messagesOf file [] attrs) := by
  have hcount : numberAt mem (ctx + 4) 4 = attrs.length := numberAt_little h.count h.count_lt
  have hlt := h.count_lt
  have hloop := @attributesInit_located mem fuel [] (ctx + 8) file attrs h.attributes h.room h.size_lt hfuel
    (Nat.succ_ne_zero _) (fun p hp => absurd hp List.not_mem_nil)
    (by rw [List.length_nil]; omega) []
  rw [bootContextInit, hcount, show initialContext = contextOf [] from rfl, hloop]
  rfl

/-- **What the loader means is what the kernel reads.**  If the attributes that must be there are, then
`boot_context_init` ends, with a warning for each attribute other than a command line or a module that
repeats one and each of another type, in their order; else it panics.  The platform info, the memory
map and the command line are those of the last attribute of their type, and the modules are counted,
from the first on. -/
theorem boot_context_reads {fuel : ℕ} (h : Laid mem ctx attrs)
    (hfuel : ∀ attr ∈ attrs, attr.body.length < fuel) (file : List Char) :
    let kept := contextOf (located (ctx + 8) attrs)
    (Complete attrs → bootContextInit fuel mem file ctx = .done (kept, messagesOf file [] attrs)) ∧
    (¬ Complete attrs → bootContextInit fuel mem file ctx = .halt .mandatory) ∧
    (∀ before info after, attrs = before ++ .platformInfo info :: after →
      (∀ attr ∈ after, attr.type ≠ ultraAttributePlatformInfo) →
      platformType mem kept.platformInfo = info.platformType.toNat ∧
        loaderName mem kept.platformInfo = info.loaderName ∧
        higherHalfBase mem kept.platformInfo = info.higherHalfBase.toNat ∧
        pageTableDepth mem kept.platformInfo = info.pageTableDepth.toNat) ∧
    (∀ before entries after, attrs = before ++ .memoryMap entries :: after →
      (∀ attr ∈ after, attr.type ≠ ultraAttributeMemoryMap) →
      (memoryMapAt mem kept.memoryMap).visited = entries.map MapEntry.value) ∧
    (∀ before text plain rest after, attrs = before ++ .commandLine text plain rest :: after →
      (∀ attr ∈ after, attr.type ≠ ultraAttributeCommandLine) →
      kept.cmdline.Holds (text.map fun b => Char.ofNat b.toNat)) ∧
    kept.numModules = attrs.countP (fun attr => attr.type = ultraAttributeModuleInfo) ∧
    ∀ before body after, attrs = before ++ .moduleInfo body :: after →
      (∀ attr ∈ before, attr.type ≠ ultraAttributeModuleInfo) →
      Lies mem kept.modules ((Attribute.moduleInfo body).record.bytes 4) := by
  intro kept
  have hinit := bootContextInit_laid h hfuel file
  have hkernel := kept_iff attrs ctx ultraAttributeKernelInfo
  have hplatform := kept_iff attrs ctx ultraAttributePlatformInfo
  have hmap := kept_iff attrs ctx ultraAttributeMemoryMap
  refine ⟨fun hcomplete => ?_, fun hcomplete => ?_, fun before info after hattrs hafter => ?_,
    fun before entries after hattrs hafter => ?_, fun before text plain rest after hattrs hafter => ?_,
    ?_, fun before body after hattrs hbefore => ?_⟩
  · rw [hinit, if_neg]
    rintro (hzero | hzero | hzero)
    · exact hkernel.mp hzero hcomplete.1
    · exact hplatform.mp hzero hcomplete.2.1
    · exact hmap.mp hzero hcomplete.2.2
  · rw [hinit, if_pos]
    by_contra hnone
    rw [not_or, not_or] at hnone
    exact hcomplete ⟨not_not.mp fun hmissing => hnone.1 (hkernel.mpr hmissing),
      not_not.mp fun hmissing => hnone.2.1 (hplatform.mpr hmissing),
      not_not.mp fun hmissing => hnone.2.2 (hmap.mpr hmissing)⟩
  · subst hattrs
    rw [show kept.platformInfo = _ from lastAt_located rfl hafter]
    exact platformInfo_reads (body_located h)
  · subst hattrs
    rw [show kept.memoryMap = _ from lastAt_located rfl hafter]
    exact memoryMap_reads (body_located h)
      (h.size_lt _ (List.mem_append_right _ List.mem_cons_self))
  · subst hattrs
    rw [show kept.cmdline = _ from cmdlineOf_located rfl hafter]
    exact ⟨rfl, List.prefix_rfl⟩
  · show (located (ctx + 8) attrs).countP (fun p => p.2.type = ultraAttributeModuleInfo) = _
    conv_rhs => rw [← located_map (ctx + 8) attrs, List.countP_map]
    rfl
  · subst hattrs
    rw [show kept.modules = _ from firstAt_located rfl hbefore]
    exact body_located h

end Reads

/-! ### A boot context -/

def bootInfo : PlatformInfo where
  platformType := 2
  loaderMajor := 0
  loaderMinor := 1
  loaderName := List.replicate 32 0
  acpiRsdpAddress := 0
  higherHalfBase := 0xFFFF800000000000
  pageTableDepth := 4
  reserved := List.replicate 7 0
  loaderName_length := List.length_replicate
  reserved_length := List.length_replicate

/-- Four attributes, with a page of memory and the command line `a`. -/
def bootAttributes : List Attribute :=
  [.platformInfo bootInfo, .kernelInfo [], .memoryMap [⟨0x1000, 0x1000, 1⟩],
    .commandLine [97] (by decide) []]

def bootBytes : List (BitVec 8) :=
  [5, 1, 0, 0] ++ (little 4 4 ++ bytesOf bootAttributes)

theorem lies_getD (bytes before : List (BitVec 8)) (base : ℕ) :
    Lies (fun address => (before ++ bytes).getD (address - base) 0) (base + before.length) bytes := by
  induction bytes generalizing before with
  | nil => trivial
  | cons b bytes ih =>
    refine ⟨?_, ?_⟩
    · dsimp only
      rw [Nat.add_sub_cancel_left, List.getD_append_right _ _ _ _ (Nat.le_refl _), Nat.sub_self]
      rfl
    · have hrest := ih (before ++ [b])
      rwa [List.append_assoc, List.length_append, ← Nat.add_assoc] at hrest

theorem bootAttributes_laid :
    Laid (fun address => bootBytes.getD (address - 0x1000) 0) 0x1000 bootAttributes := by
  have hlies := lies_getD bootBytes [] 0x1000
  have hrest := (lies_append.mp hlies).2
  obtain ⟨hcount, hattributes⟩ := lies_append.mp hrest
  exact ⟨hcount, by decide, hattributes, by decide +kernel, by decide +kernel⟩

theorem boot_context_reads_four :
    let mem := fun address => bootBytes.getD (address - 0x1000) 0
    let kept := contextOf (located 0x1008 bootAttributes)
    bootContextInit 100 mem [] 0x1000 = .done (kept, messagesOf [] [] bootAttributes) ∧
      higherHalfBase mem kept.platformInfo = 0xFFFF800000000000 ∧
      (memoryMapAt mem kept.memoryMap).visited = [⟨0x1000, 0x1000, 1⟩] ∧ kept.cmdline.Holds ['a'] := by
  obtain ⟨hinit, -, hplatform, hmap, hcmdline, -⟩ :=
    @boot_context_reads _ 0x1000 bootAttributes 100 bootAttributes_laid
      (by decide +kernel) []
  exact ⟨hinit (by decide), (hplatform [] bootInfo _ rfl (by decide)).2.2.1,
    hmap [_, _] _ [_] rfl (by decide), hcmdline [_, _, _] _ _ _ [] rfl (by decide)⟩

end UltraKernel.Boot
