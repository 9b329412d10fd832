import UltraKernel.Cmdline.Rendering

/-!
# What parsing a command line does

The main loop handles the keys and values of the items in order, and after each quoted value a key
that is its closing quote.

* `cmdlineParse_renders`: a parse of a rendered line;
* `cmdlineParse_applies`: without an `unknown_cb`, the items are applied to their parameters;
* `intOps_keeps`, `boolOps_keeps`, `stringOps_keeps`: the operations of the types of `param.c` leave
  a value alone that they refuse.
-/

namespace UltraKernel.Cmdline

open Outcome UltraKernel.Param

/-! ### The main loop -/

section Parse

variable {μ : Type} {params : List (Param μ)} {unknownCb : Option (UnknownParamCb μ)}
  {items : List Item} {rest : Option (List Char)} {line : List Char} {cmdline : Str} {fuel : ℕ}

/-- What handling keys and values in order does. -/
def handleAll (params : List (Param μ)) (unknownCb : Option (UnknownParamCb μ))
    (pieces : List (List Char × List Char)) (effects : Effects μ) : Effects μ :=
  pieces.foldl (fun effects piece => handleItem params unknownCb piece.1 piece.2 effects) effects

variable (params unknownCb) in
/-- **One round** handles the key and the value that are read. -/
theorem parseLoop_reads {k v left : List Char} (hk : k ≠ []) (h : Reads fuel cmdline k v left)
    (effects : Effects μ) :
    ∃ cmdline', cmdline'.Holds (left.dropWhile isspace) ∧
      parseLoop params unknownCb (fuel + 1) cmdline effects =
        parseLoop params unknownCb fuel cmdline' (handleItem params unknownCb k v effects) := by
  obtain ⟨key, value, inside, cmdline', hscan, hkey, hvalue, htrim, hcmdline'⟩ := h
  refine ⟨cmdline', hcmdline', ?_⟩
  rw [parseLoop, hscan, done_bind]
  dsimp only
  rw [if_neg (by simpa [hkey.strEmpty] using hk), htrim, done_bind, hkey.chars_eq, hvalue.chars_eq]

theorem parseLoop_nil (h : cmdline.Holds []) (effects : Effects μ) :
    parseLoop params unknownCb (fuel + 2) cmdline effects = .done (cmdline, effects) := by
  rw [parseLoop, scanItem, if_pos (by simpa using h.strEmpty), done_bind]
  rfl

variable (params unknownCb) in
theorem parseLoop_stop {after : List Char} (hfuel : after.length < fuel)
    (h : cmdline.Holds ('-' :: '-' :: after)) (effects : Effects μ) :
    ∃ cmdline', cmdline'.Holds (after.dropWhile isspace) ∧
      parseLoop params unknownCb (fuel + 2) cmdline effects = .done (cmdline', effects) := by
  obtain ⟨inside, hoffset, hinside, _⟩ := strOffsetBy_holds (n := 2) h (by simp)
  obtain ⟨cmdline', htrim, hcmdline'⟩ := cmdlineTrim_holds hfuel hinside
  refine ⟨cmdline', hcmdline', ?_⟩
  rw [parseLoop, scanItem, if_neg (by simpa using h.strEmpty), if_pos (by rw [h.chars_eq]; rfl),
    hoffset, done_bind, htrim, done_bind]
  rfl

theorem Item.key_ne_nil (item : Item) : item.key ≠ [] := by
  cases item with
  | bare k => exact k.ne_nil
  | assigned k => exact k.ne_nil
  | quoted k => exact k.ne_nil

theorem Item.pieces_eq (item : Item) :
    item.pieces = (item.key, item.value) :: if item.isQuoted then [(['"'], [])] else [] := by
  cases item <;> rfl

theorem Item.text_head (item : Item) (after : List Char) :
    (item.text ++ after).dropWhile isspace = item.text ++ after := by
  have hkey : ∀ (k : Key) (after : List Char),
      (k.text ++ after).dropWhile isspace = k.text ++ after := by
    intro k after
    cases htext : k.text with
    | nil => exact absurd htext k.ne_nil
    | cons c text =>
      have hc := (k.plain c (by rw [htext]; exact List.mem_cons_self ..)).1
      exact dropWhile_of_head hc _
  cases item with
  | bare k => exact hkey k after
  | assigned k =>
    rw [Item.text, List.append_assoc]
    exact hkey k _
  | quoted k =>
    rw [Item.text, List.append_assoc]
    exact hkey k _

theorem Item.text_length (item : Item) : (if item.isQuoted then 4 else 1) ≤ item.text.length := by
  have hkey : ∀ k : Key, 1 ≤ k.text.length := fun k => List.length_pos_iff.mpr k.ne_nil
  cases item with
  | bare k => exact hkey k
  | assigned k =>
    have := hkey k
    simp only [isQuoted, text, List.length_append, List.length_cons, Bool.false_eq_true, if_false]
    omega
  | quoted k =>
    have := hkey k
    simp only [isQuoted, text, List.length_append, List.length_cons, if_true]
    omega

theorem Item.left_of_quoted {item : Item} (h : item.isQuoted = true) (after : List Char) :
    item.left after = '"' :: after := by
  cases item with
  | quoted => rfl
  | bare => cases h
  | assigned => cases h

theorem Item.left_of_not_quoted {item : Item} (h : item.isQuoted = false) (after : List Char) :
    item.left after = after := by
  cases item with
  | quoted => cases h
  | bare => rfl
  | assigned => rfl

theorem passed_quote (line : List Char) : Passed ['"'] line where
  plain c hc := by
    obtain rfl := List.mem_singleton.mp hc
    decide
  noStop before rest heq hne := by
    have hsuffix : rest <:+ ['"'] := ⟨before, heq.symm⟩
    rcases List.suffix_cons_iff.mp hsuffix with rfl | hnil
    · rfl
    · exact absurd (List.suffix_nil.mp hnil) hne

/-- **The main loop** handles what is read from the items, from where the line was trimmed. -/
theorem parseLoop_renders (h : Renders items rest line)
    (hfuel : (line.dropWhile isspace).length + 3 ≤ fuel)
    (hcmdline : cmdline.Holds (line.dropWhile isspace)) (effects : Effects μ) :
    ∃ result, parseLoop params unknownCb fuel cmdline effects =
        .done (result, handleAll params unknownCb (items.flatMap Item.pieces) effects) ∧
      result.Holds ((rest.getD []).dropWhile isspace) := by
  induction h generalizing fuel cmdline effects with
  | @done gap hgap =>
    obtain ⟨fuel, rfl⟩ : ∃ n, fuel = n + 2 := ⟨fuel - 2, by omega⟩
    have hnil : gap.dropWhile isspace = [] := by
      simpa using dropWhile_blank hgap []
    rw [hnil] at hcmdline
    exact ⟨cmdline, parseLoop_nil hcmdline effects, hcmdline⟩
  | @stop gap rest hgap =>
    rw [dropWhile_blank hgap, dropWhile_of_head (by decide)] at hfuel hcmdline
    simp only [List.length_cons] at hfuel
    obtain ⟨fuel, rfl⟩ : ∃ n, fuel = n + 2 := ⟨fuel - 2, by omega⟩
    obtain ⟨result, hresult, hrun⟩ := parseLoop_stop params unknownCb
      (show _ < fuel by omega) hcmdline effects
    exact ⟨result, hrun, hresult⟩
  | @item gap item items rest line hgap hline hseparated ih =>
    rw [dropWhile_blank hgap, item.text_head] at hfuel hcmdline
    obtain ⟨fuel, rfl⟩ : ∃ n, fuel = n + 1 := ⟨fuel - 1, by omega⟩
    obtain ⟨inside, hinside, hround⟩ := parseLoop_reads params unknownCb item.key_ne_nil
      (reads_item item hseparated (show _ ≤ fuel by omega) hcmdline) effects
    have hdropped := (List.dropWhile_sublist isspace (l := line)).length_le
    have htext := item.text_length
    rw [List.length_append] at hfuel
    rw [hround, List.flatMap_cons, item.pieces_eq]
    cases hquoted : item.isQuoted with
    | false =>
      simp only [hquoted, Bool.false_eq_true, if_false] at htext
      rw [Item.left_of_not_quoted hquoted] at hinside
      exact ih (by omega) hinside _
    | true =>
      -- the closing quote is read as one more key
      rw [hquoted, if_pos rfl] at htext
      rw [Item.left_of_quoted hquoted, dropWhile_of_head (by decide)] at hinside
      obtain ⟨fuel, rfl⟩ : ∃ n, fuel = n + 1 := ⟨fuel - 1, by omega⟩
      obtain ⟨inside', hinside', hround'⟩ := parseLoop_reads params unknownCb
        (List.cons_ne_nil _ _)
        (reads_bare (passed_quote line) hseparated (show _ ≤ fuel by simp; omega) hinside)
        (handleItem params unknownCb item.key item.value effects)
      rw [hround']
      exact ih (by omega) hinside' _

/-- **A parse of a rendered line** handles what is read from its items, and returns what follows
the `--`. -/
theorem cmdlineParse_renders (params : List (Param μ)) (unknownCb : Option (UnknownParamCb μ))
    (h : Renders items rest line) (hfuel : line.length + 3 ≤ fuel)
    (hcmdline : cmdline.Holds line) (memory : μ) :
    ∃ result, cmdlineParse fuel cmdline params unknownCb memory =
        .done (result, handleAll params unknownCb (items.flatMap Item.pieces) ⟨memory, []⟩) ∧
      result.Holds ((rest.getD []).dropWhile isspace) := by
  obtain ⟨cmdline', htrim, hcmdline'⟩ := cmdlineTrim_holds (show _ < fuel by omega) hcmdline
  have hdropped := (List.dropWhile_sublist isspace (l := line)).length_le
  rw [cmdlineParse, htrim, done_bind]
  exact parseLoop_renders h (by omega) hcmdline' _

/-! ### The parameter of a key -/

theorem equalsLoop_iff {lhs rhs : List Char} (h : lhs.length = rhs.length) :
    equalsLoop cmdlineNameCompare lhs rhs ↔
      lhs.map dashToUnderscore = rhs.map dashToUnderscore := by
  induction lhs generalizing rhs with
  | nil =>
    obtain rfl := List.eq_nil_of_length_eq_zero h.symm
    simp [equalsLoop]
  | cons l lhs ih =>
    cases rhs with
    | nil => simp at h
    | cons r rhs =>
      rw [equalsLoop, Bool.and_eq_true, ih (by simpa using h), List.map_cons, List.map_cons,
        List.cons.injEq, cmdlineNameCompare, decide_eq_true_eq]

/-- **The comparison of names**: the same, dashes and underscores taken for each other. -/
theorem strEqualsWithCb_iff {lhs rhs : List Char} :
    strEqualsWithCb lhs rhs cmdlineNameCompare ↔
      lhs.map dashToUnderscore = rhs.map dashToUnderscore := by
  rw [strEqualsWithCb, Bool.and_eq_true, decide_eq_true_eq]
  constructor
  · rintro ⟨hlength, hequal⟩
    exact (equalsLoop_iff hlength).mp hequal
  · intro h
    have hlength : lhs.length = rhs.length := by
      simpa using congrArg List.length h
    exact ⟨hlength, (equalsLoop_iff hlength).mpr h⟩

/-- The first parameter with a name that is the key, up to dashes and underscores. -/
def paramOf (params : List (Param μ)) (key : List Char) : Option (Param μ) :=
  params.find? fun p => p.name.map dashToUnderscore = key.map dashToUnderscore

theorem findParam_eq (params : List (Param μ)) (key : List Char) :
    findParam key params = paramOf params key := by
  unfold findParam paramOf
  congr 1
  funext p
  rw [Bool.eq_iff_iff, strEqualsWithCb_iff, decide_eq_true_eq]

theorem dashToUnderscore_eq_quote {c : Char} : dashToUnderscore c = '"' ↔ c = '"' := by
  unfold dashToUnderscore
  split_ifs with hdash
  · rw [hdash]
    decide
  · exact Iff.rfl

/-- A double quote is found by its own name only. -/
theorem paramOf_quote : paramOf params ['"'] = none ↔ ∀ p ∈ params, p.name ≠ ['"'] := by
  have hname : ∀ name : List Char,
      name.map dashToUnderscore = ['"'].map dashToUnderscore ↔ name = ['"'] := by
    intro name
    match name with
    | [] => simp
    | [c] =>
      have hquote : dashToUnderscore '"' = '"' := by decide
      simp only [List.map_cons, List.map_nil, List.cons.injEq, and_true, hquote]
      exact dashToUnderscore_eq_quote
    | _ :: _ :: _ => simp
  simp only [paramOf, List.find?_eq_none, decide_eq_true_eq, hname]

/-! ### Applying the items -/

/-- The effect of an item on the memory: of a parameter, its `set` is called, unless the value is
empty where it may not be. -/
def applyItem (params : List (Param μ)) (memory : μ) (item : Item) : μ :=
  match paramOf params item.key with
  | none => memory
  | some p =>
    if item.value = [] ∧ ¬ p.ops.allowsEmptyValue then memory else (p.ops.set item.value memory).2

/-- A `set` that fails leaves the memory alone. -/
def ParamOps.KeepsOnFailure (ops : ParamOps μ) : Prop :=
  ∀ value memory, (ops.set value memory).1 ≠ eok → (ops.set value memory).2 = memory

/-- The effect of an item whose `set` is skipped when it fails. -/
def applyOrSkip (params : List (Param μ)) (memory : μ) (item : Item) : μ :=
  match paramOf params item.key with
  | none => memory
  | some p =>
    if item.value = [] ∧ ¬ p.ops.allowsEmptyValue then memory
    else if (p.ops.set item.value memory).1 = eok then (p.ops.set item.value memory).2
    else memory

theorem handleItem_memory (params : List (Param μ)) (key value : List Char) (effects : Effects μ) :
    (handleItem params none key value effects).memory =
      match paramOf params key with
      | none => effects.memory
      | some p =>
        if value = [] ∧ ¬ p.ops.allowsEmptyValue then effects.memory
        else (p.ops.set value effects.memory).2 := by
  rw [handleItem, findParam_eq]
  cases paramOf params key with
  | none => rfl
  | some p =>
    by_cases hset : value ≠ [] ∨ p.ops.allowsEmptyValue = true
    · dsimp only
      rw [if_pos hset, if_neg (by tauto)]
    · dsimp only
      rw [if_neg hset, if_pos (by tauto)]

theorem handleAll_memory (hquote : paramOf params ['"'] = none) (items : List Item)
    (effects : Effects μ) :
    (handleAll params none (items.flatMap Item.pieces) effects).memory =
      items.foldl (applyItem params) effects.memory := by
  induction items generalizing effects with
  | nil => rfl
  | cons item items ih =>
    have hitem : (handleAll params none item.pieces effects).memory =
        applyItem params effects.memory item := by
      rw [item.pieces_eq]
      cases item.isQuoted with
      | false => exact handleItem_memory params item.key item.value effects
      | true =>
        refine (handleItem_memory params ['"'] [] _).trans ?_
        rw [hquote]
        exact handleItem_memory params item.key item.value effects
    rw [List.flatMap_cons, handleAll, List.foldl_append, List.foldl_cons, ← hitem]
    exact ih _

theorem applyItem_eq (hkeeps : ∀ p ∈ params, p.ops.KeepsOnFailure) :
    applyItem params = applyOrSkip params := by
  funext memory item
  unfold applyItem applyOrSkip
  cases hparam : paramOf params item.key with
  | none => rfl
  | some p =>
    have hp : p ∈ params := List.mem_of_find?_eq_some hparam
    dsimp only
    refine if_congr Iff.rfl rfl ?_
    by_cases hret : (p.ops.set item.value memory).1 = eok
    · rw [if_pos hret]
    · rw [if_neg hret, hkeeps p hp _ _ hret]

/-- **Parsing without an `unknown_cb`**: every item is applied, in order, to the first parameter of
its name, and what follows the `--` is returned without its leading whitespace. -/
theorem cmdlineParse_applies (h : Renders items rest line) (hquote : ∀ p ∈ params, p.name ≠ ['"'])
    (hfuel : line.length + 3 ≤ fuel) (hcmdline : cmdline.Holds line) (memory : μ) :
    ∃ result effects, cmdlineParse fuel cmdline params none memory = .done (result, effects) ∧
      result.Holds ((rest.getD []).dropWhile isspace) ∧
      effects.memory = items.foldl (applyItem params) memory ∧
      ((∀ p ∈ params, p.ops.KeepsOnFailure) →
        effects.memory = items.foldl (applyOrSkip params) memory) := by
  obtain ⟨result, hrun, hresult⟩ := cmdlineParse_renders params none h hfuel hcmdline memory
  have hmemory := handleAll_memory (paramOf_quote.mpr hquote) items ⟨memory, []⟩
  refine ⟨result, _, hrun, hresult, hmemory, fun hkeeps => ?_⟩
  rw [← applyItem_eq hkeeps]
  exact hmemory

end Parse

/-- The line `a=1 --z` and a string parameter `a`. -/
theorem cmdlineParse_applies_oneItem :
    ∃ result effects, cmdlineParse 10 ⟨some ['a', '=', '1', ' ', '-', '-', 'z'], 7⟩
        [⟨['a'], stringOps ⟨id, fun value _ => value, fun _ => rfl⟩⟩] none [] =
          .done (result, effects) ∧ result.Holds ['z'] ∧ effects.memory = ['1'] := by
  let key : Key := ⟨['a'], by decide, List.forall_mem_singleton.mpr (by decide), by decide⟩
  have hrenders : Renders [.assigned key ['1'] (List.forall_mem_singleton.mpr (by decide))
      (by decide)] (some ['z']) ['a', '=', '1', ' ', '-', '-', 'z'] :=
    have hstop : Renders [] (some ['z']) [' ', '-', '-', 'z'] :=
      Renders.stop (show Blank [' '] by simp [Blank, isspace])
    Renders.item (show Blank [] by simp [Blank]) hstop rfl
  have hnames : ∀ p ∈ [(⟨['a'], stringOps ⟨id, fun value _ => value, fun _ => rfl⟩⟩ : Param (List Char))],
      p.name ≠ ['"'] := by simp
  obtain ⟨result, effects, hrun, hresult, hmemory, _⟩ := cmdlineParse_applies hrenders hnames
    (show _ ≤ 10 by simp) (holds_of_text _ []) []
  exact ⟨result, effects, hrun, hresult, hmemory⟩

/-! ### The operations of `param.c` -/

section Types

variable {μ α : Type}

theorem store_failed (value : α) (result : Except ErrorT α) (h : (store value result).1 ≠ eok) :
    (store value result).2 = value := by
  cases result with
  | ok v => exact absurd rfl h
  | error code => rfl

theorem opsAt_keeps {set : List Char → α → ErrorT × α}
    (hset : ∀ str value, (set str value).1 ≠ eok → (set str value).2 = value)
    (location : Location μ α) (allowsEmptyValue : Bool) :
    (opsAt location allowsEmptyValue set).KeepsOnFailure := by
  intro str memory hret
  change location.write (set str (location.read memory)).2 memory = memory
  rw [hset str _ hret, location.write_read]

theorem intOps_keeps (t : IntType) (location : Location μ ℤ) :
    (intOps t location).KeepsOnFailure := by
  refine opsAt_keeps (fun str value hret => ?_) location false
  cases t <;> exact store_failed value _ hret

theorem boolOps_keeps (location : Location μ Bool) : (boolOps location).KeepsOnFailure := by
  refine opsAt_keeps (fun str value hret => ?_) location true
  unfold paramSetBool at hret ⊢
  split_ifs at hret ⊢ with hnil
  · exact absurd rfl hret
  · exact store_failed value _ hret

theorem stringOps_keeps (location : Location μ (List Char)) :
    (stringOps location).KeepsOnFailure :=
  opsAt_keeps (fun _ _ hret => absurd rfl hret) location false

end Types

end UltraKernel.Cmdline
