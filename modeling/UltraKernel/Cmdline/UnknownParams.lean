import UltraKernel.Cmdline.Parsing

/-!
# The calls of `unknown_cb`

The closing quote of a quoted value is read as a key of its own.  Unless a parameter has this name,
it is passed to `unknown_cb` like the key of an unknown item.

* `unknownCalls_handleAll`: the calls are those pieces that no parameter is found for;
* `unknown_calls_iff`: when they are the unknown items.
-/

namespace UltraKernel.Cmdline

open Outcome

section Unknown

variable {μ : Type} {params : List (Param μ)}

/-- The arguments of the calls of `unknown_cb`, in order. -/
def unknownCalls (events : List Event) : List (List Char × List Char) :=
  events.filterMap fun
    | .unknown key value => some (key, value)
    | .bad .. => none

/-- No parameter is found for the key. -/
def isUnknown (params : List (Param μ)) (key : List Char) : Bool := (paramOf params key).isNone

/-- The keys and values of the items that no parameter is found for. -/
def unknownItems (params : List (Param μ)) (items : List Item) : List (List Char × List Char) :=
  (items.filter fun item => isUnknown params item.key).map fun item => (item.key, item.value)

theorem unknownCalls_handleItem (cb : UnknownParamCb μ) (key value : List Char)
    (effects : Effects μ) :
    unknownCalls (handleItem params (some cb) key value effects).events =
      unknownCalls effects.events ++ if isUnknown params key then [(key, value)] else [] := by
  rw [handleItem, findParam_eq, isUnknown]
  cases paramOf params key with
  | none =>
    rw [unknownCalls, List.filterMap_append]
    rfl
  | some p =>
    simp only [Option.isNone_some, Bool.false_eq_true, if_false, List.append_nil]
    generalize (if value ≠ [] ∨ p.ops.allowsEmptyValue = true then p.ops.set value effects.memory
      else (einval, effects.memory)) = stored
    obtain ⟨ret, memory⟩ := stored
    dsimp only
    split_ifs
    · rw [unknownCalls, List.filterMap_append]
      exact List.append_nil _
    · rfl

/-- **The calls** are made for what no parameter is found for, in order. -/
theorem unknownCalls_handleAll (params : List (Param μ)) (cb : UnknownParamCb μ)
    (pieces : List (List Char × List Char)) (effects : Effects μ) :
    unknownCalls (handleAll params (some cb) pieces effects).events =
      unknownCalls effects.events ++ pieces.filter fun piece => isUnknown params piece.1 := by
  induction pieces generalizing effects with
  | nil => exact (List.append_nil _).symm
  | cons piece pieces ih =>
    refine (ih _).trans ?_
    rw [unknownCalls_handleItem, List.append_assoc, List.filter_cons]
    split_ifs
    · rfl
    · rw [List.nil_append]

/-- What is read from the items, without what parameters are found for. -/
def unknownPieces (params : List (Param μ)) (items : List Item) : List (List Char × List Char) :=
  (items.flatMap Item.pieces).filter fun piece => isUnknown params piece.1

theorem unknownPieces_cons (item : Item) (items : List Item) :
    unknownPieces params (item :: items) =
      (if isUnknown params item.key then [(item.key, item.value)] else []) ++
        ((if item.isQuoted ∧ isUnknown params ['"'] then [(['"'], [])] else []) ++
          unknownPieces params items) := by
  have hquote : (if item.isQuoted then [(['"'], [])] else []).filter
      (fun piece : List Char × List Char => isUnknown params piece.1) =
        if item.isQuoted ∧ isUnknown params ['"'] then [(['"'], [])] else [] := by
    cases item.isQuoted with
    | false => simp
    | true =>
      rw [if_pos rfl, List.filter_cons, List.filter_nil]
      exact if_congr (by simp) rfl rfl
  rw [unknownPieces, List.flatMap_cons, List.filter_append, item.pieces_eq, List.filter_cons, hquote]
  by_cases hkey : isUnknown params item.key = true
  · rw [if_pos hkey, if_pos hkey]
    rfl
  · rw [if_neg hkey, if_neg hkey]
    rfl

theorem unknownItems_cons (item : Item) (items : List Item) :
    unknownItems params (item :: items) =
      (if isUnknown params item.key then [(item.key, item.value)] else []) ++
        unknownItems params items := by
  rw [unknownItems, List.filter_cons]
  split_ifs
  · rfl
  · rfl

/-- The closing quotes add as many calls as there are quoted items. -/
theorem unknownPieces_length (hquote : isUnknown params ['"'] = true) (items : List Item) :
    (unknownPieces params items).length =
      (unknownItems params items).length + (items.filter Item.isQuoted).length := by
  induction items with
  | nil => rfl
  | cons item items ih =>
    rw [unknownPieces_cons, unknownItems_cons, List.length_append, List.length_append,
      List.length_append, ih, List.filter_cons]
    cases hquoted : item.isQuoted with
    | false => simp; omega
    | true => simp [hquote]; omega

theorem unknownPieces_eq {items : List Item}
    (h : isUnknown params ['"'] = false ∨ ∀ item ∈ items, item.isQuoted = false) :
    unknownPieces params items = unknownItems params items := by
  induction items with
  | nil => rfl
  | cons item items ih =>
    have hnone : ¬ (item.isQuoted = true ∧ isUnknown params ['"'] = true) := by
      rintro ⟨hquoted, hquote⟩
      rcases h with h | h
      · rw [h] at hquote
        cases hquote
      · rw [h item (List.mem_cons_self ..)] at hquoted
        cases hquoted
    rw [unknownPieces_cons, unknownItems_cons, if_neg hnone, List.nil_append,
      ih (h.imp_right fun h item' hitem' => h item' (List.mem_cons_of_mem _ hitem'))]

theorem isUnknown_quote : isUnknown params ['"'] = false ↔ ∃ p ∈ params, p.name = ['"'] := by
  have hnone : isUnknown params ['"'] = true ↔ ∀ p ∈ params, p.name ≠ ['"'] := by
    rw [isUnknown, Option.isNone_iff_eq_none]
    exact paramOf_quote
  rw [← Bool.not_eq_true, hnone]
  simp only [ne_eq, not_forall, not_not, exists_prop]

/-- **The calls of `unknown_cb`** are the unknown items exactly when no item is quoted, or a
parameter has a double quote as its name. -/
theorem unknown_calls_iff {items : List Item} {rest : Option (List Char)} {line : List Char}
    (h : Renders items rest line) {cmdline : Str} {fuel : ℕ} (hfuel : line.length + 3 ≤ fuel)
    (hcmdline : cmdline.Holds line) (params : List (Param μ)) (cb : UnknownParamCb μ) (memory : μ) :
    ∃ result effects, cmdlineParse fuel cmdline params (some cb) memory = .done (result, effects) ∧
      (unknownCalls effects.events = unknownItems params items ↔
        (∀ item ∈ items, item.isQuoted = false) ∨ ∃ p ∈ params, p.name = ['"']) := by
  obtain ⟨result, hrun, _⟩ := cmdlineParse_renders params (some cb) h hfuel hcmdline memory
  refine ⟨result, _, hrun, ?_⟩
  have hcalls := unknownCalls_handleAll params cb (items.flatMap Item.pieces) ⟨memory, []⟩
  change _ = unknownPieces params items at hcalls
  rw [hcalls]
  constructor
  · intro heq
    by_cases hquote : isUnknown params ['"'] = true
    · have hlength := unknownPieces_length hquote items
      rw [heq, Nat.left_eq_add, List.length_eq_zero_iff, List.filter_eq_nil_iff] at hlength
      exact .inl fun item hitem => by simpa using hlength item hitem
    · exact .inr (isUnknown_quote.mp (by simpa using hquote))
  · rintro (hplain | hquote)
    · exact unknownPieces_eq (.inr hplain)
    · exact unknownPieces_eq (.inl (isUnknown_quote.mpr hquote))

/-- The item of the line `a="x"`. -/
def quotedItem : Item := .quoted ⟨['a'], by decide, List.forall_mem_singleton.mpr (by decide), by decide⟩
  ['x'] (by decide)

theorem quotedItem_renders : Renders [quotedItem] none ['a', '=', '"', 'x', '"'] :=
  have hend : Renders [] none ([] : List Char) := .done (by simp [Blank])
  Renders.item (show Blank [] by simp [Blank]) hend rfl

/-- **The closing quote is passed to `unknown_cb`**: of the line `a="x"`, without parameters. -/
theorem unknown_calls_closingQuote :
    Renders [quotedItem] none ['a', '=', '"', 'x', '"'] ∧
      ∃ result effects, cmdlineParse 8 ⟨some ['a', '=', '"', 'x', '"'], 5⟩ []
          (some fun _ _ memory => memory) () = .done (result, effects) ∧
        unknownCalls effects.events = [(['a'], ['x']), (['"'], [])] ∧
        unknownItems ([] : List (Param Unit)) [quotedItem] = [(['a'], ['x'])] :=
  ⟨quotedItem_renders, _, _, rfl, by decide, by decide⟩

/-- The line `a="x"`, without parameters. -/
theorem unknown_calls_iff_quotedItem :
    ∃ result effects, cmdlineParse 8 ⟨some ['a', '=', '"', 'x', '"'], 5⟩ ([] : List (Param Unit))
        (some fun _ _ memory => memory) () = .done (result, effects) ∧
      (unknownCalls effects.events = unknownItems ([] : List (Param Unit)) [quotedItem] ↔
        (∀ item ∈ [quotedItem], item.isQuoted = false) ∨
          ∃ p ∈ ([] : List (Param Unit)), p.name = ['"']) :=
  unknown_calls_iff quotedItem_renders (by decide) (holds_of_text _ []) [] _ ()

end Unknown

end UltraKernel.Cmdline
