import UltraKernel.Common.Conversions
import UltraKernel.Console.Registry
import UltraKernel.Io.Model
import UltraKernel.Lib.Run
import Mathlib.Data.List.Perm.Subperm

/-!
# The mode of the early console, as `earlycon.c` sets it

`unregister_console` is a parameter that takes a console out of the list; all else is the code's.

* `e9ConsoleInit_off`, `e9ConsoleInit_registers`: what may come of bringing the console up;
* `earlyconSet_settled`: the calls that keep the mode and the list of consoles in agreement;
* `earlycon_runs_agree`: so do all runs of such calls.
-/

namespace UltraKernel.Console

open Outcome

variable {ι : Type}

/-! ### The functions -/

def strEqualsCaseless (lhs rhs : List Char) : Bool := strEqualsWithCb lhs rhs charsCaselessCompare

/-- `EARLYCON_MODE_NONE` -/
def earlyconModeNone : List Char := ['n', 'o', 'n', 'e']

/-- `EARLYCON_MODE_E9` -/
def earlyconModeE9 : List Char := ['e', '9']

/-- A call of `earlycon_set`, with the answers of the machine to `in_hypervisor`,
`io_window_map_pio` and `ioread8`. -/
structure Request where
  mode : List Char
  inHypervisor : Bool
  iow : BitVec 64
  probe : BitVec 8
  deriving DecidableEq, Repr

/-- `g_earlycon`, the field `priv` of `e9_console`, and the consoles. -/
structure Earlycon (ι : Type) where
  mode : List Char
  priv : BitVec 64
  list : ConsoleList ι

/-- `unregister_console`, of `e9_console`. -/
abbrev Unregister (ι : Type) := ConsoleList ι → Outcome Empty (ErrorT × ConsoleList ι)

def e9ConsoleInit [DecidableEq ι] (fuel : ℕ) (e9Console : ι) (request : Request) (s : Earlycon ι) :
    Outcome Empty (ErrorT × Earlycon ι) :=
  if !request.inHypervisor then .done (eok, s)
  else if Io.errorPtr request.iow then .done ((Io.decodeErrorPtr request.iow).toNat, s)
  else if request.probe ≠ 0xE9 then .done (eok, { s with priv := 0 })
  else do
    let (ret, list) ← registerConsole fuel e9Console s.list
    if ret ≠ eok then return (ret, { s with priv := 0, list := list })
    else return (ret, { s with priv := request.iow, list := list })

def earlyconDestroy (unregister : Unregister ι) (s : Earlycon ι) :
    Outcome Empty (ErrorT × Earlycon ι) :=
  if strEqualsCaseless s.mode earlyconModeE9 then do
    let (ret, list) ← unregister s.list
    return (ret, { s with list := list })
  else .done (eok, s)

def earlyconSet [DecidableEq ι] (unregister : Unregister ι) (fuel : ℕ) (e9Console : ι)
    (request : Request) (s : Earlycon ι) : Outcome Empty (ErrorT × Earlycon ι) := do
  let (ret, s) ← earlyconDestroy unregister s
  if ret ≠ eok then return (ret, s)
  else if strEqualsCaseless request.mode earlyconModeNone then
    return (eok, { s with mode := earlyconModeNone })
  else if strEqualsCaseless request.mode earlyconModeE9 then do
    let (ret, s) ← e9ConsoleInit fuel e9Console request s
    if ret ≠ eok then return (ret, s)
    else return (eok, { s with mode := earlyconModeE9 })
  else return (einval, s)

/-! ### Agreement -/

/-- A console is on the list. -/
def OnList (list : ConsoleList ι) (con : ι) : Prop :=
  ∃ l, Linked list.next list.consoles l ∧ con ∈ l

/-- A console is taken out of the list and nothing else; without consoles it has no `next`. -/
def Removes (fuel : ℕ) (con : ι) (unregister : Unregister ι) : Prop :=
  ∀ list l, Linked list.next list.consoles l → l.length < fuel → con ∈ l →
    ∃ list' l', unregister list = .done (eok, list') ∧ Linked list'.next list'.consoles l' ∧
      (∀ c, c ∈ l' ↔ c ∈ l ∧ c ≠ con) ∧ (l' = [] → list'.next con = none)

/-- The mode is "e9" if and only if the console is on the list. -/
def Earlycon.Agrees (e9Console : ι) (s : Earlycon ι) : Prop :=
  s.mode = earlyconModeE9 ↔ OnList s.list e9Console

/-- A call that leaves an agreement, and that changes nothing if it returns an error. -/
structure Keeps (e9Console : ι) (s : Earlycon ι) (ret : ErrorT) (t : Earlycon ι) : Prop where
  agrees : t.Agrees e9Console
  unchanged : ret ≠ eok → t.mode = s.mode ∧ t.list = s.list

namespace Request

/-- The port answers as it should. -/
def BringsUp (request : Request) : Prop :=
  request.inHypervisor = true ∧ Io.errorPtr request.iow = false ∧ request.probe = 0xE9

/-- The port is not mapped, which is an error. -/
def Fails (request : Request) : Prop :=
  request.inHypervisor = true ∧ Io.errorPtr request.iow = true ∧ request.iow ≠ 0

/-- **The condition on a call**: a console that is asked for is brought up, or fails while there is
none; and one that is there gives way to a valid mode only. -/
structure Fits (s : Earlycon ι) (request : Request) : Prop where
  e9 : strEqualsCaseless request.mode earlyconModeE9 = true →
    request.BringsUp ∨ s.mode ≠ earlyconModeE9 ∧ request.Fails
  valid : s.mode = earlyconModeE9 → strEqualsCaseless request.mode earlyconModeNone = true ∨
    strEqualsCaseless request.mode earlyconModeE9 = true

end Request

/-- What holds in between: the other consoles stay on the list. -/
structure Ready (e9Console : ι) (others : List ι) (s : Earlycon ι) (l : List ι) : Prop where
  linked : Linked s.list.next s.list.consoles l
  mem_iff : ∀ c, c ≠ e9Console → (c ∈ l ↔ c ∈ others)
  fresh : l = [] → s.list.next e9Console = none
  mode : (s.mode = earlyconModeNone ∧ e9Console ∉ l) ∨ (s.mode = earlyconModeE9 ∧ e9Console ∈ l)

section Calls

variable {fuel : ℕ} {e9Console : ι} {others l : List ι} {s : Earlycon ι} {request : Request}
  {unregister : Unregister ι}

theorem onList_iff (h : Linked s.list.next s.list.consoles l) :
    OnList s.list e9Console ↔ e9Console ∈ l := by
  constructor
  · intro ⟨l', hl', hmem⟩
    rwa [h.unique hl']
  · intro hmem
    exact ⟨l, h, hmem⟩

theorem Ready.agrees (h : Ready e9Console others s l) : s.Agrees e9Console := by
  rw [Earlycon.Agrees, onList_iff h.linked]
  rcases h.mode with ⟨hmode, hmem⟩ | ⟨hmode, hmem⟩
  · rw [hmode]
    exact iff_of_false (by decide) hmem
  · exact iff_of_true hmode hmem

theorem length_le_of_mem_iff (h : Linked s.list.next s.list.consoles l)
    (hmem : ∀ c, c ≠ e9Console → (c ∈ l ↔ c ∈ others)) : l.length ≤ others.length + 1 := by
  have hsubset : l ⊆ e9Console :: others := by
    intro c hc
    by_cases heq : c = e9Console
    · exact List.mem_cons.mpr (Or.inl heq)
    · exact List.mem_cons_of_mem _ ((hmem c heq).mp hc)
  exact (h.nodup.subperm hsubset).length_le

/-- What is left when the old mode is torn down. -/
structure Torn (e9Console : ι) (others : List ι) (s t : Earlycon ι) (l : List ι) : Prop where
  linked : Linked t.list.next t.list.consoles l
  mem_iff : ∀ c, c ≠ e9Console → (c ∈ l ↔ c ∈ others)
  fresh : l = [] → t.list.next e9Console = none
  absent : e9Console ∉ l
  mode : t.mode = s.mode
  same : s.mode ≠ earlyconModeE9 → t = s

/-- **The old mode is torn down.** -/
theorem earlyconDestroy_torn (h : Ready e9Console others s l) (hfuel : others.length + 1 < fuel)
    (hremoves : Removes fuel e9Console unregister) :
    ∃ t l', earlyconDestroy unregister s = .done (eok, t) ∧ Torn e9Console others s t l' := by
  rcases h.mode with ⟨hmode, hmem⟩ | ⟨hmode, hmem⟩
  · refine ⟨s, l, ?_, h.linked, h.mem_iff, h.fresh, hmem, rfl, fun _ => rfl⟩
    rw [earlyconDestroy, hmode]
    rfl
  · have hlength := length_le_of_mem_iff h.linked h.mem_iff
    obtain ⟨list', l', hrun, hlinked, hmem', hfresh⟩ :=
      hremoves s.list l h.linked (by omega) hmem
    refine ⟨{ s with list := list' }, l', ?_, hlinked, ?_, hfresh, ?_, rfl, ?_⟩
    · rw [earlyconDestroy, hmode, hrun]
      rfl
    · intro c hc
      rw [hmem', ← h.mem_iff c hc, and_iff_left hc]
    · intro hin
      exact ((hmem' e9Console).mp hin).2 rfl
    · intro hne
      exact absurd hmode hne

theorem Torn.not_agrees {t u : Earlycon ι} {l' : List ι} (h : Torn e9Console others s t l')
    (hmode : u.mode = earlyconModeE9) (hlist : u.list = t.list) : ¬ u.Agrees e9Console := by
  intro hagrees
  have hon := hagrees.mp hmode
  rw [hlist, onList_iff h.linked] at hon
  exact h.absent hon

theorem Torn.ready {t u : Earlycon ι} {l' : List ι} (h : Torn e9Console others s t l')
    (hmode : u.mode = earlyconModeNone) (hlist : u.list = t.list) : Ready e9Console others u l' := by
  constructor
  · rw [hlist]
    exact h.linked
  · exact h.mem_iff
  · rw [hlist]
    exact h.fresh
  · exact Or.inl ⟨hmode, h.absent⟩

/-- A state after an error, where nothing was torn down before. -/
theorem Torn.ready_of_ne {torn t : Earlycon ι} {l' : List ι}
    (htorn : Torn e9Console others s torn l')
    (hmode : s.mode ≠ earlyconModeE9 → s.mode = earlyconModeNone) (htmode : t.mode = torn.mode)
    (htlist : t.list = torn.list) (hne : s.mode ≠ earlyconModeE9) : Ready e9Console others t l' :=
  htorn.ready (htmode.trans (htorn.mode.trans (hmode hne))) htlist

/-- **An error keeps** what was there where nothing was torn down before. -/
theorem Torn.keeps_iff {torn t : Earlycon ι} {l' : List ι} {ret : ErrorT}
    (htorn : Torn e9Console others s torn l')
    (hmode : s.mode ≠ earlyconModeE9 → s.mode = earlyconModeNone) (htmode : t.mode = torn.mode)
    (htlist : t.list = torn.list) : Keeps e9Console s ret t ↔ s.mode ≠ earlyconModeE9 := by
  constructor
  · intro hkeeps heq
    exact htorn.not_agrees (htmode.trans (htorn.mode.trans heq)) htlist hkeeps.agrees
  · intro hne
    refine ⟨(htorn.ready_of_ne hmode htmode htlist hne).agrees, fun _ => ?_⟩
    rw [htmode, htlist, htorn.same hne]
    exact ⟨rfl, rfl⟩

variable [DecidableEq ι]

/-- **The console is not brought up**, by one answer or another. -/
theorem e9ConsoleInit_off (h : ¬ request.BringsUp) (fuel : ℕ) (e9Console : ι) (s : Earlycon ι) :
    ∃ ret t, e9ConsoleInit fuel e9Console request s = .done (ret, t) ∧ t.mode = s.mode ∧
      t.list = s.list ∧ (ret ≠ eok ↔ request.Fails) := by
  rw [e9ConsoleInit]
  cases hhypervisor : request.inHypervisor with
  | false =>
    refine ⟨eok, s, rfl, rfl, rfl, ?_⟩
    exact iff_of_false (fun hne => hne rfl) fun hfails => by
      rw [Request.Fails, hhypervisor] at hfails
      exact absurd hfails.1 (by decide)
  | true =>
    cases herror : Io.errorPtr request.iow with
    | true =>
      refine ⟨(Io.decodeErrorPtr request.iow).toNat, s, rfl, rfl, rfl, ?_⟩
      have hle : request.iow ≤ Io.maxErrno := of_decide_eq_true herror
      have hzero : (request.iow.setWidth 32).toNat = 0 ↔ request.iow = 0 := by
        rw [Io.maxErrno] at hle
        constructor
        · intro hnat
          bv_omega
        · intro hnull
          rw [hnull]
          rfl
      rw [Request.Fails, hhypervisor, herror, Io.decodeErrorPtr, eok, Ne, hzero]
      exact ⟨fun hne => ⟨rfl, rfl, hne⟩, fun hfails => hfails.2.2⟩
    | false =>
      have hprobe : request.probe ≠ 0xE9 := fun hprobe => h ⟨hhypervisor, herror, hprobe⟩
      refine ⟨eok, { s with priv := 0 }, ?_, rfl, rfl, ?_⟩
      · simp only [Bool.not_true, Bool.false_eq_true, if_false, if_pos hprobe]
      · exact iff_of_false (fun hne => hne rfl) fun hfails => by
          rw [Request.Fails, herror] at hfails
          exact absurd hfails.2.1 (by decide)

/-- **The console is brought up**: it is the first of the list. -/
theorem e9ConsoleInit_registers (hup : request.BringsUp)
    (hlinked : Linked s.list.next s.list.consoles l)
    (hfresh : l = [] → s.list.next e9Console = none) (hmem : e9Console ∉ l)
    (hfuel : l.length < fuel) :
    ∃ t, e9ConsoleInit fuel e9Console request s = .done (eok, t) ∧ t.mode = s.mode ∧
      Linked t.list.next t.list.consoles (e9Console :: l) := by
  obtain ⟨hhypervisor, herror, hprobe⟩ := hup
  obtain ⟨list', hregister, hlinked'⟩ := registerConsole_linked hlinked hfuel hmem hfresh
  refine ⟨{ s with priv := request.iow, list := list' }, ?_, rfl, hlinked'⟩
  rw [e9ConsoleInit, hhypervisor, herror, hprobe, hregister]
  rfl

section Destroyed

variable {torn t : Earlycon ι} {ret : ErrorT}

theorem earlyconSet_none (hdestroy : earlyconDestroy unregister s = .done (eok, torn))
    (hnone : strEqualsCaseless request.mode earlyconModeNone = true) :
    earlyconSet unregister fuel e9Console request s =
      .done (eok, { torn with mode := earlyconModeNone }) := by
  rw [earlyconSet, hdestroy, done_bind]
  dsimp only
  rw [if_neg (fun hne : eok ≠ eok => hne rfl), if_pos hnone]
  rfl

theorem earlyconSet_e9 (hdestroy : earlyconDestroy unregister s = .done (eok, torn))
    (hnone : strEqualsCaseless request.mode earlyconModeNone = false)
    (he9 : strEqualsCaseless request.mode earlyconModeE9 = true)
    (hinit : e9ConsoleInit fuel e9Console request torn = .done (ret, t)) :
    earlyconSet unregister fuel e9Console request s =
      if ret ≠ eok then .done (ret, t) else .done (eok, { t with mode := earlyconModeE9 }) := by
  rw [earlyconSet, hdestroy, done_bind]
  dsimp only
  rw [if_neg (fun hne : eok ≠ eok => hne rfl), if_neg (by rw [hnone]; decide), if_pos he9, hinit,
    done_bind]
  rfl

theorem earlyconSet_invalid (hdestroy : earlyconDestroy unregister s = .done (eok, torn))
    (hnone : strEqualsCaseless request.mode earlyconModeNone = false)
    (he9 : strEqualsCaseless request.mode earlyconModeE9 = false) :
    earlyconSet unregister fuel e9Console request s = .done (einval, torn) := by
  rw [earlyconSet, hdestroy, done_bind]
  dsimp only
  rw [if_neg (fun hne : eok ≠ eok => hne rfl), if_neg (by rw [hnone]; decide),
    if_neg (by rw [he9]; decide)]
  rfl

end Destroyed

/-- A mode is not both. -/
theorem not_e9_of_none {mode : List Char} (h : strEqualsCaseless mode earlyconModeNone = true) :
    strEqualsCaseless mode earlyconModeE9 = false := by
  have hlength : mode.length = 4 := of_decide_eq_true (Bool.and_eq_true_iff.mp h).1
  rw [strEqualsCaseless, strEqualsWithCb, hlength]
  rfl

/-- **What a call comes to**: it keeps the agreement, and changes nothing if it fails, if and only if
it meets the condition; and then it is ready for the next one. -/
def Settled (unregister : Unregister ι) (fuel : ℕ) (e9Console : ι) (others : List ι)
    (s : Earlycon ι) (request : Request) : Prop :=
  ∃ ret t, earlyconSet unregister fuel e9Console request s = .done (ret, t) ∧
    (Keeps e9Console s ret t ↔ request.Fits s) ∧
    (request.Fits s → ∃ l, Ready e9Console others t l)

section Settled

variable {torn : Earlycon ι} {l' : List ι}

/-- The mode "none". -/
theorem settled_none (hdestroy : earlyconDestroy unregister s = .done (eok, torn))
    (htorn : Torn e9Console others s torn l')
    (hnone : strEqualsCaseless request.mode earlyconModeNone = true) :
    Settled unregister fuel e9Console others s request := by
  have hready : Ready e9Console others { torn with mode := earlyconModeNone } l' :=
    htorn.ready rfl rfl
  have hfits : request.Fits s := by
    refine ⟨fun he9 => ?_, fun _ => Or.inl hnone⟩
    rw [not_e9_of_none hnone] at he9
    exact absurd he9 (by decide)
  exact ⟨eok, _, earlyconSet_none hdestroy hnone,
    iff_of_true ⟨hready.agrees, fun hne => absurd rfl hne⟩ hfits, fun _ => ⟨l', hready⟩⟩

/-- The mode "e9", when the console is brought up, again or for the first time. -/
theorem settled_up (hdestroy : earlyconDestroy unregister s = .done (eok, torn))
    (htorn : Torn e9Console others s torn l') (hfuel : others.length + 1 < fuel)
    (hnone : strEqualsCaseless request.mode earlyconModeNone = false)
    (he9 : strEqualsCaseless request.mode earlyconModeE9 = true) (hup : request.BringsUp) :
    Settled unregister fuel e9Console others s request := by
  have hlength := length_le_of_mem_iff htorn.linked htorn.mem_iff
  obtain ⟨t, hinit, -, hlinked⟩ := e9ConsoleInit_registers hup htorn.linked htorn.fresh
    htorn.absent (show l'.length < fuel by omega)
  have hready : Ready e9Console others { t with mode := earlyconModeE9 } (e9Console :: l') := by
    refine ⟨hlinked, ?_, fun hnil => absurd hnil (List.cons_ne_nil _ _),
      Or.inr ⟨rfl, List.mem_cons_self⟩⟩
    intro c hc
    rw [List.mem_cons, or_iff_right hc]
    exact htorn.mem_iff c hc
  exact ⟨eok, { t with mode := earlyconModeE9 }, earlyconSet_e9 hdestroy hnone he9 hinit,
    iff_of_true ⟨hready.agrees, fun hne => absurd rfl hne⟩
      ⟨fun _ => Or.inl hup, fun _ => Or.inr he9⟩, fun _ => ⟨_, hready⟩⟩

/-- The mode "e9", when the console is not brought up. -/
theorem settled_off (hdestroy : earlyconDestroy unregister s = .done (eok, torn))
    (htorn : Torn e9Console others s torn l')
    (hmode : s.mode ≠ earlyconModeE9 → s.mode = earlyconModeNone)
    (hnone : strEqualsCaseless request.mode earlyconModeNone = false)
    (he9 : strEqualsCaseless request.mode earlyconModeE9 = true) (hup : ¬ request.BringsUp) :
    Settled unregister fuel e9Console others s request := by
  obtain ⟨ret, t, hinit, htmode, htlist, hfails⟩ := e9ConsoleInit_off hup fuel e9Console torn
  have hset := earlyconSet_e9 hdestroy hnone he9 hinit
  by_cases hret : ret ≠ eok
  · -- an error: nothing may have been torn down
    rw [if_pos hret] at hset
    have hfits_iff : request.Fits s ↔ s.mode ≠ earlyconModeE9 := by
      constructor
      · intro hfits
        exact ((hfits.e9 he9).resolve_left hup).1
      · intro hne
        exact ⟨fun _ => Or.inr ⟨hne, hfails.mp hret⟩, fun heq => absurd heq hne⟩
    have hkeeps : Keeps e9Console s ret t ↔ s.mode ≠ earlyconModeE9 :=
      htorn.keeps_iff hmode htmode htlist
    have hready := htorn.ready_of_ne hmode htmode htlist
    exact ⟨ret, t, hset, hkeeps.trans hfits_iff.symm, fun hfits => ⟨l', hready (hfits_iff.mp hfits)⟩⟩
  · -- no error: the mode is set without a console
    rw [if_neg hret] at hset
    have hnot : ¬ request.Fits s := fun hfits =>
      hret (hfails.mpr ((hfits.e9 he9).resolve_left hup).2)
    have hagrees : ¬ Earlycon.Agrees e9Console { t with mode := earlyconModeE9 } :=
      htorn.not_agrees rfl htlist
    exact ⟨eok, _, hset, iff_of_false (fun hkeeps => hagrees hkeeps.agrees) hnot,
      fun hfits => absurd hfits hnot⟩

/-- What is not a mode: an error, and nothing may have been torn down. -/
theorem settled_invalid (hdestroy : earlyconDestroy unregister s = .done (eok, torn))
    (htorn : Torn e9Console others s torn l')
    (hmode : s.mode ≠ earlyconModeE9 → s.mode = earlyconModeNone)
    (hnone : strEqualsCaseless request.mode earlyconModeNone = false)
    (he9 : strEqualsCaseless request.mode earlyconModeE9 = false) :
    Settled unregister fuel e9Console others s request := by
  have hfits_iff : request.Fits s ↔ s.mode ≠ earlyconModeE9 := by
    constructor
    · intro hfits heq
      have hvalid := hfits.valid heq
      rw [hnone, he9] at hvalid
      exact absurd hvalid (by decide)
    · intro hne
      refine ⟨fun htrue => ?_, fun heq => absurd heq hne⟩
      rw [he9] at htrue
      exact absurd htrue (by decide)
  have hkeeps : Keeps e9Console s einval torn ↔ s.mode ≠ earlyconModeE9 :=
    htorn.keeps_iff hmode rfl rfl
  have hready : s.mode ≠ earlyconModeE9 → Ready e9Console others torn l' :=
    htorn.ready_of_ne hmode rfl rfl
  exact ⟨einval, torn, earlyconSet_invalid hdestroy hnone he9, hkeeps.trans hfits_iff.symm,
    fun hfits => ⟨l', hready (hfits_iff.mp hfits)⟩⟩

end Settled

/-- **A call** is settled in one of the four ways. -/
theorem earlyconSet_settled (h : Ready e9Console others s l) (hfuel : others.length + 1 < fuel)
    (hremoves : Removes fuel e9Console unregister) (request : Request) :
    Settled unregister fuel e9Console others s request := by
  obtain ⟨torn, l', hdestroy, htorn⟩ := earlyconDestroy_torn h hfuel hremoves
  have hmode : s.mode ≠ earlyconModeE9 → s.mode = earlyconModeNone := fun hne =>
    (h.mode.resolve_right fun he9 => hne he9.1).1
  cases hnone : strEqualsCaseless request.mode earlyconModeNone with
  | true => exact settled_none hdestroy htorn hnone
  | false =>
    cases he9 : strEqualsCaseless request.mode earlyconModeE9 with
    | true =>
      by_cases hup : request.BringsUp
      · exact settled_up hdestroy htorn hfuel hnone he9 hup
      · exact settled_off hdestroy htorn hmode hnone he9 hup
    | false => exact settled_invalid hdestroy htorn hmode hnone he9

/-! ### Runs -/

/-- A call that meets the condition, from one state to the next. -/
def FittingStep (unregister : Unregister ι) (fuel : ℕ) (e9Console : ι) (s : Earlycon ι)
    (request : Request) (t : Earlycon ι) : Prop :=
  request.Fits s ∧ ∃ ret, earlyconSet unregister fuel e9Console request s = .done (ret, t)

/-- **A call that meets the condition** is ready for the next one. -/
theorem fittingStep_ready (hfuel : others.length + 1 < fuel)
    (hremoves : Removes fuel e9Console unregister) {t : Earlycon ι}
    (hs : ∃ l, Ready e9Console others s l)
    (hstep : FittingStep unregister fuel e9Console s request t) :
    ∃ l, Ready e9Console others t l := by
  obtain ⟨l, h⟩ := hs
  obtain ⟨hfits, ret, hset⟩ := hstep
  obtain ⟨ret', t', hset', -, hready⟩ := earlyconSet_settled h hfuel hremoves request
  have hpair := Outcome.done.inj (hset'.symm.trans hset)
  rw [← (Prod.mk.inj hpair).2]
  exact hready hfits

/-- **In every run of calls that meet the condition**, the mode is "e9" in every state reached if and
only if the console is on the list; and a further call keeps it so, and changes nothing if it
returns an error, if and only if it meets the condition, too. -/
theorem earlycon_runs_agree (hremoves : Removes fuel e9Console unregister)
    {list : ConsoleList ι} (hlinked : Linked list.next list.consoles others)
    (habsent : e9Console ∉ others) (hfresh : list.next e9Console = none)
    (hfuel : others.length + 1 < fuel) {requests : List Request}
    (hrun : Run (FittingStep unregister fuel e9Console) ⟨earlyconModeNone, 0, list⟩ requests s) :
    s.Agrees e9Console ∧ ∀ request, ∃ ret t,
      earlyconSet unregister fuel e9Console request s = .done (ret, t) ∧
        (Keeps e9Console s ret t ↔ request.Fits s) := by
  have hstart : Ready e9Console others ⟨earlyconModeNone, 0, list⟩ others :=
    ⟨hlinked, fun _ _ => Iff.rfl, fun _ => hfresh, Or.inl ⟨rfl, habsent⟩⟩
  obtain ⟨l, h⟩ := hrun.invariant (P := fun s => ∃ l, Ready e9Console others s l)
    (fun _ _ _ hs hstep => fittingStep_ready hfuel hremoves hs hstep) ⟨others, hstart⟩
  refine ⟨h.agrees, fun request => ?_⟩
  obtain ⟨ret, t, hset, hkeeps, -⟩ := earlyconSet_settled h hfuel hremoves request
  exact ⟨ret, t, hset, hkeeps⟩

/-! ### A console that is taken out -/

/-- `unregister_console` where it takes out the head, too. -/
def removeConsole (fuel : ℕ) (con : ι) : Unregister ι := fun list =>
  if list.consoles = some con then .done (eok, { list with consoles := list.next con })
  else unregisterConsole fuel con list

theorem removeConsole_removes (fuel : ℕ) (con : ι) : Removes fuel con (removeConsole fuel con) := by
  intro list l hlinked hfuel hmem
  rw [removeConsole]
  by_cases hhead : list.consoles = some con
  · rw [if_pos hhead]
    cases l with
    | nil => exact absurd hmem List.not_mem_nil
    | cons a l =>
      obtain rfl : a = con := Option.some.inj (hlinked.1.symm.trans hhead)
      have hnotMem := (List.nodup_cons.mp hlinked.nodup).1
      refine ⟨_, l, rfl, hlinked.2, ?_, ?_⟩
      · intro c
        constructor
        · intro hc
          exact ⟨List.mem_cons_of_mem _ hc, fun heq => hnotMem (heq ▸ hc)⟩
        · intro hc
          exact (List.mem_cons.mp hc.1).resolve_left hc.2
      · intro hnil
        have hend := hlinked.2
        rw [hnil] at hend
        exact hend
  · rw [if_neg hhead]
    obtain ⟨list', l', hrun, hlinked', hne, -, hmem'⟩ :=
      unregisterConsole_linked hlinked hfuel hmem hhead
    exact ⟨list', l', hrun, hlinked', hmem', fun hnil => absurd hnil hne⟩

/-- No consoles at all. -/
def noConsoles : ConsoleList ℕ := ⟨none, fun _ => none⟩

/-- The console is brought up, and the mode is set to "none" again. -/
theorem earlycon_runs_agree_upDown :
    Earlycon.Agrees 0 ⟨earlyconModeNone, 0x100E9, noConsoles⟩ := by
  have hfirst : Request.Fits ⟨earlyconModeNone, 0, noConsoles⟩ ⟨earlyconModeE9, true, 0x100E9, 0xE9⟩ :=
    ⟨fun _ => Or.inl ⟨rfl, rfl, rfl⟩, fun h => absurd h (by decide)⟩
  have hsecond : Request.Fits ⟨earlyconModeE9, 0x100E9, ⟨some 0, fun _ => (none : Option ℕ)⟩⟩
      ⟨['N', 'o', 'n', 'e'], false, 0, 0⟩ :=
    ⟨fun h => absurd h (by decide), fun _ => Or.inl rfl⟩
  have hlinked : Linked noConsoles.next noConsoles.consoles ([] : List ℕ) := rfl
  exact (earlycon_runs_agree (removeConsole_removes 3 0) hlinked List.not_mem_nil rfl (by decide)
    (.cons ⟨hfirst, eok, rfl⟩ (.cons ⟨hsecond, eok, rfl⟩ (.nil _)))).1

/-- The mode "e9" outside of a hypervisor is set, without a console, and it cannot be changed
again. -/
theorem earlyconSet_without_hypervisor : Removes 3 0 (removeConsole 3 0) ∧
    ∃ s : Earlycon ℕ, earlyconSet (removeConsole 3 0) 3 0 ⟨earlyconModeE9, false, 0, 0⟩
        ⟨earlyconModeNone, 0, noConsoles⟩ = .done (eok, s) ∧ ¬ s.Agrees 0 ∧
      ∀ request, earlyconSet (removeConsole 3 0) 3 0 request s = .done (einval, s) := by
  refine ⟨removeConsole_removes 3 0, ⟨earlyconModeE9, 0, noConsoles⟩, rfl, ?_, fun request => rfl⟩
  intro hagrees
  obtain ⟨l, hlinked, hmem⟩ := hagrees.mp rfl
  cases l with
  | nil => exact absurd hmem List.not_mem_nil
  | cons a l => exact nomatch hlinked.1

end Calls

end UltraKernel.Console
