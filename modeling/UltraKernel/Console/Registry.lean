import UltraKernel.Console.Model
import UltraKernel.Lib.LinkedList
import Mathlib.Tactic.Tauto

/-!
# What the list of consoles registers

The list is a linked list in every state that is reached.  It holds the registered consoles until
`unregister_console` is called on its head, which is reported as a success but is not taken out.

* `registerConsole_absent`, `unregisterConsole_behind`: the two functions on a linked list;
* `exact_iff`: the functions behave as they should when the list holds the registered consoles;
* `calls_exact_iff`: the sequences of calls after which they do.
-/

namespace UltraKernel.Console

open Outcome

variable {ι : Type} [DecidableEq ι]

/-! ### The loops -/

section Loops

variable {list : ConsoleList ι} {con a : ι} {start prevCon : Option ι} {l m : List ι} {fuel : ℕ}

theorem registeredLoop_linked (h : Linked list.next start l) (hfuel : l.length < fuel) :
    registeredLoop list con fuel start = .done (decide (con ∈ l)) := by
  induction l generalizing start fuel with
  | nil =>
    obtain ⟨fuel, rfl⟩ : ∃ n, fuel = n + 1 := ⟨fuel - 1, by omega⟩
    obtain rfl : start = none := h
    rw [registeredLoop]
    simp
  | cons b l ih =>
    obtain ⟨fuel, rfl⟩ : ∃ n, fuel = n + 1 := ⟨fuel - 1, by omega⟩
    obtain ⟨rfl, hl⟩ := h
    rw [registeredLoop]
    by_cases hb : b = con
    · simp [hb]
    · rw [if_neg hb, ih hl (by simpa using hfuel)]
      simp [Ne.symm hb]

omit [DecidableEq ι] in
theorem writeLoop_linked (h : Linked list.next start l) (hfuel : l.length < fuel)
    (str : List Char) : writeLoop list str fuel start = .done (l.map fun con => (con, str)) := by
  induction l generalizing start fuel with
  | nil =>
    obtain ⟨fuel, rfl⟩ : ∃ n, fuel = n + 1 := ⟨fuel - 1, by omega⟩
    obtain rfl : start = none := h
    rfl
  | cons b l ih =>
    obtain ⟨fuel, rfl⟩ : ∃ n, fuel = n + 1 := ⟨fuel - 1, by omega⟩
    obtain ⟨rfl, hl⟩ := h
    rw [writeLoop, ih hl (by simpa using hfuel), done_bind]
    rfl

theorem unregisterLoop_other {b : ι} (hb : b ≠ con) :
    unregisterLoop list con (fuel + 1) (some b) prevCon =
      unregisterLoop list con fuel (list.next b) (some b) := by
  cases prevCon with
  | none => exact if_pos hb
  | some prevCon => exact if_pos hb

theorem unregisterLoop_self (prevCon : Option ι) :
    unregisterLoop list con (fuel + 1) (some con) prevCon =
      .done (eok, match prevCon with
        | some prevCon => { list with next := Function.update list.next prevCon (list.next con) }
        | none => list) := by
  cases prevCon with
  | none => exact if_neg (not_not.mpr rfl)
  | some prevCon => exact if_neg (not_not.mpr rfl)

theorem unregisterLoop_absent (h : Linked list.next start l) (hcon : con ∉ l)
    (hfuel : l.length < fuel) :
    unregisterLoop list con fuel start prevCon = .done (einval, list) := by
  induction l generalizing start fuel prevCon with
  | nil =>
    obtain ⟨fuel, rfl⟩ : ∃ n, fuel = n + 1 := ⟨fuel - 1, by omega⟩
    obtain rfl : start = none := h
    rfl
  | cons b l ih =>
    obtain ⟨fuel, rfl⟩ : ∃ n, fuel = n + 1 := ⟨fuel - 1, by omega⟩
    obtain ⟨rfl, hl⟩ := h
    rw [List.mem_cons, not_or] at hcon
    rw [unregisterLoop_other (Ne.symm hcon.1)]
    exact ih hl hcon.2 (by simpa using hfuel)

/-- **A console behind another one** is taken out. -/
theorem unregisterLoop_behind (h : Linked list.next start (l ++ a :: con :: m))
    (hfuel : (l ++ a :: con :: m).length < fuel) :
    unregisterLoop list con fuel start prevCon =
      .done (eok, { list with next := Function.update list.next a (list.next con) }) := by
  have hnodup := h.nodup
  induction l generalizing start fuel prevCon with
  | nil =>
    obtain ⟨fuel, rfl⟩ : ∃ n, fuel = n + 2 := ⟨fuel - 2, by simp at hfuel; omega⟩
    obtain ⟨rfl, hcon, _⟩ := h
    have hne : a ≠ con := fun hac => (List.nodup_cons.mp hnodup).1 (by simp [hac])
    rw [unregisterLoop_other hne, hcon, unregisterLoop_self]
  | cons b l ih =>
    obtain ⟨fuel, rfl⟩ : ∃ n, fuel = n + 1 := ⟨fuel - 1, by omega⟩
    obtain ⟨rfl, hl⟩ := h
    obtain ⟨hb, hrest⟩ := List.nodup_cons.mp hnodup
    have hne : b ≠ con := by
      rintro rfl
      exact hb (by simp)
    rw [unregisterLoop_other hne]
    exact ih hl (by simpa using hfuel) hrest

end Loops

/-! ### The functions on a linked list -/

/-- The list is linked; while it is empty, no console has a `next`. -/
structure Holds (list : ConsoleList ι) (l : List ι) : Prop where
  linked : Linked list.next list.consoles l
  fresh : l = [] → ∀ con, list.next con = none

section Functions

variable {list : ConsoleList ι} {l : List ι} {fuel : ℕ}

theorem registerConsole_present (h : Holds list l) (hfuel : l.length < fuel) {con : ι}
    (hcon : con ∈ l) : registerConsole fuel con list = .done (ebusy, list) := by
  have hne : list.consoles ≠ none := by
    rw [← h.linked.head?_eq]
    simpa using List.ne_nil_of_mem hcon
  rw [registerConsole, if_neg hne, consoleRegistered, registeredLoop_linked h.linked hfuel, done_bind,
    if_pos (by simpa using hcon)]
  rfl

/-- **A console that is not there** becomes the head. -/
theorem registerConsole_linked (h : Linked list.next list.consoles l) (hfuel : l.length < fuel)
    {con : ι} (hcon : con ∉ l) (hfresh : l = [] → list.next con = none) :
    ∃ list', registerConsole fuel con list = .done (eok, list') ∧
      Linked list'.next list'.consoles (con :: l) := by
  cases l with
  | nil =>
    have hnone : list.consoles = none := h
    rw [registerConsole, if_pos hnone]
    exact ⟨_, rfl, rfl, hfresh rfl⟩
  | cons b l =>
    have hsome : list.consoles = some b := h.1
    rw [registerConsole, if_neg (by rw [hsome]; simp), consoleRegistered,
      registeredLoop_linked h hfuel, done_bind, if_neg (by simpa using hcon)]
    exact ⟨_, rfl, h.push hcon⟩

theorem registerConsole_absent (h : Holds list l) (hfuel : l.length < fuel) {con : ι}
    (hcon : con ∉ l) :
    ∃ list', registerConsole fuel con list = .done (eok, list') ∧ Holds list' (con :: l) := by
  obtain ⟨list', hrun, hlinked⟩ :=
    registerConsole_linked h.linked hfuel hcon fun hnil => h.fresh hnil con
  exact ⟨list', hrun, hlinked, fun hl => absurd hl (by simp)⟩

theorem unregisterConsole_absent (h : Holds list l) (hfuel : l.length < fuel) {con : ι}
    (hcon : con ∉ l) : unregisterConsole fuel con list = .done (einval, list) :=
  unregisterLoop_absent h.linked hcon hfuel

/-- **The head is not taken out.** -/
theorem unregisterConsole_head {con : ι} (hcon : list.consoles = some con) :
    unregisterConsole (fuel + 1) con list = .done (eok, list) := by
  rw [unregisterConsole, hcon, unregisterLoop_self]

/-- **A console behind the head** is taken out. -/
theorem unregisterConsole_linked (h : Linked list.next list.consoles l) (hfuel : l.length < fuel)
    {con : ι} (hcon : con ∈ l) (hhead : list.consoles ≠ some con) :
    ∃ list' l', unregisterConsole fuel con list = .done (eok, list') ∧
      Linked list'.next list'.consoles l' ∧ l' ≠ [] ∧ l'.length ≤ l.length ∧
      ∀ c, c ∈ l' ↔ c ∈ l ∧ c ≠ con := by
  obtain ⟨before, after, rfl⟩ := List.append_of_mem hcon
  obtain rfl | ⟨before, a, rfl⟩ := List.eq_nil_or_concat before
  · exact absurd h.1 hhead
  · rw [List.concat_eq_append, List.append_assoc, List.singleton_append] at *
    have hnodup := h.nodup
    refine ⟨_, before ++ a :: after, unregisterLoop_behind h hfuel, h.unlink, ?_, ?_, ?_⟩
    · simp
    · simp
    · intro c
      have hdistinct : con ∉ before ++ a :: after := by
        rw [List.append_cons, List.nodup_middle, List.nodup_cons] at hnodup
        simpa using hnodup.1
      constructor
      · intro hc
        refine ⟨?_, fun heq => hdistinct (heq ▸ hc)⟩
        simp only [List.mem_append, List.mem_cons] at hc ⊢
        tauto
      · rintro ⟨hc, hne⟩
        simp only [List.mem_append, List.mem_cons] at hc ⊢
        tauto

theorem unregisterConsole_behind (h : Holds list l) (hfuel : l.length < fuel) {con : ι}
    (hcon : con ∈ l) (hhead : list.consoles ≠ some con) :
    ∃ list' l', unregisterConsole fuel con list = .done (eok, list') ∧ Holds list' l' ∧
      l'.length ≤ l.length ∧ ∀ c, c ∈ l' ↔ c ∈ l ∧ c ≠ con := by
  obtain ⟨list', l', hrun, hlinked, hne, hlength, hmem⟩ :=
    unregisterConsole_linked h.linked hfuel hcon hhead
  exact ⟨list', l', hrun, ⟨hlinked, fun hnil => absurd hnil hne⟩, hlength, hmem⟩

end Functions

/-! ### Exact behaviour -/

/-- Every registered console is written to once and no other, and the two functions refuse a
console exactly when it is, or is not, registered, and then change nothing. -/
structure Exact (fuel : ℕ) (world : World ι) : Prop where
  write : ∀ str, ∃ calls, consoleWrite fuel str world.list = .done calls ∧
    (calls.map Prod.fst).Nodup ∧
    (∀ con, con ∈ calls.map Prod.fst ↔ world.registered con = true) ∧
    ∀ call ∈ calls, call.2 = str
  register : ∀ con, ∃ ret list', registerConsole fuel con world.list = .done (ret, list') ∧
    (ret = ebusy ↔ world.registered con = true) ∧ (ret ≠ eok → list' = world.list)
  unregister : ∀ con, ∃ ret list', unregisterConsole fuel con world.list = .done (ret, list') ∧
    (ret = einval ↔ world.registered con = false) ∧ (ret ≠ eok → list' = world.list)

section Exact

variable {world : World ι} {l : List ι} {fuel : ℕ}

/-- **The behaviour is exact** when the list holds the registered consoles. -/
theorem exact_iff (h : Holds world.list l) (hfuel : l.length < fuel) :
    Exact fuel world ↔ ∀ con, world.registered con = true ↔ con ∈ l := by
  have hwrite : ∀ str, consoleWrite fuel str world.list = .done (l.map fun con => (con, str)) :=
    writeLoop_linked h.linked hfuel
  have hfst : ∀ str : List Char, (l.map fun con => (con, str)).map Prod.fst = l := by
    intro str
    rw [List.map_map]
    exact List.map_id' l
  constructor
  · intro hexact con
    obtain ⟨calls, hcalls, _, hmem, _⟩ := hexact.write []
    obtain rfl := Outcome.done.inj ((hwrite []).symm.trans hcalls)
    rw [hfst] at hmem
    exact (hmem con).symm
  · intro hmatch
    refine ⟨fun str => ⟨_, hwrite str, ?_, fun con => ?_, ?_⟩, fun con => ?_, fun con => ?_⟩
    · rw [hfst]
      exact h.linked.nodup
    · rw [hfst]
      exact (hmatch con).symm
    · intro call hcall
      obtain ⟨con, _, rfl⟩ := List.mem_map.mp hcall
      rfl
    · by_cases hcon : con ∈ l
      · exact ⟨_, _, registerConsole_present h hfuel hcon, iff_of_true rfl ((hmatch con).mpr hcon),
          fun _ => rfl⟩
      · obtain ⟨list', hrun, _⟩ := registerConsole_absent h hfuel hcon
        exact ⟨_, _, hrun, iff_of_false (by decide) (mt (hmatch con).mp hcon),
          fun hret => absurd rfl hret⟩
    · by_cases hcon : con ∈ l
      · have hregistered : ¬ world.registered con = false := by
          simpa using (hmatch con).mpr hcon
        by_cases hhead : world.list.consoles = some con
        · obtain ⟨fuel, rfl⟩ : ∃ n, fuel = n + 1 := ⟨fuel - 1, by omega⟩
          exact ⟨_, _, unregisterConsole_head hhead, iff_of_false (by decide) hregistered,
            fun _ => rfl⟩
        · obtain ⟨list', _, hrun, _⟩ := unregisterConsole_behind h hfuel hcon hhead
          exact ⟨_, _, hrun, iff_of_false (by decide) hregistered, fun hret => absurd rfl hret⟩
      · refine ⟨_, _, unregisterConsole_absent h hfuel hcon, iff_of_true rfl ?_, fun _ => rfl⟩
        simpa using mt (hmatch con).mp hcon

end Exact

/-! ### Sequences of calls -/

section Calls

variable {world : World ι} {l : List ι} {fuel : ℕ}

/-- A call that unregisters the head of the list. -/
def UnregistersHead (list : ConsoleList ι) (call : Call ι) : Prop :=
  ∃ con, call = .unregister con ∧ list.consoles = some con

theorem match_update {registered : ι → Bool} {value : Bool} {con : ι} {l' : List ι}
    (hmatch : ∀ c, registered c = true ↔ c ∈ l) (hcon : value = true ↔ con ∈ l')
    (hother : ∀ c, c ≠ con → (c ∈ l' ↔ c ∈ l)) (c : ι) :
    Function.update registered con value c = true ↔ c ∈ l' := by
  by_cases hc : c = con
  · rw [hc, Function.update_self, hcon]
  · rw [Function.update_of_ne hc, hmatch, hother c hc]

/-- **A call that does not unregister the head** keeps the list that of the registered consoles. -/
theorem call_matches (h : Holds world.list l) (hfuel : l.length < fuel)
    (hmatch : ∀ con, world.registered con = true ↔ con ∈ l) {call : Call ι}
    (hhead : ¬ UnregistersHead world.list call) :
    ∃ world' l', world.call fuel call = .done world' ∧ Holds world'.list l' ∧
      l'.length ≤ l.length + 1 ∧ ∀ con, world'.registered con = true ↔ con ∈ l' := by
  cases call with
  | register con =>
    by_cases hcon : con ∈ l
    · rw [World.call, registerConsole_present h hfuel hcon]
      exact ⟨_, l, rfl, h, by omega, hmatch⟩
    · obtain ⟨list', hrun, hlist'⟩ := registerConsole_absent h hfuel hcon
      rw [World.call, hrun]
      refine ⟨_, con :: l, rfl, hlist', by simp, ?_⟩
      exact match_update hmatch (by simp) fun c hc => by simp [hc]
  | unregister con =>
    by_cases hcon : con ∈ l
    · have hbehind : world.list.consoles ≠ some con := fun hsome => hhead ⟨con, rfl, hsome⟩
      obtain ⟨list', l', hrun, hlist', hlength, hmem⟩ :=
        unregisterConsole_behind h hfuel hcon hbehind
      rw [World.call, hrun]
      refine ⟨_, l', rfl, hlist', by omega, ?_⟩
      exact match_update hmatch (by simp [hmem]) fun c hc => by simp [hmem, hc]
    · rw [World.call, unregisterConsole_absent h hfuel hcon]
      exact ⟨_, l, rfl, h, by omega, hmatch⟩

/-- **After the head was unregistered** the list holds a console that is not registered. -/
theorem call_head_inexact (h : Holds world.list l) (hfuel : l.length < fuel) {call : Call ι}
    (hhead : UnregistersHead world.list call) :
    ∃ world', world.call fuel call = .done world' ∧ ¬ Exact fuel world' := by
  obtain ⟨con, rfl, hsome⟩ := hhead
  obtain ⟨n, rfl⟩ : ∃ n, fuel = n + 1 := ⟨fuel - 1, by omega⟩
  have hmem : con ∈ l := List.mem_of_head? (h.linked.head?_eq.trans hsome)
  let world' : World ι := ⟨world.list, Function.update world.registered con false⟩
  refine ⟨world', ?_, fun hexact => ?_⟩
  · rw [World.call, unregisterConsole_head hsome]
    rfl
  · have hmatch := (exact_iff (show Holds world'.list l from h) hfuel).mp hexact
    have hregistered : Function.update world.registered con false con = true := (hmatch con).mpr hmem
    rw [Function.update_self] at hregistered
    cases hregistered

/-- **From a list that holds the registered consoles**, every state reached behaves as it should
exactly when the head is never unregistered. -/
theorem runCalls_exact_iff (calls : List (Call ι)) (h : Holds world.list l)
    (hfuel : l.length + calls.length < fuel)
    (hmatch : ∀ con, world.registered con = true ↔ con ∈ l) :
    (∀ pre, pre <+: calls → ∃ world', world.runCalls fuel pre = .done world' ∧
      Exact fuel world') ↔
    ∀ pre call, pre ++ [call] <+: calls → ∀ world', world.runCalls fuel pre = .done world' →
      ¬ UnregistersHead world'.list call := by
  have hexact : Exact fuel world := (exact_iff h (by omega)).mpr hmatch
  induction calls generalizing world l with
  | nil =>
    refine iff_of_true (fun pre hpre => ?_) fun pre call hpre => ?_
    · rw [List.prefix_nil.mp hpre]
      exact ⟨world, rfl, hexact⟩
    · exact absurd (List.prefix_nil.mp hpre) (by simp)
  | cons call calls ih =>
    rw [List.length_cons] at hfuel
    have hlist : l.length < fuel := by omega
    by_cases hhead : UnregistersHead world.list call
    · refine iff_of_false (fun hall => ?_) fun hall => ?_
      · obtain ⟨world', hrun, hinexact⟩ := call_head_inexact h hlist hhead
        obtain ⟨world'', hrun', hexact'⟩ := hall [call] (by simp)
        rw [World.runCalls, hrun, done_bind] at hrun'
        obtain rfl := Outcome.done.inj hrun'
        exact hinexact hexact'
      · exact hall [] call (by simp) world rfl hhead
    · obtain ⟨next, l', hrun, hlist', hlength, hmatch'⟩ := call_matches h hlist hmatch hhead
      have hnext : ∀ pre, world.runCalls fuel (call :: pre) = next.runCalls fuel pre := by
        intro pre
        rw [World.runCalls, hrun, done_bind]
      have hsteps := ih hlist' (by omega) hmatch' ((exact_iff hlist' (by omega)).mpr hmatch')
      constructor
      · intro hall pre called hpre world' hrun'
        cases pre with
        | nil =>
          obtain rfl := Outcome.done.inj hrun'
          obtain rfl := (List.cons_prefix_cons.mp hpre).1
          exact hhead
        | cons first pre =>
          obtain ⟨rfl, hpre'⟩ := List.cons_prefix_cons.mp (List.cons_append ▸ hpre)
          rw [hnext] at hrun'
          refine hsteps.mp (fun before hbefore => ?_) pre called hpre' world' hrun'
          rw [← hnext]
          exact hall _ (List.cons_prefix_cons.mpr ⟨rfl, hbefore⟩)
      · intro hall pre hpre
        cases pre with
        | nil => exact ⟨world, rfl, hexact⟩
        | cons first pre =>
          obtain ⟨rfl, hpre'⟩ := List.cons_prefix_cons.mp hpre
          rw [hnext]
          refine hsteps.mpr (fun before called hbefore world' hrun' => ?_) pre hpre'
          refine hall (first :: before) called (List.cons_prefix_cons.mpr ⟨rfl, hbefore⟩) world' ?_
          rw [hnext]
          exact hrun'

/-- **Every sequence of calls**: the functions behave as they should in all states reached exactly
when `unregister_console` is never called on the console at the head of the list. -/
theorem calls_exact_iff (calls : List (Call ι)) (hfuel : calls.length < fuel) :
    (∀ pre, pre <+: calls → ∃ world, World.init.runCalls fuel pre = .done world ∧
      Exact fuel world) ↔
    ∀ pre call, pre ++ [call] <+: calls → ∀ world, World.init.runCalls fuel pre = .done world →
      ¬ UnregistersHead world.list call :=
  runCalls_exact_iff (l := []) calls ⟨rfl, fun _ _ => rfl⟩ (by simpa using hfuel)
    fun con => by simp [World.init]

end Calls

/-- **A console that is still written to** after it was registered and unregistered. -/
theorem unregistered_console_written :
    ∃ world, (World.init : World ℕ).runCalls 3 [.register 0, .unregister 0] = .done world ∧
      world.registered 0 = false ∧ consoleWrite 3 ['x'] world.list = .done [(0, ['x'])] ∧
      ¬ Exact 3 world := by
  refine ⟨_, rfl, rfl, rfl, fun hexact => ?_⟩
  obtain ⟨calls, hcalls, _, hmem, _⟩ := hexact.write ['x']
  obtain rfl : [(0, ['x'])] = calls := Outcome.done.inj hcalls
  exact absurd ((hmem 0).mp (by simp)) (by decide)

/-- Two consoles, of which the first one is taken out from behind the second. -/
theorem calls_exact_iff_twoConsoles :
    (∀ pre, pre <+: [.register 0, .register 1, .unregister 0] →
      ∃ world, (World.init : World ℕ).runCalls 4 pre = .done world ∧ Exact 4 world) ↔
    ∀ pre call, pre ++ [call] <+: [.register 0, .register 1, .unregister 0] →
      ∀ world, (World.init : World ℕ).runCalls 4 pre = .done world →
        ¬ UnregistersHead world.list call :=
  calls_exact_iff [.register 0, .register 1, .unregister 0] (by decide)

end UltraKernel.Console
