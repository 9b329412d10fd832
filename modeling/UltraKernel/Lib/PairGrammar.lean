import Mathlib.Data.List.Infix
import Mathlib.Logic.Function.Basic

/-!
# Pair grammars

A pair grammar gives a token either itself, as a terminal, or a pair of tokens it stands for.
`Spells` says which word a token stands for, within a bounded depth; the word of a list of tokens
is the concatenation.

* A rule for an unused token changes no spelling (`Spells.update`).
* Replacing a pair by a token that stands for it changes no spelling (`SpellsAll.replacePairs`).
* Two adjacent tokens spell a part of the whole (`SpellsAll.adjacent`).
-/

namespace UltraKernel.PairGrammar

variable {τ : Type*}

/-- `t` stands for the word `w`, through at most `h` levels of pairs. -/
inductive Spells (rule : τ → List τ) : ℕ → τ → List τ → Prop
  | terminal {h t} (ht : rule t = [t]) : Spells rule h t [t]
  | compound {h t a b u v} (ht : rule t = [a, b]) (ha : Spells rule h a u) (hb : Spells rule h b v) :
    Spells rule (h + 1) t (u ++ v)

/-- The tokens spell `w`, one after the other. -/
inductive SpellsAll (rule : τ → List τ) (h : ℕ) : List τ → List τ → Prop
  | nil : SpellsAll rule h [] []
  | cons {t ts u w} (ht : Spells rule h t u) (hts : SpellsAll rule h ts w) :
    SpellsAll rule h (t :: ts) (u ++ w)

variable {rule : τ → List τ} {h k : ℕ} {t a b c : τ} {u v w : List τ}

theorem Spells.rule_ne_nil (ht : Spells rule h t w) : rule t ≠ [] := by
  cases ht with
  | terminal ht => simp [ht]
  | compound ht => simp [ht]

theorem Spells.ne_nil (ht : Spells rule h t w) : w ≠ [] := by
  induction ht with
  | terminal => simp
  | compound _ _ _ iha => simp [iha]

theorem Spells.mono (ht : Spells rule h t w) (hk : h ≤ k) : Spells rule k t w := by
  induction ht generalizing k with
  | terminal ht => exact .terminal ht
  | compound ht _ _ iha ihb =>
    obtain ⟨k, rfl⟩ : ∃ j, k = j + 1 := ⟨k - 1, by omega⟩
    exact .compound ht (iha (by omega)) (ihb (by omega))

/-- **A rule for an unused token changes no spelling.** -/
theorem Spells.update [DecidableEq τ] (ht : Spells rule h t w) (hc : rule c = []) (r : List τ) :
    Spells (Function.update rule c r) h t w := by
  have hkeep : ∀ {x y : τ} {ys}, rule x = y :: ys → Function.update rule c r x = y :: ys := by
    intro x y ys hx
    rw [Function.update_of_ne (by rintro rfl; simp [hc] at hx), hx]
  induction ht with
  | terminal ht => exact .terminal (hkeep ht)
  | compound ht _ _ iha ihb => exact .compound (hkeep ht) iha ihb

theorem SpellsAll.mono {ts : List τ} (hts : SpellsAll rule h ts w) (hk : h ≤ k) :
    SpellsAll rule k ts w := by
  induction hts with
  | nil => exact .nil
  | cons ht _ ih => exact .cons (ht.mono hk) ih

theorem SpellsAll.update [DecidableEq τ] {ts : List τ} (hts : SpellsAll rule h ts w)
    (hc : rule c = []) (r : List τ) : SpellsAll (Function.update rule c r) h ts w := by
  induction hts with
  | nil => exact .nil
  | cons ht _ ih => exact .cons (ht.update hc r) ih

theorem Spells.pair (ha : Spells rule h a u) (hb : Spells rule h b v) :
    SpellsAll rule h [a, b] (u ++ v) := by
  have hpair := SpellsAll.cons ha (SpellsAll.cons hb SpellsAll.nil)
  rwa [List.append_nil] at hpair

/-- Each token spells at least one symbol. -/
theorem SpellsAll.length_le {ts : List τ} (hts : SpellsAll rule h ts w) : ts.length ≤ w.length := by
  induction hts with
  | nil => exact le_rfl
  | cons ht _ ih =>
    have := List.length_pos_iff.mpr ht.ne_nil
    simp only [List.length_cons, List.length_append]
    omega

theorem SpellsAll.spells_of_mem {ts : List τ} (hts : SpellsAll rule h ts w) (ht : t ∈ ts) :
    ∃ u, Spells rule h t u := by
  induction hts with
  | nil => cases ht
  | cons ht' _ ih =>
    rcases List.mem_cons.mp ht with rfl | ht
    · exact ⟨_, ht'⟩
    · exact ih ht

theorem SpellsAll.terminals {ts : List τ} (hts : ∀ t ∈ ts, rule t = [t]) :
    SpellsAll rule h ts ts := by
  induction ts with
  | nil => exact .nil
  | cons t ts ih =>
    exact .cons (.terminal (hts t (List.mem_cons_self ..)))
      (ih fun t' ht' => hts t' (List.mem_cons_of_mem _ ht'))

/-- **Adjacent tokens spell a part of the whole.** -/
theorem SpellsAll.adjacent {l r : List τ} (hts : SpellsAll rule h (l ++ a :: b :: r) w) :
    ∃ u v, Spells rule h a u ∧ Spells rule h b v ∧ u ++ v <:+: w := by
  induction l generalizing w with
  | nil =>
    obtain _ | ⟨ha, hts⟩ := hts
    obtain _ | ⟨hb, hts⟩ := hts
    rename_i u v w'
    exact ⟨u, v, ha, hb, [], w', by simp⟩
  | cons x l ih =>
    obtain _ | ⟨hx, hts⟩ := hts
    obtain ⟨u, v, ha, hb, hinfix⟩ := ih hts
    exact ⟨u, v, ha, hb, hinfix.trans (List.suffix_append _ _).isInfix⟩

/-! ### Replacing a pair -/

variable [DecidableEq τ]

/-- Every occurrence of `a` and `b` side by side becomes `c`, from left to right. -/
def replacePairs (a b c : τ) : List τ → List τ
  | x :: y :: rest =>
    if x = a ∧ y = b then c :: replacePairs a b c rest else x :: replacePairs a b c (y :: rest)
  | rest => rest

/-- **Replacing a pair by a token that stands for it changes no spelling.** -/
theorem SpellsAll.replacePairs (hc : rule c = [a, b]) {ts : List τ}
    (hts : SpellsAll rule h ts w) : SpellsAll rule (h + 1) (replacePairs a b c ts) w := by
  induction ts using PairGrammar.replacePairs.induct (a := a) (b := b) generalizing w with
  | case1 x y rest hpair ih =>
    obtain ⟨rfl, rfl⟩ := hpair
    obtain _ | ⟨hx, hts⟩ := hts
    obtain _ | ⟨hy, hts⟩ := hts
    rw [PairGrammar.replacePairs, if_pos ⟨rfl, rfl⟩, ← List.append_assoc]
    exact .cons (.compound hc hx hy) (ih hts)
  | case2 x y rest hpair ih =>
    obtain _ | ⟨hx, hts⟩ := hts
    rw [PairGrammar.replacePairs, if_neg hpair]
    exact .cons (hx.mono (Nat.le_succ h)) (ih hts)
  | case3 rest hrest =>
    rw [PairGrammar.replacePairs]
    · exact hts.mono (Nat.le_succ h)
    · exact hrest

end UltraKernel.PairGrammar
