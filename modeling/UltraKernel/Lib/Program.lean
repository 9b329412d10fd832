import UltraKernel.Lib.Outcome

/-!
# Programs that fail

A `Program` works on a state, and ends with a value or with an error; the state that it reached is
kept either way.  As an `Outcome`, it may also stop on an assertion or be cut short.

`Meets may P x Q R` is the Hoare triple for both endings.  `may` says whether the program may also
not end: with `False` the triple is one of total correctness, with `True` of partial correctness.
The rules are the same for both.

* `Meets.bind`, `Meets.conseq`, `Meets.zoom`: the rules;
* `Keeps`: the triple of an invariant that holds in every ending;
* `Raises`: the errors that a program may end with.
-/

namespace UltraKernel

/-- A program: assertions in `ε`, errors in `χ`, states in `σ`. -/
def Program (ε χ σ α : Type) : Type := σ → Outcome ε (Except χ α × σ)

namespace Program

variable {ε χ σ τ α β : Type}

/-- Sequencing: only a value is passed on, an error ends the program. -/
def bind (x : Program ε χ σ α) (f : α → Program ε χ σ β) : Program ε χ σ β := fun s =>
  x s >>= fun
    | (.ok a, s') => f a s'
    | (.error e, s') => .done (.error e, s')

instance : Monad (Program ε χ σ) where
  pure a := fun s => .done (.ok a, s)
  bind := bind

def fail (e : χ) : Program ε χ σ α := fun s => .done (.error e, s)

def halt (e : ε) : Program ε χ σ α := fun _ => .halt e

def outOfFuel : Program ε χ σ α := fun _ => .outOfFuel

def get : Program ε χ σ σ := fun s => .done (.ok s, s)

def modify (f : σ → σ) : Program ε χ σ Unit := fun s => .done (.ok (), f s)

/-- Fail where the condition holds. -/
def refuse (c : Prop) [Decidable c] (e : χ) : Program ε χ σ Unit := if c then fail e else pure ()

/-- A program on a part of the state. -/
def zoom (read : σ → τ) (write : τ → σ → σ) (x : Program ε χ τ α) : Program ε χ σ α := fun s =>
  x (read s) >>= fun p => .done (p.1, write p.2 s)

/-! ### Runs -/

section Runs

variable {x : Program ε χ σ α} {f : α → Program ε χ σ β} {s s' : σ} {a : α} {e : χ}

@[simp] theorem pure_run (a : α) (s : σ) : (pure a : Program ε χ σ α) s = .done (.ok a, s) := rfl

@[simp] theorem fail_run (e : χ) (s : σ) : (fail e : Program ε χ σ α) s = .done (.error e, s) := rfl

@[simp] theorem get_run (s : σ) : (get : Program ε χ σ σ) s = .done (.ok s, s) := rfl

@[simp] theorem modify_run (f : σ → σ) (s : σ) :
    (modify f : Program ε χ σ Unit) s = .done (.ok (), f s) := rfl

theorem bind_run (x : Program ε χ σ α) (f : α → Program ε χ σ β) (s : σ) :
    (x >>= f) s = x s >>= fun
      | (.ok a, s') => f a s'
      | (.error e, s') => .done (.error e, s') := rfl

theorem bind_of_ok (h : x s = .done (.ok a, s')) : (x >>= f) s = f a s' := by
  rw [bind_run, h]
  rfl

theorem bind_of_error (h : x s = .done (.error e, s')) : (x >>= f) s = .done (.error e, s') := by
  rw [bind_run, h]
  rfl

/-- **Inversion of sequencing**: a program that returned, returned from its first part. -/
theorem bind_eq_ok {b : β} : (x >>= f) s = .done (.ok b, s') ↔
    ∃ a t, x s = .done (.ok a, t) ∧ f a t = .done (.ok b, s') := by
  rw [bind_run, Outcome.bind_eq_done]
  constructor
  · rintro ⟨⟨r, t⟩, hx, hf⟩
    cases r with
    | ok a => exact ⟨a, t, hx, hf⟩
    | error e => cases hf
  · rintro ⟨a, t, hx, hf⟩
    exact ⟨(.ok a, t), hx, hf⟩

/-- A value that is computed from what is returned. -/
theorem bind_pure_eq_ok {g : α → β} {b : β} :
    (x >>= fun a => Pure.pure (g a)) s = .done (.ok b, s') ↔
      ∃ a, x s = .done (.ok a, s') ∧ g a = b := by
  rw [bind_eq_ok]
  constructor
  · rintro ⟨a, t, hx, hpure⟩
    obtain ⟨hvalue, rfl⟩ := Prod.mk.inj (Outcome.done.inj hpure)
    exact ⟨a, hx, Except.ok.inj hvalue⟩
  · rintro ⟨a, hx, rfl⟩
    exact ⟨a, s', hx, rfl⟩

theorem refuse_of {c : Prop} [Decidable c] (hc : c) (e : χ) (s : σ) :
    (refuse c e : Program ε χ σ Unit) s = .done (.error e, s) := by
  rw [refuse, if_pos hc, fail_run]

theorem refuse_of_not {c : Prop} [Decidable c] (hc : ¬ c) (e : χ) (s : σ) :
    (refuse c e : Program ε χ σ Unit) s = .done (.ok (), s) := by
  rw [refuse, if_neg hc, pure_run]

theorem refuse_eq_ok {c : Prop} [Decidable c] {e : χ} {s s' : σ} :
    (refuse c e : Program ε χ σ Unit) s = .done (.ok (), s') ↔ ¬ c ∧ s' = s := by
  by_cases hc : c
  · simp [refuse, hc]
  · simp [refuse, hc, eq_comm]

theorem zoom_of_ok {read : σ → τ} {write : τ → σ → σ} {x : Program ε χ τ α} {t : τ}
    (h : x (read s) = .done (.ok a, t)) : zoom read write x s = .done (.ok a, write t s) := by
  rw [zoom, h]
  rfl

theorem zoom_eq_ok {read : σ → τ} {write : τ → σ → σ} {x : Program ε χ τ α} :
    zoom read write x s = .done (.ok a, s') ↔
      ∃ t, x (read s) = .done (.ok a, t) ∧ s' = write t s := by
  rw [zoom, Outcome.bind_eq_done]
  constructor
  · rintro ⟨⟨r, t⟩, hx, hs⟩
    obtain ⟨rfl, rfl⟩ := Prod.mk.inj (Outcome.done.inj hs)
    exact ⟨t, hx, rfl⟩
  · rintro ⟨t, hx, rfl⟩
    exact ⟨(.ok a, t), hx, rfl⟩

end Runs

/-! ### Triples -/

/-- **The Hoare triple**: from a state with `P`, a value is returned with `Q`, or an error with `R`;
it may also not end when `may` allows it. -/
def Meets (may : Prop) (P : σ → Prop) (x : Program ε χ σ α) (Q : α → σ → Prop)
    (R : χ → σ → Prop) : Prop :=
  ∀ s, P s →
    match x s with
    | .done (.ok a, s') => Q a s'
    | .done (.error e, s') => R e s'
    | _ => may

section Meets

variable {may : Prop} {P P' : σ → Prop} {x : Program ε χ σ α} {Q Q' : α → σ → Prop}
  {R R' : χ → σ → Prop}

/-- A program that must end does. -/
theorem Meets.ends (h : Meets False P x Q R) {s : σ} (hs : P s) :
    ∃ r s', x s = .done (r, s') ∧ (∀ a, r = .ok a → Q a s') ∧ ∀ e, r = .error e → R e s' := by
  have hrun := h s hs
  match hx : x s with
  | .done (.ok a, s') =>
    rw [hx] at hrun
    exact ⟨_, _, rfl, by rintro b ⟨⟩; exact hrun, by rintro e ⟨⟩⟩
  | .done (.error e, s') =>
    rw [hx] at hrun
    exact ⟨_, _, rfl, (by rintro b ⟨⟩), by rintro b ⟨⟩; exact hrun⟩
  | .halt _ =>
    rw [hx] at hrun
    exact hrun.elim
  | .outOfFuel =>
    rw [hx] at hrun
    exact hrun.elim

theorem Meets.of_ok (h : Meets may P x Q R) {s s' : σ} {a : α} (hs : P s)
    (hx : x s = .done (.ok a, s')) : Q a s' := by
  have hrun := h s hs
  rw [hx] at hrun
  exact hrun

theorem Meets.conseq (h : Meets may P x Q R) (hP : ∀ s, P' s → P s) (hQ : ∀ a s, Q a s → Q' a s)
    (hR : ∀ e s, R e s → R' e s) : Meets may P' x Q' R' := by
  intro s hs
  have hrun := h s (hP s hs)
  match hx : x s with
  | .done (.ok a, s') =>
    rw [hx] at hrun
    exact hQ a s' hrun
  | .done (.error e, s') =>
    rw [hx] at hrun
    exact hR e s' hrun
  | .halt _ =>
    rw [hx] at hrun
    exact hrun
  | .outOfFuel =>
    rw [hx] at hrun
    exact hrun

/-- **Sequencing.** -/
theorem Meets.bind {f : α → Program ε χ σ β} {S : β → σ → Prop} (h : Meets may P x Q R)
    (hf : ∀ a, Meets may (Q a) (f a) S R) : Meets may P (x >>= f) S R := by
  intro s hs
  have hrun := h s hs
  rw [bind_run]
  match hx : x s with
  | .done (.ok a, s') =>
    rw [hx] at hrun
    exact hf a s' hrun
  | .done (.error e, s') =>
    rw [hx] at hrun
    exact hrun
  | .halt _ =>
    rw [hx] at hrun
    exact hrun
  | .outOfFuel =>
    rw [hx] at hrun
    exact hrun

/-- **Reading the state**: what follows may depend on it. -/
theorem Meets.get_bind {f : σ → Program ε χ σ β} {S : β → σ → Prop}
    (h : ∀ s, P s → Meets may (fun s' => s' = s) (f s) S R) : Meets may P (Program.get >>= f) S R := by
  intro s hs
  rw [bind_of_ok (get_run s)]
  exact h s hs s rfl

/-- A precondition that does not depend on the state. -/
theorem Meets.assume {p : Prop} (h : p → Meets may P x Q R) :
    Meets may (fun s => P s ∧ p) x Q R := fun s hs => h hs.2 s hs.1

theorem Meets.refuse {c : Prop} [Decidable c] {e : χ} {Q : Unit → σ → Prop}
    (hfail : ∀ s, c → P s → R e s) (hpass : ∀ s, ¬ c → P s → Q () s) :
    Meets may P (refuse c e : Program ε χ σ Unit) Q R := by
  intro s hs
  by_cases hc : c
  · rw [Program.refuse, if_pos hc]
    exact hfail s hc hs
  · rw [Program.refuse, if_neg hc]
    exact hpass s hc hs

/-- **A program on a part of the state.** -/
theorem Meets.zoom {read : σ → τ} {write : τ → σ → σ} {x : Program ε χ τ α} {P : τ → Prop}
    {Q : α → τ → Prop} {R : χ → τ → Prop} {P' : σ → Prop} {Q' : α → σ → Prop} {R' : χ → σ → Prop}
    (h : Meets may P x Q R) (hP : ∀ s, P' s → P (read s))
    (hQ : ∀ s a t, P' s → Q a t → Q' a (write t s))
    (hR : ∀ s e t, P' s → R e t → R' e (write t s)) :
    Meets may P' (zoom read write x) Q' R' := by
  intro s hs
  have hrun := h (read s) (hP s hs)
  rw [Program.zoom]
  match hx : x (read s) with
  | .done (.ok a, t) =>
    rw [hx] at hrun
    exact hQ s a t hs hrun
  | .done (.error e, t) =>
    rw [hx] at hrun
    exact hR s e t hs hrun
  | .halt _ =>
    rw [hx] at hrun
    exact hrun
  | .outOfFuel =>
    rw [hx] at hrun
    exact hrun

end Meets

/-! ### Invariants -/

/-- The program keeps an invariant, however it ends, and returns values with a property. -/
def Keeps (may : Prop) (I : σ → Prop) (x : Program ε χ σ α) (Q : α → Prop) : Prop :=
  Meets may I x (fun a s => I s ∧ Q a) fun _ s => I s

section Keeps

variable {may : Prop} {I : σ → Prop} {x : Program ε χ σ α} {Q Q' : α → Prop}

theorem Keeps.pure {a : α} (ha : Q a) : Keeps may I (pure a : Program ε χ σ α) Q :=
  fun _ hs => ⟨hs, ha⟩

theorem Keeps.fail (e : χ) : Keeps may I (fail e : Program ε χ σ α) Q := fun _ hs => hs

theorem Keeps.modify {f : σ → σ} (hf : ∀ s, I s → I (f s)) :
    Keeps may I (modify f : Program ε χ σ Unit) fun _ => True := fun s hs => ⟨hf s hs, trivial⟩

theorem Keeps.bind {f : α → Program ε χ σ β} {S : β → Prop} (h : Keeps may I x Q)
    (hf : ∀ a, Q a → Keeps may I (f a) S) : Keeps may I (x >>= f) S :=
  Meets.bind h fun a => Meets.assume (hf a)

theorem Keeps.refuse {c : Prop} [Decidable c] {e : χ} :
    Keeps may I (refuse c e : Program ε χ σ Unit) fun _ => ¬ c :=
  Meets.refuse (fun _ _ hs => hs) fun _ hc hs => ⟨hs, hc⟩

theorem Keeps.get_bind {f : σ → Program ε χ σ β} {S : β → Prop}
    (hf : ∀ s, I s → Keeps may I (f s) S) : Keeps may I (get >>= f) S :=
  Meets.get_bind fun s hs => (hf s hs).conseq (fun _ h => h.symm ▸ hs) (fun _ _ h => h) fun _ _ h => h

end Keeps

/-! ### Errors -/

/-- The program, if it ends, keeps an invariant while it returns values, and fails only with errors
of a kind. -/
def Raises (I : σ → Prop) (E : χ → Prop) (x : Program ε χ σ α) : Prop :=
  Meets True I x (fun _ => I) fun e _ => E e

section Raises

variable {I : σ → Prop} {E : χ → Prop} {x : Program ε χ σ α}

theorem Raises.pure (a : α) : Raises I E (pure a : Program ε χ σ α) := fun _ hs => hs

theorem Raises.fail {e : χ} (he : E e) : Raises I E (fail e : Program ε χ σ α) := fun _ _ => he

theorem Raises.halt (e : ε) : Raises I E (halt e : Program ε χ σ α) := fun _ _ => trivial

theorem Raises.outOfFuel : Raises I E (outOfFuel : Program ε χ σ α) := fun _ _ => trivial

theorem Raises.modify {f : σ → σ} (hf : ∀ s, I s → I (f s)) :
    Raises I E (modify f : Program ε χ σ Unit) := hf

theorem Raises.bind {f : α → Program ε χ σ β} (h : Raises I E x) (hf : ∀ a, Raises I E (f a)) :
    Raises I E (x >>= f) := Meets.bind h hf

theorem Raises.get_bind {f : σ → Program ε χ σ β} (hf : ∀ s, I s → Raises I E (f s)) :
    Raises I E (get >>= f) := fun s hs => hf s hs s hs

theorem Raises.refuse {c : Prop} [Decidable c] {e : χ} (he : E e) :
    Raises I E (refuse c e : Program ε χ σ Unit) :=
  Meets.refuse (fun _ _ _ => he) fun _ _ hs => hs

theorem Raises.mono {E' : χ → Prop} (h : Raises I E x) (hE : ∀ e, E e → E' e) : Raises I E' x :=
  Meets.conseq h (fun _ hs => hs) (fun _ _ hs => hs) fun e _ he => hE e he

/-- The error that a program ended with. -/
theorem Raises.of_error (h : Raises I E x) {s s' : σ} {e : χ} (hs : I s)
    (hx : x s = .done (.error e, s')) : E e := by
  have hrun := h s hs
  rw [hx] at hrun
  exact hrun

theorem Raises.zoom {read : σ → τ} {write : τ → σ → σ} {x : Program ε χ τ α} {J : τ → Prop}
    (h : Raises J E x) (hread : ∀ s, I s → J (read s))
    (hwrite : ∀ s t, I s → J t → I (write t s)) : Raises I E (zoom read write x) :=
  Meets.zoom h hread (fun s _ t hs ht => hwrite s t hs ht) fun _ _ _ _ he => he

end Raises

end Program

end UltraKernel
