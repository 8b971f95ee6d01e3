/-
  Taking successful and failed runs apart.

  A run that ended well went well at every step: `bind_eq_ok` gives the results in between, for
  plain outcomes and for the steps of a resolution.  A run that failed did so at its first step or
  after it: `bind_eq_error`.

  A property of whatever a run ends with, a result or a failure, is carried along its steps by
  `Ends`.  Two runs that go through the same steps are compared with `Agree`, which asks for a result
  on either side or on none, with `Matches`, if failures are compared as well, or with `CutShort`, if
  one of them may have to stop where the other goes on.
-/
import OctoAsm.Resolve.State

namespace OctoAsm

section Outcomes

variable {ε α β : Type}

/-- Two steps succeed when both do, and the result in between is there to be named. -/
theorem bind_eq_ok {x : Except ε α} {f : α → Except ε β} {b : β} :
    (x >>= f) = .ok b ↔ ∃ a, x = .ok a ∧ f a = .ok b := by
  cases x <;> simp [bind, Except.bind]

/-- Two steps fail at the first one or at the second one. -/
theorem bind_eq_error {x : Except ε α} {f : α → Except ε β} {e : ε} :
    (x >>= f) = .error e ↔ x = .error e ∨ ∃ a, x = .ok a ∧ f a = .error e := by
  cases x <;> simp [bind, Except.bind]

/-- A mapped success is a success. -/
theorem map_eq_ok {x : Except ε α} {f : α → β} {b : β} :
    x.map f = .ok b ↔ ∃ a, x = .ok a ∧ f a = b := by
  cases x <;> simp [Except.map]

/-- Changing failures leaves successes as they are. -/
theorem mapError_eq_ok {ε' : Type} {x : Except ε α} {f : ε → ε'} {a : α} :
    x.mapError f = .ok a ↔ x = .ok a := by
  cases x with
  | ok b =>
    show (Except.ok b : Except ε' α) = .ok a ↔ _
    rw [Except.ok.injEq, Except.ok.injEq]
  | error e =>
    show (Except.error (f e) : Except ε' α) = .ok a ↔ _
    simp

/-- A changed failure comes from a failure. -/
theorem mapError_eq_error {ε' : Type} {x : Except ε α} {f : ε → ε'} {e' : ε'} :
    x.mapError f = .error e' ↔ ∃ e, x = .error e ∧ f e = e' := by
  cases x with
  | ok a =>
    show (Except.ok a : Except ε' α) = .error e' ↔ _
    simp
  | error e =>
    show (Except.error (f e) : Except ε' α) = .error e' ↔ _
    simp

/-- Mapping results leaves failures as they are. -/
theorem map_eq_error {x : Except ε α} {f : α → β} {e : ε} : x.map f = .error e ↔ x = .error e := by
  cases x <;> simp [Except.map]

/-- The result of two steps is mapped behind the second one. -/
theorem map_bind {γ : Type} (x : Except ε α) (f : α → Except ε β) (g : β → γ) :
    (x >>= f).map g = (x >>= fun a => (f a).map g) := by
  cases x <;> rfl

/-- What is given is what comes out. -/
@[simp] theorem pure_eq_ok {a b : α} : (pure a : Except ε α) = .ok b ↔ a = b := by
  simp [pure, Except.pure]

/-- Giving a result is no failure. -/
@[simp] theorem pure_ne_error {a : α} {e : ε} : (pure a : Except ε α) ≠ .error e := by
  simp [pure, Except.pure]

/-- What is thrown is what comes out. -/
@[simp] theorem throw_eq_error {e e' : ε} : (throw e : Except ε α) = .error e' ↔ e = e' := by
  show (Except.error e : Except ε α) = .error e' ↔ _
  simp

/-- A step that is known to succeed hands its result on. -/
@[simp] theorem ok_bind (a : α) (f : α → Except ε β) : (Except.ok a >>= f) = f a := rfl

/-- A step that is known to fail ends the run. -/
@[simp] theorem error_bind (e : ε) (f : α → Except ε β) : (Except.error e >>= f) = .error e := rfl

/-! ## What a run ends with -/

/-- A result has a property, a failure another one. -/
inductive Ends (E : ε → Prop) (Q : α → Prop) : Except ε α → Prop where
  | ok {a} (h : Q a) : Ends E Q (.ok a)
  | error {e} (h : E e) : Ends E Q (.error e)

namespace Ends

variable {E : ε → Prop} {Q : α → Prop} {R : β → Prop}

/-- A result with its property. -/
theorem pure {a : α} (h : Q a) : Ends E Q (Pure.pure a : Except ε α) := .ok h

/-- One step after the other: the second one has the property of the first one's result to go by. -/
theorem bind {x : Except ε α} {f : α → Except ε β} (hx : Ends E Q x)
    (hf : ∀ a, Q a → Ends E R (f a)) : Ends E R (x >>= f) := by
  cases hx with
  | ok h => exact hf _ h
  | error h => exact .error h

/-- Weaker properties hold as well. -/
theorem imp {E' : ε → Prop} {Q' : α → Prop} {x : Except ε α} (hE : ∀ e, E e → E' e)
    (hQ : ∀ a, Q a → Q' a) (h : Ends E Q x) : Ends E' Q' x := by
  cases h with
  | ok h => exact .ok (hQ _ h)
  | error h => exact .error (hE _ h)

/-- A property of a mapped result. -/
theorem map {x : Except ε α} {f : α → β} (hx : Ends E Q x) (hf : ∀ a, Q a → R (f a)) :
    Ends E R (x.map f) := by
  cases hx with
  | ok h => exact .ok (hf _ h)
  | error h => exact .error h

/-- The property read off a success. -/
theorem of_ok {x : Except ε α} {a : α} (h : Ends E Q x) (hx : x = .ok a) : Q a := by
  cases h with
  | ok h => exact Except.ok.inj hx ▸ h
  | error => cases hx

/-- The property read off a failure. -/
theorem of_error {x : Except ε α} {e : ε} (h : Ends E Q x) (hx : x = .error e) : E e := by
  cases h with
  | ok => cases hx
  | error h => exact Except.error.inj hx ▸ h

end Ends

/-! ## Outcomes that agree -/

/-- Both are failures, or their results are related. -/
inductive Agree {ε' : Type} (R : α → β → Prop) : Except ε α → Except ε' β → Prop where
  | ok {a b} (h : R a b) : Agree R (.ok a) (.ok b)
  | error {e e'} : Agree R (.error e) (.error e')

/-- Agreement is carried along two runs step by step, given that related results go on alike. -/
theorem Agree.bind {ε' γ δ : Type} {R : α → β → Prop} {S : γ → δ → Prop} {x : Except ε α}
    {y : Except ε' β} {f : α → Except ε γ} {g : β → Except ε' δ} (h : Agree R x y)
    (hfg : ∀ a b, R a b → Agree S (f a) (g b)) : Agree S (x >>= f) (y >>= g) := by
  cases h with
  | ok h => exact hfg _ _ h
  | error => exact .error

/-- Outcomes that agree on the same result. -/
theorem Agree.bind_eq {ε' γ δ : Type} {S : γ → δ → Prop} {x : Except ε α} {y : Except ε' α}
    {f : α → Except ε γ} {g : α → Except ε' δ} (h : Agree Eq x y)
    (hfg : ∀ a, Agree S (f a) (g a)) : Agree S (x >>= f) (y >>= g) :=
  h.bind fun a _ hab => hab ▸ hfg a

/-- Which failures there are does not matter to agreement. -/
theorem Agree.mapError {ε₁ ε₂ ε' : Type} {R : α → β → Prop} {x : Except ε α} {y : Except ε' β}
    {f : ε → ε₁} {g : ε' → ε₂} (h : Agree R x y) : Agree R (x.mapError f) (y.mapError g) := by
  cases h with
  | ok h => exact .ok h
  | error => exact .error

/-- Runs that agree on equality have the same results. -/
theorem Agree.eq_ok_iff {ε' : Type} {x : Except ε α} {y : Except ε' α} {a : α} (h : Agree Eq x y) :
    x = .ok a ↔ y = .ok a := by
  cases h with
  | ok h => rw [h, Except.ok.injEq, Except.ok.injEq]
  | error => exact ⟨nofun, nofun⟩

/-- A run that agrees with itself. -/
theorem Agree.self {R : α → α → Prop} {x : Except ε α} {a : α} (h : Agree R x x)
    (hx : x = .ok a) : R a a := by
  subst hx
  cases h with
  | ok h => exact h

/-- Outcomes agree if the results of the second are those that the first calls for. -/
theorem agree_of_eq_ok_iff {ε' : Type} {f : α → β} {x : Except ε α} {y : Except ε' β}
    (h : ∀ b, y = .ok b ↔ ∃ a, x = .ok a ∧ b = f a) : Agree (fun a b => b = f a) x y := by
  cases hx : x with
  | ok a =>
    rw [(h (f a)).mpr ⟨a, hx, rfl⟩]
    exact .ok rfl
  | error e =>
    cases hy : y with
    | ok b =>
      obtain ⟨a, ha, -⟩ := (h b).mp hy
      rw [hx] at ha
      cases ha
    | error e' => exact .error

/-- Either side may be replaced by one with the same result. -/
theorem Agree.congr {ε₁ ε₂ ε' : Type} {R : α → β → Prop} {x : Except ε α} {x' : Except ε₁ α}
    {y : Except ε' β} {y' : Except ε₂ β} (hx : Agree Eq x x') (hy : Agree Eq y y')
    (h : Agree R x' y') : Agree R x y := by
  cases hx with
  | error =>
    cases h
    cases hy
    exact .error
  | ok hx =>
    subst hx
    cases h with
    | ok h =>
      cases hy with
      | ok hy => exact .ok (hy ▸ h)

/-! ## Outcomes that match -/

/-- Both are failures or both have results, and these are related. -/
inductive Matches {ε' : Type} (R : α → β → Prop) (S : ε → ε' → Prop) :
    Except ε α → Except ε' β → Prop where
  | ok {a b} (h : R a b) : Matches R S (.ok a) (.ok b)
  | error {e e'} (h : S e e') : Matches R S (.error e) (.error e')

/-- Like agreement, with the failures of each step matched as well. -/
theorem Matches.bind {ε' γ δ : Type} {R : α → β → Prop} {R' : γ → δ → Prop} {S : ε → ε' → Prop}
    {x : Except ε α} {y : Except ε' β} {f : α → Except ε γ} {g : β → Except ε' δ}
    (h : Matches R S x y) (hfg : ∀ a b, R a b → Matches R' S (f a) (g b)) :
    Matches R' S (x >>= f) (y >>= g) := by
  cases h with
  | ok h => exact hfg _ _ h
  | error h => exact .error h

/-- Failures may be matched more loosely. -/
theorem Matches.mono {ε' : Type} {R : α → β → Prop} {S S' : ε → ε' → Prop} {x : Except ε α}
    {y : Except ε' β} (h : Matches R S x y) (hS : ∀ e e', S e e' → S' e e') : Matches R S' x y := by
  cases h with
  | ok h => exact .ok h
  | error h => exact .error (hS _ _ h)

/-! ## Outcomes that are cut off -/

/-- The outcomes are the same, or the first is a failure of the given kind. -/
def CutShort (E : ε → Prop) (x y : Except ε α) : Prop := x = y ∨ ∃ e, x = .error e ∧ E e

namespace CutShort

variable {E : ε → Prop} {x y : Except ε α}

/-- A run is cut off nowhere from itself. -/
theorem refl (x : Except ε α) : CutShort E x x := .inl rfl

/-- One step after the other: a run that is cut off in its first step is cut off. -/
theorem bind {f g : α → Except ε β} (h : CutShort E x y) (hfg : ∀ a, CutShort E (f a) (g a)) :
    CutShort E (x >>= f) (y >>= g) := by
  rcases h with rfl | ⟨e, rfl, he⟩
  · cases x with
    | error e => exact .inl rfl
    | ok a => exact hfg a
  · exact .inr ⟨e, rfl, he⟩

/-- Both begin with the same step. -/
theorem after (x : Except ε α) {f g : α → Except ε β} (hfg : ∀ a, CutShort E (f a) (g a)) :
    CutShort E (x >>= f) (x >>= g) :=
  (refl x).bind hfg

/-- What is not cut off is the same. -/
theorem eq_of_not (h : CutShort E x y) (hx : ∀ e, x = .error e → ¬ E e) : x = y := by
  rcases h with h | ⟨e, he, hcut⟩
  · exact h
  · exact absurd hcut (hx e he)

end CutShort

end Outcomes

namespace Resolver

variable {α β : Type} {s s' : ResolveState}

/-- Two steps of a resolution succeed when both do, the second one from where the first
    one ended. -/
theorem bind_eq_ok {x : Resolver α} {f : α → Resolver β} {b : β} :
    (x >>= f) s = .ok (b, s') ↔ ∃ a t, x s = .ok (a, t) ∧ f a t = .ok (b, s') := by
  show (x s >>= fun p => f p.1 p.2) = .ok (b, s') ↔ _
  rw [OctoAsm.bind_eq_ok]
  simp

/-- Two steps of a resolution fail at the first one or at the second one. -/
theorem bind_eq_error {x : Resolver α} {f : α → Resolver β} {e : ResolveError} :
    (x >>= f) s = .error e ↔ x s = .error e ∨ ∃ a t, x s = .ok (a, t) ∧ f a t = .error e := by
  show (x s >>= fun p => f p.1 p.2) = .error e ↔ _
  rw [OctoAsm.bind_eq_error]
  simp

/-- Giving a result leaves the state alone. -/
@[simp] theorem pure_eq_ok {a b : α} :
    (pure a : Resolver α) s = .ok (b, s') ↔ a = b ∧ s = s' := by
  show (Except.ok (a, s) : Except ResolveError _) = .ok (b, s') ↔ _
  simp

/-- Failing is no success. -/
@[simp] theorem fail_ne_ok {e : ResolveError} {b : α} : (fail e : Resolver α) s ≠ .ok (b, s') := by
  simp [fail]

/-- Looking at the state leaves it alone. -/
theorem get_eq_ok {t : ResolveState} : (get : Resolver ResolveState) s = .ok (t, s') ↔
    s = t ∧ s = s' := by
  show (Except.ok (s, s) : Except ResolveError _) = .ok (t, s') ↔ _
  simp

/-- Looking something up changes nothing. -/
theorem look_eq_ok {scope : Scope} {f : Env → Except ResolveError α} {b : α} :
    look scope f s = .ok (b, s') ↔ f ⟨s.names, scope⟩ = .ok b ∧ s = s' := by
  unfold look
  split
  · rename_i a h; simp [h]
  · rename_i e h; simp [h]

/-- A declaration succeeds just when the table takes the name, and the table is all that changes. -/
theorem declare_eq_ok {name : Token} {b : Binding} {u : Unit} :
    declare name b s = .ok (u, s') ↔
      ∃ names, s.names.declare name.text b = .ok names ∧ { s with names } = s' := by
  unfold declare
  split
  · rename_i names h; simp [h]
  · rename_i e h; simp [h]

/-- A rule is declared just when the table takes it, and the table is all that changes. -/
theorem declareRule_eq_ok {name : Token} {rule : CharRule} {u : Unit} :
    declareRule name rule s = .ok (u, s') ↔
      ∃ names, s.names.declareRule name.text rule = .ok names ∧ { s with names } = s' := by
  unfold declareRule
  split
  · rename_i names h; simp [h]
  · rename_i e h; simp [h]
  · rename_i e h; simp [h]

/-- Starting an invocation only adds to the log. -/
theorem startCall_eq_ok {name : String} {n : Int} :
    startCall name s = .ok (n, s') ↔
      n = (s.log.lookup name).getD 0 + 1 ∧ s' = { s with log := (name, n) :: s.log } := by
  simp only [startCall, Except.ok.injEq, Prod.mk.injEq]
  constructor
  · rintro ⟨rfl, rfl⟩; exact ⟨rfl, rfl⟩
  · rintro ⟨rfl, rfl⟩; exact ⟨rfl, rfl⟩

end Resolver

end OctoAsm
