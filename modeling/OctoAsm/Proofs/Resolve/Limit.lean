/-
  The limit on nested expansions only cuts off.

  Two resolutions under different limits go through the same steps until the smaller limit is
  reached, and there the one stops that has it.  `CutBy E x y` says this of two runs: they end
  alike, or the first stops with a failure in `E`.  It is kept by running one step after the other,
  so one walk over the statements carries it from bodies to programs, whatever bodies are expanded
  with; the induction at the end is on the number of expansions that may still be nested
  (`expandWithin_cut`).
-/
import OctoAsm.Proofs.Resolve.Derivation

namespace OctoAsm

/-! ## Runs that are cut off -/

/-- The two runs end alike, or the first is cut off. -/
def Resolver.CutBy {α : Type} (E : ResolveError → Prop) (x y : Resolver α) : Prop :=
  ∀ s, x s = y s ∨ ∃ e, x s = .error e ∧ E e

namespace Resolver.CutBy

variable {α β : Type} {E : ResolveError → Prop} {x y : Resolver α}

theorem refl (x : Resolver α) : CutBy E x x := fun _ => .inl rfl

/-- One step after the other: what the first one is cut off by ends the run. -/
theorem bind {f g : α → Resolver β} (h : CutBy E x y) (hfg : ∀ a, CutBy E (f a) (g a)) :
    CutBy E (x >>= f) (y >>= g) := by
  intro s
  have hs : CutShort E (x s) (y s) := h s
  exact hs.bind fun p => hfg p.1 p.2

/-- Both runs make the same step first. -/
theorem after (x : Resolver α) {f g : α → Resolver β} (hfg : ∀ a, CutBy E (f a) (g a)) :
    CutBy E (x >>= f) (x >>= g) :=
  (refl x).bind hfg

end Resolver.CutBy

open Resolver (CutBy)

/-- The first expander expands like the second, or is cut off. -/
def Expander.CutBy (E : ResolveError → Prop) (expand expand' : Expander) : Prop :=
  ∀ name frame outer body,
    Resolver.CutBy E (expand name frame outer body) (expand' name frame outer body)

section Walk

variable {E : ResolveError → Prop} {expand expand' : Expander}

/-! ## Invocations -/

/-- By induction on the characters, each of which is expanded under the smaller or the greater
    limit. -/
theorem expandChars_cut (hexp : expand.CutBy E expand') (scope : Scope) (name text : Token)
    (rules : List CharRule) (calls : Int) (index : Nat) (cs : List Char) : CutBy E
      (expandChars expand scope name text rules calls index cs)
      (expandChars expand' scope name text rules calls index cs) := by
  induction cs generalizing index with
  | nil => exact .refl _
  | cons c cs ih =>
    unfold expandChars
    cases coveringRule? rules c with
    | none => exact .refl _
    | some covering =>
      refine (hexp name _ scope covering.1.body).bind fun xs => ?_
      exact (ih (index + 1)).bind fun ys => .refl _

/-- A string is counted alike, and then spelled. -/
theorem expandStringMode_cut (hexp : expand.CutBy E expand') (scope : Scope) (name : Token)
    (rules : List CharRule) (args : List Token) :
    CutBy E (expandStringMode expand scope name rules args)
      (expandStringMode expand' scope name rules args) := by
  rcases args with _ | ⟨arg, _ | ⟨arg', rest⟩⟩
  · exact .refl _
  · refine .after _ fun text => ?_
    split
    · exact .after _ fun calls => expandChars_cut hexp scope name text rules calls 0 _
    · exact .refl _
  · exact .refl _

/-- A macro is counted alike, and its body expanded. -/
theorem expandMacro_cut (hexp : expand.CutBy E expand') (scope : Scope) (name : Token)
    (params : List Token) (body : List Statement) (args : List Token) : CutBy E
      (expandMacro expand scope name params body args)
      (expandMacro expand' scope name params body args) := by
  unfold expandMacro
  split
  · exact .after _ fun calls => hexp name _ scope body
  · exact .refl _

/-- An invocation finds the same binding on both sides. -/
theorem resolveInvocation_cut (hexp : expand.CutBy E expand') (scope : Scope) (name : Token)
    (args : List Token) : CutBy E (resolveInvocation expand scope name args)
      (resolveInvocation expand' scope name args) := by
  refine .after _ fun target => ?_
  split
  · refine .after _ fun s => ?_
    cases s.names.get? target.text with
    | none => exact .refl _
    | some b =>
      cases b with
      | macroDef params body => exact expandMacro_cut hexp scope target params body args
      | stringMode rules => exact expandStringMode_cut hexp scope target rules args
      | _ => exact .refl _
  · exact .refl _

/-- A bare name finds the same binding on both sides. -/
theorem resolveCall_cut (hexp : expand.CutBy E expand') (scope : Scope) (name : Token) :
    CutBy E (resolveCall expand scope name) (resolveCall expand' scope name) := by
  refine .after _ fun target => ?_
  cases target.kind with
  | name =>
    refine .after _ fun s => ?_
    cases s.names.get? target.text with
    | none => exact .refl _
    | some b =>
      cases b with
      | macroDef params body => exact resolveInvocation_cut hexp scope name []
      | stringMode rules => exact resolveInvocation_cut hexp scope name []
      | _ => exact .refl _
  | _ => exact .refl _

/-! ## Statements -/

mutual

/-- By recursion on the statement, together with the walks over blocks and loops. -/
theorem resolveStatement_cut (hexp : expand.CutBy E expand') : ∀ (st : Statement) (scope : Scope),
    CutBy E (resolveStatement expand scope st) (resolveStatement expand' scope st)
  | .simple _, _ | .declaration _, _ | .label _, _ | .macroDef .., _ | .stringMode .., _
  | .breakIf .., _ => .refl _
  | .next _ _ st, scope =>
    .after _ fun _ => .after _ fun _ => (resolveStatement_cut hexp st scope).bind fun _ => .refl _
  | .invoke name args, scope => resolveInvocation_cut hexp scope name args
  | .call name, scope => resolveCall_cut hexp scope name
  | .ifThen _ _ body, scope | .whileDo _ _ body, scope =>
    .after _ fun _ => (resolveStatement_cut hexp body scope).bind fun _ => .refl _
  | .ifBegin _ _ body, scope =>
    .after _ fun _ => (resolveBlock_cut hexp body scope).bind fun _ => .refl _
  | .ifElse _ _ body otherwise, scope =>
    .after _ fun _ => (resolveBlock_cut hexp body scope).bind fun _ =>
      (resolveBlock_cut hexp otherwise scope).bind fun _ => .refl _
  | .loop _ body, scope => (resolveLoop_cut hexp body scope).bind fun _ => .refl _

/-- **Statements are cut off only where an expansion in them is.** -/
theorem resolveBlock_cut (hexp : expand.CutBy E expand') :
    ∀ (body : List Statement) (scope : Scope),
    CutBy E (resolveBlock expand scope body) (resolveBlock expand' scope body)
  | [], _ => .refl _
  | st :: rest, scope =>
    (resolveStatement_cut hexp st scope).bind fun _ =>
      (resolveBlock_cut hexp rest scope).bind fun _ => .refl _

theorem resolveLoop_cut (hexp : expand.CutBy E expand') :
    ∀ (body : List Statement) (scope : Scope),
    CutBy E (resolveLoop expand scope body) (resolveLoop expand' scope body)
  | [], _ => .refl _
  | st :: rest, scope => by
    by_cases hleave : ∃ token condition, st = .breakIf token condition ∧ rest = []
    · obtain ⟨token, condition, rfl, rfl⟩ := hleave
      exact .refl _
    · rw [resolveLoop_cons hleave, resolveLoop_cons hleave]
      exact (resolveStatement_cut hexp st scope).bind fun _ =>
        (resolveLoop_cut hexp rest scope).bind fun _ => .refl _

end

end Walk

/-! ## Limits -/

/-- Expansions nest too deeply. -/
def ResolveError.IsTooDeep (e : ResolveError) : Prop := ∃ limit, e.cause = .tooDeep limit

/-- With more expansions to nest, bodies expand in the same way; with fewer, they may be cut off. -/
theorem expandWithin_cut (limit limit' : Nat) {depth depth' : Nat} (h : depth ≤ depth') :
    (expandWithin limit depth).CutBy ResolveError.IsTooDeep (expandWithin limit' depth') := by
  induction depth generalizing depth' with
  | zero => exact fun name _ _ _ _ => .inr ⟨_, rfl, limit, rfl⟩
  | succ depth ih =>
    obtain ⟨depth', rfl⟩ : ∃ k, depth' = k + 1 := Nat.exists_eq_add_one.mpr (by omega)
    exact fun _ frame outer body => resolveBlock_cut (ih (by omega)) body (frame :: outer)

/-- A program that is not cut off by a limit resolves in the same way under a greater one. -/
theorem resolve_of_le {options : Options} {program : List Statement} {limit limit' : Nat}
    (hle : limit ≤ limit')
    (h : ∀ e, resolve { options with maxExpansionDepth := limit } program = .error e →
      ¬ e.IsTooDeep) :
    resolve { options with maxExpansionDepth := limit' } program =
      resolve { options with maxExpansionDepth := limit } program := by
  simp only [resolve, resolveWith] at h ⊢
  cases hdefined : defineAll [] options.defines with
  | error e => rfl
  | ok defined =>
    rw [hdefined] at h
    simp only [ok_bind] at h ⊢
    cases hlabelled : collectBlockLabels defined program with
    | error e => rfl
    | ok labelled =>
      rw [hlabelled] at h
      simp only [ok_bind] at h ⊢
      rcases resolveBlock_cut (expandWithin_cut limit limit' hle) program [] ⟨labelled, []⟩ with
        heq | ⟨e, he, hdeep⟩
      · rw [heq]
      · rw [he] at h
        exact absurd hdeep (h e rfl)

end OctoAsm
