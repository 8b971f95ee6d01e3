/-
  Where a loop is left.

  `if … then` without a statement leaves the loop around it, so it may stand only as the last statement
  of a loop's body.  The parser carries that permission along as a flag; here the flag is gone, and the
  bodies of a program are looked at as they are (`Within`): those of loops, and all others.  Every body
  that is found in a parsed program is a text of the grammar, which the induction goes by
  (`Within.reads`), and in such a text nothing but the word `again` follows a break
  (`Reads.break_last`).
-/
import OctoAsm.Proofs.Statement.Reading

namespace OctoAsm

/-! ## Bodies -/

/-- The bodies of a statement, each with whether it is that of a loop. -/
def Statement.bodies : Statement → List (Bool × List Statement)
  | .next _ _ st | .ifThen _ _ st | .whileDo _ _ st => [(false, [st])]
  | .macroDef _ _ _ body | .stringMode _ _ _ body | .ifBegin _ _ body => [(false, body)]
  | .ifElse _ _ body otherwise => [(false, body), (false, otherwise)]
  | .loop _ body => [(true, body)]
  | .simple _ | .declaration _ | .label _ | .invoke .. | .call _ | .breakIf .. => []

/-- The bodies of a program at any depth, the program itself among them, each with whether it is
    that of a loop. -/
inductive Within (program : List Statement) : Bool → List Statement → Prop where
  | program : Within program false program
  | inner {b body st b' body'} (h : Within program b body) (hst : st ∈ body)
      (hbody : (b', body') ∈ st.bodies) : Within program b' body'

/-- Breaks stand only at the very end of loops. -/
def BreaksEndLoops (program : List Statement) : Prop :=
  ∀ inLoop body, Within program inLoop body →
    ∀ front token cond rest, body = front ++ .breakIf token cond :: rest → inLoop = true ∧ rest = []

/-! ## Bodies of parsed programs -/

variable {b : Bool} {ts : List Token} {next : Option TokenKind} {st : Statement}
  {body : List Statement}

/-- One statement of a text, with the text of those behind it. -/
theorem Reads.of_append {front rest : List Statement}
    (h : Reads (.body b) ts (front ++ st :: rest) next) :
    ∃ us vs, us ⊆ ts ∧ Reads (.statement b) us [st] (lead vs next) ∧ Reads (.body b) vs rest next := by
  induction front generalizing ts with
  | nil =>
    cases h with
    | more _ hst hrest => exact ⟨_, _, by simp, hst, hrest⟩
  | cons st' front ih =>
    cases h with
    | more _ _ hrest =>
      obtain ⟨us, vs, hus, hst, hrest⟩ := ih hrest
      exact ⟨us, vs, fun t ht => by simp [hus ht], hst, hrest⟩

/-- A statement alone is a body. -/
theorem Reads.body_single (h : Reads (.statement b) ts [st] next) :
    Reads (.body b) ts [st] next := by
  have hbody : Reads (.body b) ([] ++ (ts ++ [])) [st] next := .more .nil h (.done .nil)
  rwa [List.nil_append, List.append_nil] at hbody

/-- The bodies of a statement are texts too, and only those of loops may hold breaks. -/
theorem Reads.inner {b' : Bool} {body' : List Statement} (h : Reads (.statement b) ts [st] next)
    (hbody : (b', body') ∈ st.bodies) :
    ∃ us next', us ⊆ ts ∧ Reads (.body b') us body' next' := by
  cases h with
  | inline | call | invoke | breakIf => cases hbody
  | line h => cases h <;> cases hbody
  | next _ _ _ h | ifThen _ _ _ _ h | whileDo _ _ _ h =>
    obtain ⟨rfl, rfl⟩ := Prod.mk.inj (List.mem_singleton.mp hbody)
    exact ⟨_, _, fun t ht => by simp [ht], h.body_single⟩
  | macroDef _ _ _ _ h | stringMode _ _ _ _ h | ifBegin _ _ _ h | loop _ h =>
    obtain ⟨rfl, rfl⟩ := Prod.mk.inj (List.mem_singleton.mp hbody)
    exact ⟨_, _, fun t ht => by simp [ht], h⟩
  | ifElse _ _ _ h _ h' =>
    rcases List.mem_cons.mp hbody with heq | hbody
    · obtain ⟨rfl, rfl⟩ := Prod.mk.inj heq
      exact ⟨_, _, fun t ht => by simp [ht], h⟩
    · obtain ⟨rfl, rfl⟩ := Prod.mk.inj (List.mem_singleton.mp hbody)
      exact ⟨_, _, fun t ht => by simp [ht], h'⟩

/-- Every body of a parsed program is a text of the grammar, with tokens of the program's. -/
theorem Within.reads {program : List Statement} (hprogram : Reads (.body false) ts program next)
    (h : Within program b body) : ∃ us next', us ⊆ ts ∧ Reads (.body b) us body next' := by
  induction h with
  | program => exact ⟨_, _, List.Subset.refl ts, hprogram⟩
  | inner _ hst hbody ih =>
    obtain ⟨us, next', hus, hreads⟩ := ih
    obtain ⟨front, rest, rfl⟩ := List.append_of_mem hst
    obtain ⟨vs, _, hvs, hst, -⟩ := hreads.of_append
    obtain ⟨ws, next'', hws, hinner⟩ := hst.inner hbody
    exact ⟨ws, next'', List.Subset.trans hws (List.Subset.trans hvs hus), hinner⟩

/-- In front of `again` there are no more statements. -/
theorem Reads.eq_nil_of_again (h : Reads (.body b) ts body next)
    (hlead : lead ts next = some (.keyword .again)) : body = [] := by
  cases h with
  | done => rfl
  | @more _ nls us _ vs _ _ hnls hst _ =>
    cases nls with
    | cons n nls =>
      -- a line feed comes first
      have hn : some n.kind = some (.keyword .again) := hlead
      rw [hnls n List.mem_cons_self] at hn
      cases hn
    | nil =>
      obtain ⟨t, us, rfl, hbegins⟩ := hst.begins
      have ht : some t.kind = some (.keyword .again) := hlead
      rw [Option.some.inj ht] at hbegins
      cases hbegins

/-- A break ends the body of a loop. -/
theorem Reads.break_last {front rest : List Statement} {token : Token} {cond : Condition}
    (h : Reads (.body b) ts (front ++ .breakIf token cond :: rest) next) : b = true ∧ rest = [] := by
  obtain ⟨us, vs, -, hbreak, hrest⟩ := h.of_append
  generalize hnext : lead vs next = kind at hbreak
  cases hbreak with
  | line h => cases h
  | breakIf => exact ⟨rfl, hrest.eq_nil_of_again hnext⟩

/-- **In a parsed program breaks stand only at the very end of loops.** -/
theorem breaksEndLoops_of_parse {program : List Statement} (h : parse ts = .ok program) :
    BreaksEndLoops program := by
  intro inLoop body hwithin front token cond rest hbody
  obtain ⟨us, next, -, hreads⟩ := hwithin.reads (parse_eq_ok.mp h)
  rw [hbody] at hreads
  exact hreads.break_last

end OctoAsm
