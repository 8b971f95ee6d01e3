/-
  The expansion of a macro is the substitution of its arguments in the text of its body.

  The body of a macro is read once, before any argument is known, and a name in it is looked up anew
  at every use.  The other way round, the arguments are put into the text first and the new text is
  read and resolved where the invocation stands (`expansion_substitutes`).  Both give the same items,
  as long as the body declares nothing, expands nothing and does not ask for the number of the
  invocation.  Only the sites differ: an item that begins with a parameter is placed at the parameter
  in the first case and at the argument in the second.

  The induction is on the text of the body (`Reads.outside`).  It carries along which token comes
  next, since an argument in place of a name may make that another kind of token (`Follows`).
-/
import OctoAsm.Proofs.Program
import OctoAsm.Proofs.Resolve.Arguments
import OctoAsm.Proofs.Resolve.Derivation
import OctoAsm.Proofs.Statement.Reading

namespace OctoAsm

/-! ## Sites -/

/-- The site of one of the tokens, and its site with the arguments put in. -/
def SiteOf (args : List (String × Token)) (tokens : List Token) (x y : Site) : Prop :=
  ∃ t ∈ tokens, x = t.site ∧ y = (putIn args t).site

/-- A token of the body and what is put in its place are sites of each other. -/
theorem siteOf_of_mem {args : List (String × Token)} {tokens : List Token} {t : Token}
    (ht : t ∈ tokens) : SiteOf args tokens t.site (putIn args t).site := ⟨t, ht, rfl, rfl⟩

/-! ## Bodies without declarations and expansions -/

/-- The token names a macro or a stringmode. -/
def NameTable.expands (names : NameTable) (t : Token) : Bool :=
  t.kind == .name && match names.get? t.text with
    | some (.macroDef ..) | some (.stringMode _) => true
    | _ => false

mutual

/-- The statement declares nothing and invokes nothing, also with the arguments put in. -/
def Statement.plain (names : NameTable) (args : List (String × Token)) : Statement → Bool
  | .simple _ | .breakIf .. => true
  | .declaration _ | .label _ | .next .. | .macroDef .. | .stringMode .. => false
  | .invoke name _ | .call name => !names.expands (putIn args name)
  | .ifThen _ _ body | .whileDo _ _ body => body.plain names args
  | .ifBegin _ _ body | .loop _ body => plainAll names args body
  | .ifElse _ _ body otherwise => plainAll names args body && plainAll names args otherwise

/-- The statements declare nothing and invoke nothing, also with the arguments put in. -/
def plainAll (names : NameTable) (args : List (String × Token)) : List Statement → Bool
  | [] => true
  | st :: rest => st.plain names args && plainAll names args rest

end

theorem plainAll_singleton {names : NameTable} {args : List (String × Token)} {st : Statement} :
    plainAll names args [st] = st.plain names args := by
  simp [plainAll]

/-! ## What follows -/

/-- The kind of what follows, before and after the arguments are put in: a name may become anything,
    and the brace that closes the body is gone. -/
inductive Follows : Option TokenKind → Option TokenKind → Prop where
  | refl {next} : Follows next next
  | name {next} : Follows (some .name) next
  | brace : Follows (some .closeBrace) none

/-- What a text is followed by, after its own first token or after nothing. -/
theorem Follows.lead {next next' : Option TokenKind} (h : Follows next next')
    (args : List (String × Token)) (ts : List Token) :
    Follows (lead ts next) (lead (ts.map (putIn args)) next') := by
  cases ts with
  | nil => exact h
  | cons t ts =>
    rw [List.map_cons, lead_cons, lead_cons]
    by_cases hkind : t.kind = .name
    · rw [hkind]; exact .name
    · rw [putIn_of_ne hkind]; exact .refl

/-- No argument is put in place of `again`, so it is told in both texts alike. -/
theorem Follows.again {next' : Option TokenKind} (h : Follows (some (.keyword .again)) next') :
    next' = some (.keyword .again) := by
  cases h; rfl

/-- What ends the arguments of an invocation is no name, and stays as it is. -/
theorem Follows.endsArguments {next next' : Option TokenKind} (h : Follows next next')
    (hnext : endsArguments next = true) : endsArguments next' = true := by
  cases h with
  | refl => exact hnext
  | name => cases hnext
  | brace => rfl

/-- Line feeds are not parameters. -/
theorem Feeds.map {nls : List Token} (h : Feeds nls) (args : List (String × Token)) :
    Feeds (nls.map (putIn args)) := by
  intro u hu
  obtain ⟨t, ht, rfl⟩ := List.mem_map.mp hu
  exact kind_putIn (h t ht) nofun

/-- The end of a line stays one when arguments are put in. -/
theorem LineEnd.map {feed : List Token} {next next' : Option TokenKind} (h : LineEnd feed next)
    (hnext : Follows next next') (args : List (String × Token)) :
    LineEnd (feed.map (putIn args)) next' := by
  cases h with
  | feed ht => exact .feed (kind_putIn ht nofun)
  | input => cases hnext; exact .input
  | brace =>
    cases hnext with
    | refl => exact .brace
    | brace => exact .input

/-! ## Loops, blocks and statements -/

section Loops

variable {expand : Expander} {scope : Scope} {s t : ResolveState} {items : List Item}
  {leave : Option Cond} {st : Statement} {sts : List Statement}

/-- A condition that leaves the loop ends its body. -/
theorem resolveLoop_breakIf {token : Token} {condition : Condition} :
    resolveLoop expand scope [.breakIf token condition] s = .ok ((items, leave), t) ↔
      ∃ cond, Env.condition ⟨s.names, scope⟩ condition = .ok cond ∧ items = [] ∧
        leave = some cond ∧ t = s := by
  constructor
  · intro h
    obtain ⟨cond, u, hlook, h⟩ := Resolver.bind_eq_ok.mp h
    obtain ⟨hcond, rfl⟩ := Resolver.look_eq_ok.mp hlook
    obtain ⟨heq, rfl⟩ := Resolver.pure_eq_ok.mp h
    obtain ⟨rfl, rfl⟩ := Prod.mk.inj heq
    exact ⟨cond, hcond, rfl, rfl, rfl⟩
  · rintro ⟨cond, hcond, rfl, rfl, rfl⟩
    exact Resolver.bind_eq_ok.mpr ⟨cond, _, Resolver.look_eq_ok.mpr ⟨hcond, rfl⟩, rfl⟩

/-- A statement by itself, as the body of a loop. -/
theorem resolveLoop_statement (h : resolveLoop expand scope [st] s = .ok ((items, leave), t))
    (hst : ∀ token cond, st ≠ .breakIf token cond) :
    leave = none ∧ resolveStatement expand scope st s = .ok (items, t) := by
  rw [resolveLoop_cons (fun ⟨token, cond, heq, _⟩ => hst token cond heq)] at h
  obtain ⟨xs, u, hxs, h⟩ := Resolver.bind_eq_ok.mp h
  obtain ⟨⟨ys, leave'⟩, v, hys, h⟩ := Resolver.bind_eq_ok.mp h
  obtain ⟨hnil, rfl⟩ := Resolver.pure_eq_ok.mp hys
  obtain ⟨rfl, rfl⟩ := Prod.mk.inj hnil
  obtain ⟨heq, rfl⟩ := Resolver.pure_eq_ok.mp h
  obtain ⟨rfl, rfl⟩ := Prod.mk.inj heq
  exact ⟨rfl, by rwa [List.append_nil]⟩

/-- A loop of one statement, which is no `while`. -/
theorem resolveLoop_singleton :
    resolveLoop expand scope [st] s = .ok ((items, none), t) ↔
      resolveStatement expand scope st s = .ok (items, t) := by
  constructor
  · intro h
    refine (resolveLoop_statement h ?_).2
    rintro token condition rfl
    obtain ⟨cond, -, -, hleave, -⟩ := resolveLoop_breakIf.mp h
    cases hleave
  · intro h
    have hst : ¬ ∃ token cond, st = .breakIf token cond ∧ [] = ([] : List Statement) := by
      rintro ⟨token, cond, rfl, -⟩
      cases h
    rw [resolveLoop_cons hst, ← List.append_nil items]
    exact Resolver.bind_eq_ok.mpr ⟨items, t, h, Resolver.bind_eq_ok.mpr ⟨([], none), t, rfl, rfl⟩⟩

/-- A body statement by statement: only the last may leave the loop. -/
theorem resolveLoop_cons_eq_ok :
    resolveLoop expand scope (st :: sts) s = .ok ((items, leave), t) ↔
      ∃ xs first u ys last, resolveLoop expand scope [st] s = .ok ((xs, first), u) ∧
        resolveLoop expand scope sts u = .ok ((ys, last), t) ∧ (first = none ∨ sts = []) ∧
        items = xs ++ ys ∧ leave = first.or last := by
  constructor
  · intro h
    -- the first statement leaves the loop only if nothing stands behind it
    by_cases hst : ∃ token cond, st = .breakIf token cond ∧ sts = []
    · obtain ⟨token, cond, rfl, rfl⟩ := hst
      exact ⟨items, leave, t, [], none, h, rfl, .inr rfl, by simp, by simp⟩
    · rw [resolveLoop_cons hst] at h
      obtain ⟨xs, u, hxs, h⟩ := Resolver.bind_eq_ok.mp h
      obtain ⟨⟨ys, last⟩, v, hys, h⟩ := Resolver.bind_eq_ok.mp h
      obtain ⟨heq, rfl⟩ := Resolver.pure_eq_ok.mp h
      obtain ⟨rfl, rfl⟩ := Prod.mk.inj heq
      exact ⟨xs, none, u, ys, _, resolveLoop_singleton.mpr hxs, hys, .inl rfl, rfl, rfl⟩
  · rintro ⟨xs, first, u, ys, last, hxs, hys, hfirst, rfl, rfl⟩
    obtain rfl | rfl := hfirst
    · have hstatement := resolveLoop_singleton.mp hxs
      have hst : ¬ ∃ token cond, st = .breakIf token cond ∧ sts = [] := by
        rintro ⟨token, cond, rfl, -⟩
        cases hstatement
      rw [resolveLoop_cons hst]
      exact Resolver.bind_eq_ok.mpr
        ⟨xs, u, hstatement, Resolver.bind_eq_ok.mpr ⟨(ys, last), t, hys, rfl⟩⟩
    -- a loop that is left at once has no further statements
    · obtain ⟨heq, rfl⟩ := Resolver.pure_eq_ok.mp hys
      obtain ⟨rfl, rfl⟩ := Prod.mk.inj heq
      rwa [List.append_nil, Option.or_none]

/-- A body that no condition leaves is a block. -/
theorem resolveLoop_none :
    resolveLoop expand scope sts s = .ok ((items, none), t) ↔
      resolveBlock expand scope sts s = .ok (items, t) := by
  induction sts generalizing s items with
  | nil =>
    show (pure ([], none) : Resolver (List Item × Option Cond)) s = _ ↔
      (pure [] : Resolver (List Item)) s = _
    simp
  | cons st sts ih =>
    constructor
    · intro h
      obtain ⟨xs, first, u, ys, last, hxs, hys, -, rfl, hleave⟩ := resolveLoop_cons_eq_ok.mp h
      obtain ⟨rfl, rfl⟩ := Option.or_eq_none_iff.mp hleave.symm
      exact Resolver.bind_eq_ok.mpr ⟨xs, u, resolveLoop_singleton.mp hxs,
        Resolver.bind_eq_ok.mpr ⟨ys, t, ih.mp hys, rfl⟩⟩
    · intro h
      obtain ⟨xs, u, hxs, h⟩ := Resolver.bind_eq_ok.mp h
      obtain ⟨ys, v, hys, h⟩ := Resolver.bind_eq_ok.mp h
      obtain ⟨rfl, rfl⟩ := Resolver.pure_eq_ok.mp h
      exact resolveLoop_cons_eq_ok.mpr
        ⟨xs, none, u, ys, none, resolveLoop_singleton.mpr hxs, ih.mpr hys, .inl rfl, rfl, rfl⟩

/-- A simple statement is resolved by its environment and leaves the state alone. -/
theorem resolveStatement_simple_eq_ok {simple : Simple} :
    resolveStatement expand scope (.simple simple) s = .ok (items, t) ↔
      ∃ token leaf, Env.simple ⟨s.names, scope⟩ simple = .ok (token, leaf) ∧
        items = [.leaf token.site leaf] ∧ t = s := by
  constructor
  · intro h
    obtain ⟨⟨token, leaf⟩, u, hlook, h⟩ := Resolver.bind_eq_ok.mp h
    obtain ⟨hs, rfl⟩ := Resolver.look_eq_ok.mp hlook
    obtain ⟨rfl, rfl⟩ := Resolver.pure_eq_ok.mp h
    exact ⟨token, leaf, hs, rfl, rfl⟩
  · rintro ⟨token, leaf, hs, rfl, rfl⟩
    exact Resolver.bind_eq_ok.mpr ⟨_, _, Resolver.look_eq_ok.mpr ⟨hs, rfl⟩, rfl⟩

/-- Statements behind a condition: the condition is looked up first. -/
theorem guarded_eq_ok {condition : Condition} {α : Type} {run : Resolver α}
    {make : Cond → α → List Item} :
    (do let cond ← Resolver.look scope (·.condition condition)
        let result ← run
        return make cond result : Resolver (List Item)) s = .ok (items, t) ↔
      ∃ cond result, Env.condition ⟨s.names, scope⟩ condition = .ok cond ∧
        run s = .ok (result, t) ∧ items = make cond result := by
  constructor
  · intro h
    obtain ⟨cond, u, hlook, h⟩ := Resolver.bind_eq_ok.mp h
    obtain ⟨hcond, rfl⟩ := Resolver.look_eq_ok.mp hlook
    obtain ⟨result, u, hrun, h⟩ := Resolver.bind_eq_ok.mp h
    obtain ⟨rfl, rfl⟩ := Resolver.pure_eq_ok.mp h
    exact ⟨cond, result, hcond, hrun, rfl⟩
  · rintro ⟨cond, result, hcond, hrun, rfl⟩
    exact Resolver.bind_eq_ok.mpr ⟨cond, s, Resolver.look_eq_ok.mpr ⟨hcond, rfl⟩,
      Resolver.bind_eq_ok.mpr ⟨result, t, hrun, rfl⟩⟩

/-- Both bodies are resolved in turn, behind the condition. -/
theorem resolveStatement_ifElse_eq_ok {token : Token} {condition : Condition}
    {body otherwise : List Statement} :
    resolveStatement expand scope (.ifElse token condition body otherwise) s = .ok (items, t) ↔
      ∃ cond xs u ys, Env.condition ⟨s.names, scope⟩ condition = .ok cond ∧
        resolveBlock expand scope body s = .ok (xs, u) ∧
        resolveBlock expand scope otherwise u = .ok (ys, t) ∧
        items = [.ifElse token.site cond xs ys] := by
  constructor
  · intro h
    obtain ⟨cond, u, hlook, h⟩ := Resolver.bind_eq_ok.mp h
    obtain ⟨hcond, rfl⟩ := Resolver.look_eq_ok.mp hlook
    obtain ⟨xs, u, hxs, h⟩ := Resolver.bind_eq_ok.mp h
    obtain ⟨ys, v, hys, h⟩ := Resolver.bind_eq_ok.mp h
    obtain ⟨rfl, rfl⟩ := Resolver.pure_eq_ok.mp h
    exact ⟨cond, xs, u, ys, hcond, hxs, hys, rfl⟩
  · rintro ⟨cond, xs, u, ys, hcond, hxs, hys, rfl⟩
    exact Resolver.bind_eq_ok.mpr ⟨cond, s, Resolver.look_eq_ok.mpr ⟨hcond, rfl⟩,
      Resolver.bind_eq_ok.mpr ⟨xs, u, hxs, Resolver.bind_eq_ok.mpr ⟨ys, t, hys, rfl⟩⟩⟩

/-- The item of a loop: with a condition that leaves it, or without. -/
def loopItem (site : Site) (items : List Item) : Option Cond → Item
  | none => .loop site items
  | some cond => .loopUntil site items cond

/-- A loop is resolved with the condition at its end. -/
theorem resolveStatement_loop_eq_ok {token : Token} {body : List Statement} :
    resolveStatement expand scope (.loop token body) s = .ok (items, t) ↔
      ∃ xs leave, resolveLoop expand scope body s = .ok ((xs, leave), t) ∧
        items = [loopItem token.site xs leave] := by
  constructor
  · intro h
    obtain ⟨⟨xs, leave⟩, u, hxs, h⟩ := Resolver.bind_eq_ok.mp h
    cases leave with
    | none | some cond =>
      obtain ⟨rfl, rfl⟩ := Resolver.pure_eq_ok.mp h
      exact ⟨xs, _, hxs, rfl⟩
  · rintro ⟨xs, leave, hxs, rfl⟩
    refine Resolver.bind_eq_ok.mpr ⟨(xs, leave), t, hxs, ?_⟩
    cases leave <;> rfl

end Loops

/-! ## Texts with the arguments put in -/

/-- The text with the arguments put in is a way to write `count` statements, which resolve outside of
    expansions to items like the given ones. -/
def ReadsOutside (names : NameTable) (args : List (String × Token)) (tokens : List Token)
    (part : Part) (ts : List Token) (next : Option TokenKind) (count : Nat) (items : List Item)
    (leave : Option Cond) : Prop :=
  ∃ sts items', Reads part (ts.map (putIn args)) sts next ∧ sts.length = count ∧
    (∀ expand log, resolveLoop expand [] sts ⟨names, log⟩ = .ok ((items', leave), ⟨names, log⟩)) ∧
    Alike (SiteOf args tokens) items items'

section Outside

variable {names : NameTable} {args : List (String × Token)} {tokens ts : List Token} {part : Part}
  {b : Bool} {next : Option TokenKind} {n : Nat} {items items' : List Item} {leave : Option Cond}
  {st : Statement}

/-- A statement that reads as one after the arguments are put in, and resolves to items that are
    alike. -/
theorem ReadsOutside.of_statement (htext : Reads (.statement b) (ts.map (putIn args)) [st] next)
    (hres : ∀ expand log,
      resolveStatement expand [] st ⟨names, log⟩ = .ok (items', ⟨names, log⟩))
    (halike : Alike (SiteOf args tokens) items items') :
    ReadsOutside names args tokens (.statement b) ts next 1 items none :=
  ⟨[st], items', htext, rfl, fun expand log => resolveLoop_singleton.mpr (hres expand log), halike⟩

theorem ReadsOutside.statement (h : ReadsOutside names args tokens part ts next 1 items none) :
    ∃ st items', Reads part (ts.map (putIn args)) [st] next ∧
      (∀ expand log, resolveStatement expand [] st ⟨names, log⟩ = .ok (items', ⟨names, log⟩)) ∧
      Alike (SiteOf args tokens) items items' := by
  obtain ⟨sts, items', htext, hcount, hres, halike⟩ := h
  obtain ⟨st, rfl⟩ := List.length_eq_one_iff.mp hcount
  exact ⟨st, items', htext, fun expand log => resolveLoop_singleton.mp (hres expand log), halike⟩

theorem ReadsOutside.block (h : ReadsOutside names args tokens part ts next n items none) :
    ∃ sts items', Reads part (ts.map (putIn args)) sts next ∧
      (∀ expand log, resolveBlock expand [] sts ⟨names, log⟩ = .ok (items', ⟨names, log⟩)) ∧
      Alike (SiteOf args tokens) items items' := by
  obtain ⟨sts, items', htext, -, hres, halike⟩ := h
  exact ⟨sts, items', htext, fun expand log => resolveLoop_none.mp (hres expand log), halike⟩

/-- A simple statement, resolved in the environment outside to the same leaf. -/
theorem ReadsOutside.simple {s : Simple} {token : Token} {leaf : Leaf}
    (htext : Reads (.statement b) (ts.map (putIn args)) [.simple s] next)
    (hs : Env.simple ⟨names, []⟩ s = .ok (putIn args token, leaf)) (htoken : token ∈ tokens) :
    ReadsOutside names args tokens (.statement b) ts next 1 [.leaf token.site leaf] none :=
  .of_statement htext
    (fun _ _ => resolveStatement_simple_eq_ok.mpr ⟨_, leaf, hs, rfl, rfl⟩)
    (.leaf (siteOf_of_mem htoken) .nil)

section Nested

variable {word : Token} {cs nls us : List Token} {condition : Condition} {cond : Cond}
  (hcond : ConditionText (cs.map (putIn args)) condition)
  (hc : Env.condition ⟨names, []⟩ condition = .ok cond)

include hcond hc

/-- `if then`, given the statement inside. -/
theorem ReadsOutside.ifThen {thn : Token} (hword : word ∈ tokens)
    (hkind : word.kind = .keyword .ifWord) (hthn : thn.kind = .keyword .thenWord) (hnls : Feeds nls)
    (h : ReadsOutside names args tokens (.statement false) ts next 1 items none) :
    ReadsOutside names args tokens (.statement b) (word :: (cs ++ thn :: (nls ++ ts))) next 1
      [.ifThen word.site cond items] none := by
  obtain ⟨st, items', htext, hres, halike⟩ := h.statement
  have hread : Reads (.statement b) ((word :: (cs ++ thn :: (nls ++ ts))).map (putIn args))
      [.ifThen (putIn args word) condition st] next := by
    simp only [List.map_cons, List.map_append]
    exact .ifThen (kind_putIn hkind nofun) hcond (kind_putIn hthn nofun) (hnls.map args) htext
  exact .of_statement hread
    (fun expand log => guarded_eq_ok.mpr ⟨cond, items', hc, hres expand log, rfl⟩)
    (.ifThen (siteOf_of_mem hword) halike .nil)

/-- `while`, given the statement inside. -/
theorem ReadsOutside.whileDo (hword : word ∈ tokens) (hkind : word.kind = .keyword .whileWord)
    (hnls : Feeds nls)
    (h : ReadsOutside names args tokens (.statement false) ts next 1 items none) :
    ReadsOutside names args tokens (.statement b) (word :: (cs ++ (nls ++ ts))) next 1
      [.whileDo word.site cond items] none := by
  obtain ⟨st, items', htext, hres, halike⟩ := h.statement
  have hread : Reads (.statement b) ((word :: (cs ++ (nls ++ ts))).map (putIn args))
      [.whileDo (putIn args word) condition st] next := by
    simp only [List.map_cons, List.map_append]
    exact .whileDo (kind_putIn hkind nofun) hcond (hnls.map args) htext
  exact .of_statement hread
    (fun expand log => guarded_eq_ok.mpr ⟨cond, items', hc, hres expand log, rfl⟩)
    (.whileDo (siteOf_of_mem hword) halike .nil)

/-- `if begin`, given the body. -/
theorem ReadsOutside.ifBegin {bgn fin : Token} (hword : word ∈ tokens)
    (hkind : word.kind = .keyword .ifWord) (hbgn : bgn.kind = .keyword .beginWord) (hfin : fin.kind = .keyword .endWord)
    (h : ReadsOutside names args tokens (.body false) ts (some (.keyword .endWord)) n items none) :
    ReadsOutside names args tokens (.statement b) (word :: (cs ++ bgn :: (ts ++ [fin]))) next 1
      [.ifBegin word.site cond items] none := by
  obtain ⟨body, items', htext, hres, halike⟩ := h.block
  have hread : Reads (.statement b) ((word :: (cs ++ bgn :: (ts ++ [fin]))).map (putIn args))
      [.ifBegin (putIn args word) condition body] next := by
    simp only [List.map_cons, List.map_append, List.map_nil]
    exact .ifBegin (kind_putIn hkind nofun) hcond (kind_putIn hbgn nofun) htext
      (kind_putIn hfin nofun)
  exact .of_statement hread
    (fun expand log => guarded_eq_ok.mpr ⟨cond, items', hc, hres expand log, rfl⟩)
    (.ifBegin (siteOf_of_mem hword) halike .nil)

/-- `if begin else`, given both bodies. -/
theorem ReadsOutside.ifElse {bgn els fin : Token} {m : Nat} {others : List Item}
    (hword : word ∈ tokens) (hkind : word.kind = .keyword .ifWord)
    (hbgn : bgn.kind = .keyword .beginWord) (hels : els.kind = .keyword .elseWord)
    (hfin : fin.kind = .keyword .endWord)
    (h : ReadsOutside names args tokens (.body false) ts (some (.keyword .elseWord)) n items none)
    (h' : ReadsOutside names args tokens (.body false) us (some (.keyword .endWord)) m others none) :
    ReadsOutside names args tokens (.statement b)
      (word :: (cs ++ bgn :: (ts ++ els :: (us ++ [fin])))) next 1
      [.ifElse word.site cond items others] none := by
  obtain ⟨body, items', htext, hres, halike⟩ := h.block
  obtain ⟨otherwise, others', hother, hres', halike'⟩ := h'.block
  have hread : Reads (.statement b)
      ((word :: (cs ++ bgn :: (ts ++ els :: (us ++ [fin])))).map (putIn args))
      [.ifElse (putIn args word) condition body otherwise] next := by
    simp only [List.map_cons, List.map_append, List.map_nil]
    exact .ifElse (kind_putIn hkind nofun) hcond (kind_putIn hbgn nofun) htext
      (kind_putIn hels nofun) hother (kind_putIn hfin nofun)
  exact .of_statement hread
    (fun expand log => resolveStatement_ifElse_eq_ok.mpr
      ⟨cond, items', _, others', hc, hres expand log, hres' expand log, rfl⟩)
    (.ifElse (siteOf_of_mem hword) halike halike' .nil)

/-- A condition that leaves the loop is still the last statement of its body. -/
theorem ReadsOutside.breakIf {thn : Token} (hkind : word.kind = .keyword .ifWord)
    (hthn : thn.kind = .keyword .thenWord) (hnls : Feeds nls) :
    ReadsOutside names args tokens (.statement true) (word :: (cs ++ thn :: nls))
      (some (.keyword .again)) 1 [] (some cond) := by
  refine ⟨[.breakIf (putIn args word) condition], [], ?_, rfl, fun expand log => ?_, .nil⟩
  · simp only [List.map_cons, List.map_append]
    exact .breakIf (kind_putIn hkind nofun) hcond (kind_putIn hthn nofun) (hnls.map args)
  · exact resolveLoop_breakIf.mpr ⟨cond, hc, rfl, rfl, rfl⟩

end Nested

/-- A loop, given its body and the condition at its end. -/
theorem ReadsOutside.loop {word again : Token} (hword : word ∈ tokens)
    (hkind : word.kind = .keyword .loop) (hagain : again.kind = .keyword .again)
    (h : ReadsOutside names args tokens (.body true) ts (some (.keyword .again)) n items leave) :
    ReadsOutside names args tokens (.statement b) (word :: (ts ++ [again])) next 1
      [loopItem word.site items leave] none := by
  obtain ⟨body, items', htext, -, hres, halike⟩ := h
  have hread : Reads (.statement b) ((word :: (ts ++ [again])).map (putIn args))
      [.loop (putIn args word) body] next := by
    simp only [List.map_cons, List.map_append, List.map_nil]
    exact .loop (kind_putIn hkind nofun) htext (kind_putIn hagain nofun)
  refine .of_statement hread
    (fun expand log => resolveStatement_loop_eq_ok.mpr ⟨items', leave, hres expand log, rfl⟩) ?_
  cases leave with
  | none => exact .loop (siteOf_of_mem hword) halike .nil
  | some cond => exact .loopUntil (siteOf_of_mem hword) halike .nil

/-- Statements in a row; only the last one may leave the loop. -/
theorem ReadsOutside.more {nls us : List Token} {xs ys : List Item} {first last : Option Cond}
    (hnls : Feeds nls) (hfirst : first = none ∨ n = 0)
    (h : ReadsOutside names args tokens (.statement b) ts (lead (us.map (putIn args)) next) 1 xs
      first)
    (hs : ReadsOutside names args tokens (.body b) us next n ys last) :
    ReadsOutside names args tokens (.body b) (nls ++ (ts ++ us)) next (n + 1) (xs ++ ys)
      (first.or last) := by
  obtain ⟨sts₁, xs', htext, hone, hres, halike⟩ := h
  obtain ⟨st, rfl⟩ := List.length_eq_one_iff.mp hone
  obtain ⟨sts, ys', hrest, hcount, hres', halike'⟩ := hs
  have hlast : first = none ∨ sts = [] :=
    hfirst.imp_right fun hzero => List.eq_nil_of_length_eq_zero (hcount.trans hzero)
  refine ⟨st :: sts, xs' ++ ys', ?_, by simp [hcount], fun expand log => ?_, halike.append halike'⟩
  · simp only [List.map_append]
    exact .more (hnls.map args) htext hrest
  · exact resolveLoop_cons_eq_ok.mpr
      ⟨xs', first, _, ys', last, hres expand log, hres' expand log, hlast, rfl, rfl⟩

end Outside

section Run

variable {names : NameTable} {frame : Frame} {tokens : List Token} {expand : Expander}
  {log : List (String × Int)} {items : List Item} {t : ResolveState}

/-- Nothing but a macro or a stringmode can be invoked. -/
theorem resolveInvocation_ne_ok (hexp : expand.Derives) (hchars : frame.chars = none)
    {name : Token} {args : List Token} (hname : name.kind = .name)
    (hplain : names.expands (putIn frame.args name) = false) :
    resolveInvocation expand [frame] name args ⟨names, log⟩ ≠ .ok (items, t) := by
  intro h
  obtain ⟨tasks, s₁, hstart, -⟩ := resolveInvocation_derivation hexp h
  cases hstart with
  | macroDef htarget hkind hbound | stringMode htarget hkind hbound =>
    rw [substitute_inside hchars (by simp [hname])] at htarget
    obtain rfl := substitute_outside htarget
    simp [NameTable.expands, hkind, hbound] at hplain

/-- A name alone that stands for a name. -/
theorem resolveCall_eq {scope : Scope} {s : ResolveState} {name target : Token}
    (htarget : Env.substitute ⟨s.names, scope⟩ name = .ok target) (hkind : target.kind = .name) :
    resolveCall expand scope name s =
      (match s.names.get? target.text with
        | some (.macroDef ..) | some (.stringMode _) => resolveInvocation expand scope name []
        | some (.label _) => return [.leaf name.site (.instr (.addr .call (.label target.text)))]
        | some _ => do
          let imm ← Resolver.look scope (·.imm 12 (.named name))
          return [.leaf name.site (.instr (.addr .call imm))]
        | none => Resolver.fail (target.blame .undeclared)) s := by
  have hlook : Resolver.look scope (·.substitute name) s = .ok (target, s) :=
    Resolver.look_eq_ok.mpr ⟨htarget, rfl⟩
  show (Resolver.look scope (·.substitute name) s >>= fun p => _) = _
  rw [hlook, ok_bind, hkind]
  rfl

/-- A name alone that expands nothing is a call or a byte, and so is the argument in its place. -/
theorem call_outside (hchars : frame.chars = none) {name : Token} (hname : name.kind = .name)
    (hplain : names.expands (putIn frame.args name) = false)
    (h : resolveCall expand [frame] name ⟨names, log⟩ = .ok (items, t)) :
    t = ⟨names, log⟩ ∧ ∃ st leaf, items = [.leaf name.site leaf] ∧
      (∀ b next, endsArguments next = true →
        Reads (.statement b) [putIn frame.args name] [st] next) ∧
      ∀ expand log, resolveStatement expand [] st ⟨names, log⟩ =
        .ok ([.leaf (putIn frame.args name).site leaf], ⟨names, log⟩) := by
  -- the name stands for the same thing inside as its argument does outside
  have hcalls : name.kind ≠ .constant .calls := by simp [hname]
  obtain ⟨target, u, hlook, hcall⟩ := Resolver.bind_eq_ok.mp h
  obtain ⟨hinside, rfl⟩ := Resolver.look_eq_ok.mp hlook
  have houtside : Env.substitute ⟨names, []⟩ (putIn frame.args name) = .ok target := by
    rw [← substitute_inside hchars hcalls]
    exact hinside
  obtain rfl := substitute_outside houtside
  -- what the argument is decides: a number is a byte, a name is a call
  cases hkind : (putIn frame.args name).kind with
  | number n =>
    rw [hkind] at hcall
    obtain ⟨v, u, hlook, hcall⟩ := Resolver.bind_eq_ok.mp hcall
    obtain ⟨hv, rfl⟩ := Resolver.look_eq_ok.mp hlook
    obtain ⟨rfl, rfl⟩ := Resolver.pure_eq_ok.mp hcall
    refine ⟨rfl, .simple (.datum _ n), .byte v, rfl, fun b next _ => .inline (.datum hkind), ?_⟩
    intro expand log
    have hsimple : Env.simple ⟨names, []⟩ (.datum (putIn frame.args name) n) =
        .ok (putIn frame.args name, .byte v) := bind_eq_ok.mpr ⟨v, hv, rfl⟩
    exact resolveStatement_simple_eq_ok.mpr ⟨_, _, hsimple, rfl, rfl⟩
  | name =>
    rw [resolveCall_eq hinside hkind] at h
    cases hbound : names.get? (putIn frame.args name).text with
    | none => rw [hbound] at h; cases h
    | some binding =>
      rw [hbound] at h
      cases binding with
      -- a name that expands was excluded
      | macroDef | stringMode => simp [NameTable.expands, hkind, hbound] at hplain
      | label next =>
        obtain ⟨rfl, rfl⟩ := Resolver.pure_eq_ok.mp h
        refine ⟨rfl, .call (putIn frame.args name), _, rfl,
          fun b next hnext => .call hkind hnext, fun expand log => ?_⟩
        rw [resolveStatement, resolveCall_eq houtside hkind, hbound]
        rfl
      -- any other name is called as an address, which has the same value outside
      | _ =>
        obtain ⟨v, u, hlook, h⟩ := Resolver.bind_eq_ok.mp h
        obtain ⟨hv, rfl⟩ := Resolver.look_eq_ok.mp hlook
        obtain ⟨rfl, rfl⟩ := Resolver.pure_eq_ok.mp h
        refine ⟨rfl, .call (putIn frame.args name), _, rfl,
          fun b next hnext => .call hkind hnext, fun expand log => ?_⟩
        rw [resolveStatement, resolveCall_eq houtside hkind, hbound]
        have hv' := imm_named_inside hchars hcalls hv
        exact Resolver.bind_eq_ok.mpr ⟨v, _, Resolver.look_eq_ok.mpr ⟨hv', rfl⟩, rfl⟩
  | _ => rw [hkind] at hcall; cases hcall

/-- **What resolves inside an expansion resolves outside of it with the arguments put in.**  Nothing is
    declared on the way, so all statements see the same names. -/
theorem Reads.outside (hexp : expand.Derives) (hchars : frame.chars = none)
    (hcalls : ∀ t ∈ tokens, t.kind ≠ .constant .calls) {part : Part} {ts : List Token}
    {sts : List Statement} {next : Option TokenKind} (htext : Reads part ts sts next)
    (hts : ∀ t ∈ ts, t ∈ tokens) {next' : Option TokenKind} (hnext : Follows next next')
    (hplain : plainAll names frame.args sts = true) {leave : Option Cond}
    (h : resolveLoop expand [frame] sts ⟨names, log⟩ = .ok ((items, leave), t)) :
    t = ⟨names, log⟩ ∧
      ReadsOutside names frame.args tokens part ts next' sts.length items leave := by
  induction htext generalizing next' items leave t with
  | @inline b ts s next htext =>
    obtain ⟨rfl, hst⟩ := resolveLoop_statement h (by simp)
    obtain ⟨token, leaf, hs, rfl, rfl⟩ := resolveStatement_simple_eq_ok.mp hst
    obtain ⟨hmem, s', htext', hs'⟩ :=
      inline_inside hchars htext (fun t ht => hcalls t (hts t ht)) hs
    exact ⟨rfl, .simple (.inline htext') hs' (hts token hmem)⟩
  | @line b ts st feed next htext hend =>
    rw [plainAll_singleton] at hplain
    -- All other statements of this form are declarations.
    obtain ⟨s, rfl⟩ : ∃ s, st = .simple s := by
      cases htext with
      | label | aliasRegister | aliasBraced | const | calcName => cases hplain
      | _ => exact ⟨_, rfl⟩
    obtain ⟨rfl, hst⟩ := resolveLoop_statement h (by simp)
    obtain ⟨token, leaf, hs, rfl, rfl⟩ := resolveStatement_simple_eq_ok.mp hst
    have hline : ∀ t ∈ ts, t ∈ tokens := fun t ht => hts t (List.mem_append_left _ ht)
    obtain ⟨hmem, s', htext', hs'⟩ :=
      line_inside hchars htext (fun t ht => hcalls t (hline t ht)) hs
    have hread : Reads (.statement b) ((ts ++ feed).map (putIn frame.args)) [.simple s'] next' := by
      rw [List.map_append]
      exact .line htext' (hend.map hnext _)
    exact ⟨rfl, .simple hread hs' (hline token hmem)⟩
  | @call b name next hname hends =>
    rw [plainAll_singleton] at hplain
    obtain ⟨rfl, hst⟩ := resolveLoop_statement h (by simp)
    obtain ⟨rfl, st, leaf, rfl, hread, hres⟩ :=
      call_outside hchars hname (by simpa [Statement.plain] using hplain) hst
    exact ⟨rfl, .of_statement (hread b next' (hnext.endsArguments hends)) hres
      (.leaf (siteOf_of_mem (hts name (by simp))) .nil)⟩
  | @invoke b name arg args next hname hargs hop hends =>
    rw [plainAll_singleton] at hplain
    obtain ⟨rfl, hst⟩ := resolveLoop_statement h (by simp)
    exact absurd hst
      (resolveInvocation_ne_ok hexp hchars hname (by simpa [Statement.plain] using hplain))
  | next | macroDef | stringMode => cases hplain
  | @ifThen b word cs cond thn nls ts st next hword hcond hthn hnls htext ih =>
    rw [plainAll_singleton, Statement.plain, ← plainAll_singleton] at hplain
    obtain ⟨rfl, hst⟩ := resolveLoop_statement h (by simp)
    obtain ⟨c, xs, hc, hxs, rfl⟩ := guarded_eq_ok.mp hst
    obtain ⟨cond', hcond', hc'⟩ := condition_inside hchars hcond
      (fun t ht => hcalls t (hts t (by simp [ht]))) hc
    obtain ⟨rfl, hbody⟩ := ih (fun t ht => hts t (by simp [ht])) hnext hplain
      (resolveLoop_singleton.mpr hxs)
    exact ⟨rfl, .ifThen hcond' hc' (hts word (by simp)) hword hthn hnls hbody⟩
  | @breakIf word cs cond thn nls hword hcond hthn hnls =>
    obtain ⟨c, hc, rfl, rfl, rfl⟩ := resolveLoop_breakIf.mp h
    obtain ⟨cond', hcond', hc'⟩ := condition_inside hchars hcond
      (fun t ht => hcalls t (hts t (by simp [ht]))) hc
    obtain rfl := hnext.again
    exact ⟨rfl, .breakIf hcond' hc' hword hthn hnls⟩
  | @ifBegin b word cs cond bgn ts body fin next hword hcond hbgn htext hfin ih =>
    rw [plainAll_singleton, Statement.plain] at hplain
    obtain ⟨rfl, hst⟩ := resolveLoop_statement h (by simp)
    obtain ⟨c, xs, hc, hxs, rfl⟩ := guarded_eq_ok.mp hst
    obtain ⟨cond', hcond', hc'⟩ := condition_inside hchars hcond
      (fun t ht => hcalls t (hts t (by simp [ht]))) hc
    obtain ⟨rfl, hbody⟩ := ih (fun t ht => hts t (by simp [ht])) .refl hplain
      (resolveLoop_none.mpr hxs)
    exact ⟨rfl, .ifBegin hcond' hc' (hts word (by simp)) hword hbgn hfin hbody⟩
  | @ifElse b word cs cond bgn ts body els us otherwise fin next hword hcond hbgn htext hels hother
      hfin ih ih' =>
    rw [plainAll_singleton, Statement.plain, Bool.and_eq_true] at hplain
    obtain ⟨rfl, hst⟩ := resolveLoop_statement h (by simp)
    obtain ⟨c, xs, u, ys, hc, hxs, hys, rfl⟩ := resolveStatement_ifElse_eq_ok.mp hst
    obtain ⟨cond', hcond', hc'⟩ := condition_inside hchars hcond
      (fun t ht => hcalls t (hts t (by simp [ht]))) hc
    obtain ⟨rfl, hbody⟩ := ih (fun t ht => hts t (by simp [ht])) .refl hplain.1
      (resolveLoop_none.mpr hxs)
    obtain ⟨rfl, hotherwise⟩ := ih' (fun t ht => hts t (by simp [ht])) .refl hplain.2
      (resolveLoop_none.mpr hys)
    exact ⟨rfl, .ifElse hcond' hc' (hts word (by simp)) hword hbgn hels hfin hbody hotherwise⟩
  | @loop b word ts body again next hword htext hagain ih =>
    rw [plainAll_singleton, Statement.plain] at hplain
    obtain ⟨rfl, hst⟩ := resolveLoop_statement h (by simp)
    obtain ⟨xs, leave, hxs, rfl⟩ := resolveStatement_loop_eq_ok.mp hst
    obtain ⟨rfl, hbody⟩ := ih (fun t ht => hts t (by simp [ht])) .refl hplain hxs
    exact ⟨rfl, .loop (hts word (by simp)) hword hagain hbody⟩
  | @whileDo b word cs cond nls ts st next hword hcond hnls htext ih =>
    rw [plainAll_singleton, Statement.plain, ← plainAll_singleton] at hplain
    obtain ⟨rfl, hst⟩ := resolveLoop_statement h (by simp)
    obtain ⟨c, xs, hc, hxs, rfl⟩ := guarded_eq_ok.mp hst
    obtain ⟨cond', hcond', hc'⟩ := condition_inside hchars hcond
      (fun t ht => hcalls t (hts t (by simp [ht]))) hc
    obtain ⟨rfl, hbody⟩ := ih (fun t ht => hts t (by simp [ht])) hnext hplain
      (resolveLoop_singleton.mpr hxs)
    exact ⟨rfl, .whileDo hcond' hc' (hts word (by simp)) hword hnls hbody⟩
  | @done b nls next hnls =>
    obtain ⟨heq, rfl⟩ := Resolver.pure_eq_ok.mp h
    obtain ⟨rfl, rfl⟩ := Prod.mk.inj heq
    exact ⟨rfl, [], [], .done (hnls.map _), rfl, fun expand log => rfl, .nil⟩
  | @more b nls ts st us sts next hnls htext hrest ih ihs =>
    rw [plainAll, Bool.and_eq_true, ← plainAll_singleton] at hplain
    obtain ⟨xs, first, u, ys, last, hxs, hys, hfirst, rfl, rfl⟩ := resolveLoop_cons_eq_ok.mp h
    -- The first statement ends where it did, though another kind of token may come next.
    obtain ⟨rfl, hhead⟩ := ih (fun t ht => hts t (by simp [ht])) (hnext.lead frame.args us)
      hplain.1 hxs
    obtain ⟨rfl, htail⟩ := ihs (fun t ht => hts t (by simp [ht])) hnext hplain.2 hys
    exact ⟨rfl, .more hnls (hfirst.imp_right (by simp)) hhead htail⟩

end Run

/-! ## Macros -/

/-- The text between the braces of a macro is that of its body. -/
theorem reads_macro_body {word name o c : Token} {params tokens : List Token}
    {body : List Statement}
    (h : parse (word :: name :: (params ++ o :: (tokens ++ [c]))) =
      .ok [.macroDef word name params body]) (hc : c.kind = .closeBrace) :
    Reads (.body false) tokens body (some .closeBrace) := by
  have hreads := parse_eq_ok.mp h
  generalize htext : word :: name :: (params ++ o :: (tokens ++ [c])) = text at hreads
  cases hreads with
  | @more b nls ts st us sts next hnls hst hrest =>
    have hus : Feeds us := by
      cases hrest with
      | done hnls => exact hnls
    cases hst with
    | line hline => cases hline
    | @macroDef b word name params o' ts body c' feed next hword hname hparams ho hbody hc' hend =>
      -- No line feed stands before the macro, and nothing else after it.
      cases nls with
      | cons t nls =>
        obtain ⟨rfl, -⟩ := List.cons.inj htext
        have hfeed := hnls word (by simp)
        rw [hword] at hfeed
        cases hfeed
      | nil =>
        simp only [List.nil_append, List.cons_append, List.append_assoc, List.cons.injEq, true_and,
          List.append_cancel_left_eq] at htext
        obtain ⟨-, htext⟩ := htext
        have hfeeds : ∀ t ∈ feed ++ us, t.kind = .newline := by
          intro t ht
          exact (List.mem_append.mp ht).elim (hend.feeds t) (hus t)
        obtain hnil | ⟨rest, last, hlast⟩ := List.eq_nil_or_concat (feed ++ us)
        · rw [hnil] at htext
          obtain ⟨rfl, -⟩ := List.append_inj' htext rfl
          exact hbody
        · have hlast' : tokens ++ [c] = (ts ++ c' :: rest) ++ [last] := by
            rw [htext, hlast]
            simp
          obtain ⟨-, hcc⟩ := List.append_inj' hlast' rfl
          obtain rfl := List.singleton_inj.mp hcc
          have hfeed := hfeeds c (by simp [hlast])
          rw [hc] at hfeed
          cases hfeed

/-- The statement of a name with its arguments. -/
def Statement.invocation (name : Token) : List Token → Statement
  | [] => .call name
  | arg :: args => .invoke name (arg :: args)

/-- The invocation of a macro resolves its body with the arguments in scope. -/
theorem invocation_eq_ok {limit depth : Nat} {s t : ResolveState} {items : List Item} {name : Token}
    {params args : List Token} {body : List Statement} (hname : name.kind = .name)
    (hbound : s.names.get? name.text = some (.macroDef params body))
    (h : resolveStatement (expandWithin limit depth) [] (.invocation name args) s = .ok (items, t)) :
    ∃ inner calls, resolveBlock (expandWithin limit inner)
      [⟨(params.map (·.text)).zip args, calls, none⟩] body
      ⟨s.names, (name.text, calls) :: s.log⟩ = .ok (items, t) := by
  have hself : Env.substitute ⟨s.names, []⟩ name = .ok name := substitute_self (by simp [hname])
  -- a name without arguments is invoked as a bare word, but resolves in the same way
  have hinvoke : resolveInvocation (expandWithin limit depth) [] name args s = .ok (items, t) := by
    cases args with
    | nil =>
      rw [Statement.invocation, resolveStatement, resolveCall_eq hself hname, hbound] at h
      exact h
    | cons arg args => exact h
  obtain ⟨target, u, hlook, hexpand⟩ := Resolver.bind_eq_ok.mp hinvoke
  obtain ⟨htarget, rfl⟩ := Resolver.look_eq_ok.mp hlook
  obtain rfl := substitute_outside htarget
  rw [if_pos hname] at hexpand
  obtain ⟨u, v, hget, hexpand⟩ := Resolver.bind_eq_ok.mp hexpand
  obtain ⟨rfl, rfl⟩ := Resolver.get_eq_ok.mp hget
  rw [hbound] at hexpand
  simp only [expandMacro] at hexpand
  split at hexpand
  · obtain ⟨calls, u, hstart, hexpand⟩ := Resolver.bind_eq_ok.mp hexpand
    obtain ⟨-, rfl⟩ := Resolver.startCall_eq_ok.mp hstart
    -- the limit leaves room for one more expansion, as this one succeeded
    cases depth with
    | zero => cases hexpand
    | succ inner => exact ⟨inner, calls, hexpand⟩
  · cases hexpand

/-- **The expansion of a macro is the substitution of its arguments.**  The tokens between the braces
    of a macro are its body, which declares nothing, invokes nothing (not through an argument either)
    and does not ask for the number of the invocation.  If an invocation resolves, then the tokens
    parse with all arguments put in at once, and the result resolves where the invocation stands, to
    the same items at every depth.  Only an item whose first token is a parameter changes its site:
    it has that of the parameter when it is expanded, and that of the argument when it is put in. -/
theorem expansion_substitutes {limit depth : Nat} {s t : ResolveState} {items : List Item}
    {word macroName o c name : Token} {params tokens args : List Token} {body : List Statement}
    (hparse : parse (word :: macroName :: (params ++ o :: (tokens ++ [c]))) =
      .ok [.macroDef word macroName params body]) (hclose : c.kind = .closeBrace)
    (hname : name.kind = .name)
    (hbound : s.names.get? name.text = some (.macroDef params body))
    (hplain : plainAll s.names ((params.map (·.text)).zip args) body = true)
    (hcalls : ∀ t ∈ tokens, t.kind ≠ .constant .calls)
    (h : resolveStatement (expandWithin limit depth) [] (.invocation name args) s = .ok (items, t)) :
    ∃ body' items', parse (tokens.map (putIn ((params.map (·.text)).zip args))) = .ok body' ∧
      resolveBlock (expandWithin limit depth) [] body' s = .ok (items', s) ∧
      Alike (SiteOf ((params.map (·.text)).zip args) tokens) items items' := by
  obtain ⟨inner, calls, hbody⟩ := invocation_eq_ok hname hbound h
  -- the body was read before the arguments were known; its text is what they are put into
  have htext := reads_macro_body hparse hclose
  obtain ⟨-, hout⟩ := htext.outside (expandWithin_derives limit inner) rfl hcalls
    (fun _ ht => ht) .brace hplain (resolveLoop_none.mpr hbody)
  obtain ⟨body', items', hreads, hres, halike⟩ := hout.block
  exact ⟨body', items', parse_eq_ok.mpr hreads, hres _ s.log, halike⟩

/-- The body of a macro `:macro bump p q`: `if p == q begin p += q end`. -/
def bumpText : List Token :=
  [⟨1, .keyword .ifWord, "if"⟩, ⟨1, .name, "p"⟩, ⟨1, .operator .eq, "=="⟩, ⟨1, .name, "q"⟩,
    ⟨1, .keyword .beginWord, "begin"⟩, ⟨1, .name, "p"⟩, ⟨1, .operator .addAssign, "+="⟩,
    ⟨1, .name, "q"⟩, ⟨1, .keyword .endWord, "end"⟩]

/-- The parameters of `bump`. -/
def bumpParams : List Token := [⟨1, .name, "p"⟩, ⟨1, .name, "q"⟩]

/-- The statements of `bumpText`. -/
def bumpBody : List Statement :=
  [.ifBegin ⟨1, .keyword .ifWord, "if"⟩
    (.compare (.named ⟨1, .name, "p"⟩) .eq (.named ⟨1, .name, "q"⟩))
    [.simple (.assign (.ambiguous ⟨1, .name, "p"⟩ (.named ⟨1, .name, "p"⟩) .add ⟨1, .name, "q"⟩))]]

/-- The arguments of `bump v1 7`, two lines below the macro. -/
def bumpArgs : List Token := [⟨3, .register (.v (vReg 1)), "v1"⟩, ⟨3, .number 7, "7"⟩]

/-- Where only `bump` is bound. -/
def bumpState : ResolveState := ⟨[("bump", .macroDef bumpParams bumpBody)], []⟩

/-- The item of `bump v1 7`, its inner item at the given site. -/
def bumpItem (site : Site) : Item :=
  .ifBegin ⟨1, "if"⟩ (.compare (vReg 1) .eq (.imm (.number 7)) (vReg 15))
    [.leaf site (.instr (.regImm .addi (vReg 1) (.number 7)))]

/-- A macro that adds one parameter to the other under a condition, expanded and written out. -/
theorem expansion_substitutes_bump :
    parse (⟨1, .directive .macroDef, ":macro"⟩ :: ⟨1, .name, "bump"⟩ ::
        (bumpParams ++ ⟨1, .openBrace, "\x7b"⟩ :: (bumpText ++ [⟨1, .closeBrace, "\x7d"⟩]))) =
      .ok [.macroDef ⟨1, .directive .macroDef, ":macro"⟩ ⟨1, .name, "bump"⟩ bumpParams bumpBody] ∧
    ∃ body' items', parse (bumpText.map (putIn ((bumpParams.map (·.text)).zip bumpArgs))) =
        .ok body' ∧
      resolveBlock (expandWithin 64 64) [] body' bumpState = .ok (items', bumpState) ∧
      Alike (SiteOf ((bumpParams.map (·.text)).zip bumpArgs) bumpText)
        [bumpItem ⟨1, "p"⟩] items' := by
  have hparse : parse (⟨1, .directive .macroDef, ":macro"⟩ :: ⟨1, .name, "bump"⟩ ::
        (bumpParams ++ ⟨1, .openBrace, "\x7b"⟩ :: (bumpText ++ [⟨1, .closeBrace, "\x7d"⟩]))) =
      .ok [.macroDef ⟨1, .directive .macroDef, ":macro"⟩ ⟨1, .name, "bump"⟩ bumpParams bumpBody] :=
    rfl
  have hinvoked : resolveStatement (expandWithin 64 64) []
      (.invocation ⟨3, .name, "bump"⟩ bumpArgs) bumpState =
      .ok ([bumpItem ⟨1, "p"⟩], ⟨bumpState.names, [("bump", 1)]⟩) := rfl
  exact ⟨hparse, expansion_substitutes hparse rfl rfl rfl rfl (by decide) hinvoked⟩

/-- An item without its own site; the items inside keep theirs. -/
def Item.unplaced : Item → Item
  | .leaf _ l => .leaf ⟨0, ""⟩ l
  | .ifThen _ cond body => .ifThen ⟨0, ""⟩ cond body
  | .ifBegin _ cond body => .ifBegin ⟨0, ""⟩ cond body
  | .ifElse _ cond body otherwise => .ifElse ⟨0, ""⟩ cond body otherwise
  | .loop _ body => .loop ⟨0, ""⟩ body
  | .loopUntil _ body cond => .loopUntil ⟨0, ""⟩ body cond
  | .whileDo _ cond body => .whileDo ⟨0, ""⟩ cond body

/-- The sites inside an item cannot be left out: an inner item that begins with a parameter is placed
    at the parameter by the expansion, and at the argument after the substitution. -/
theorem expansion_keeps_inner_sites :
    parse (⟨1, .directive .macroDef, ":macro"⟩ :: ⟨1, .name, "bump"⟩ ::
        (bumpParams ++ ⟨1, .openBrace, "\x7b"⟩ :: (bumpText ++ [⟨1, .closeBrace, "\x7d"⟩]))) =
      .ok [.macroDef ⟨1, .directive .macroDef, ":macro"⟩ ⟨1, .name, "bump"⟩ bumpParams bumpBody] ∧
    bumpState.names.get? "bump" = some (.macroDef bumpParams bumpBody) ∧
    plainAll bumpState.names ((bumpParams.map (·.text)).zip bumpArgs) bumpBody = true ∧
    (∀ t ∈ bumpText, t.kind ≠ .constant .calls) ∧
    ∃ items t body' items',
      resolveStatement (expandWithin 64 64) [] (.invocation ⟨3, .name, "bump"⟩ bumpArgs) bumpState =
        .ok (items, t) ∧
      parse (bumpText.map (putIn ((bumpParams.map (·.text)).zip bumpArgs))) = .ok body' ∧
      resolveBlock (expandWithin 64 64) [] body' bumpState = .ok (items', bumpState) ∧
      items.map Item.unplaced ≠ items'.map Item.unplaced := by
  refine ⟨rfl, rfl, rfl, by decide, [bumpItem ⟨1, "p"⟩], _, _, [bumpItem ⟨3, "v1"⟩], rfl, rfl, rfl,
    ?_⟩
  simp [bumpItem, Item.unplaced]

end OctoAsm
