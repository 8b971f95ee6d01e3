/-
  The numbers of invocations.

  A `Record` follows a resolution step by step and writes down two things: which invocations have
  started, in order, and which frames have been opened, each with the invocation it belongs to.
  Both are read off the work that a step leaves to be done, so a frame of a stringmode belongs to
  the invocation that the string was given to, however many others have started since.

  The invariant is `Record.Sound`: the log of the resolver is the list of the invocations, newest
  first, the numbers in it have no gaps, and work that waits has the number of its invocation.  A
  statement either starts nothing and leaves the log alone, or it is an invocation and takes the
  number after the last one of its name (`statementWork_cases`); all else only hands numbers on.
-/
import OctoAsm.Proofs.Resolve.Depth

namespace OctoAsm

/-! ## Numbers without gaps -/

/-- The numbers that the invocations of a name have. -/
def numbersOf (name : String) (invocations : List (String × Int)) : List Int :=
  (invocations.filter (·.1 == name)).map (·.2)

/-- The numbers from 1 to `n`. -/
def oneTo (n : Nat) : List Int := (List.range n).map fun i : Nat => (i : Int) + 1

/-- In a log, newest first, every name has been given the numbers 1, 2, 3 and so on. -/
def Gapless (log : List (String × Int)) : Prop :=
  ∀ name, ∃ n, (numbersOf name log).reverse = oneTo n

theorem oneTo_succ (n : Nat) : oneTo (n + 1) = oneTo n ++ [(n : Int) + 1] := by
  simp [oneTo, List.range_succ]

/-- The numbers of a name, read the other way round. -/
theorem numbersOf_reverse (name : String) (invocations : List (String × Int)) :
    numbersOf name invocations.reverse = (numbersOf name invocations).reverse := by
  rw [numbersOf, numbersOf, List.filter_reverse, List.map_reverse]

/-- A log is asked for the newest entry of a name. -/
theorem lookup_eq_head_numbersOf (name : String) (log : List (String × Int)) :
    log.lookup name = (numbersOf name log).head? := by
  induction log with
  | nil => rfl
  | cons entry log ih =>
    obtain ⟨other, number⟩ := entry
    rw [List.lookup_cons, numbersOf, List.filter_cons]
    by_cases heq : other = name
    · subst heq
      simp
    · have hne : (name == other) = false := by simpa using Ne.symm heq
      have hne' : (other == name) = false := by simpa using heq
      simpa [hne, hne', numbersOf] using ih

/-- Where nothing has been invoked there are no gaps. -/
theorem Gapless.nil : Gapless [] := fun _ => ⟨0, rfl⟩

/-- **The next number of a name leaves no gap.** -/
theorem Gapless.next {log : List (String × Int)} (h : Gapless log) (name : String) :
    Gapless ((name, (log.lookup name).getD 0 + 1) :: log) := by
  intro other
  obtain ⟨n, hn⟩ := h other
  by_cases heq : name = other
  · subst heq
    have hnumber : (log.lookup name).getD 0 = n := by
      rw [lookup_eq_head_numbersOf, ← List.getLast?_reverse, hn]
      cases n with
      | zero => rfl
      | succ n => simp [oneTo_succ]
    refine ⟨n + 1, ?_⟩
    rw [oneTo_succ, ← hn, hnumber, numbersOf, List.filter_cons]
    simp [numbersOf]
  · refine ⟨n, ?_⟩
    rw [← hn, numbersOf, List.filter_cons]
    simp [heq, numbersOf]

/-! ## Invocations start -/

/-- The run gives no numbers. -/
def LeavesLog {α : Type} (x : Resolver α) : Prop := ∀ s a t, x s = .ok (a, t) → t.log = s.log

namespace LeavesLog

/-- Reading the table writes no invocation down. -/
theorem look {α : Type} (scope : Scope) (f : Env → Except ResolveError α) :
    LeavesLog (Resolver.look scope f) := by
  intro s a t h
  obtain ⟨-, rfl⟩ := Resolver.look_eq_ok.mp h
  rfl

/-- Neither does a declaration. -/
theorem declare (name : Token) (b : Binding) : LeavesLog (Resolver.declare name b) := by
  intro s u t h
  obtain ⟨names, -, rfl⟩ := Resolver.declare_eq_ok.mp h
  rfl

theorem declareRule (name : Token) (rule : CharRule) :
    LeavesLog (Resolver.declareRule name rule) := by
  intro s u t h
  obtain ⟨names, -, rfl⟩ := Resolver.declareRule_eq_ok.mp h
  rfl

theorem declareLabel (scope : Scope) (name : Token) (next : Bool) :
    LeavesLog (declareLabel scope name next) := by
  unfold OctoAsm.declareLabel
  split
  · intro s u t h
    obtain ⟨-, rfl⟩ := Resolver.pure_eq_ok.mp h
    rfl
  · exact .declare _ _

end LeavesLog

/-- Work that starts no invocation. -/
def Quiet (u : Resolver (List Work)) : Prop :=
  ∀ s todo t, u s = .ok (todo, t) → t.log = s.log ∧ ∀ w ∈ todo, w.invocation? = none

namespace Quiet

/-- Work without an invocation of its own hands no number on. -/
theorem done {todo : List Work} (h : ∀ w ∈ todo, w.invocation? = none) : Quiet (pure todo) := by
  intro s todo' t hok
  obtain ⟨rfl, rfl⟩ := Resolver.pure_eq_ok.mp hok
  exact ⟨rfl, h⟩

theorem nothing : Quiet (pure []) := .done (by simp)

/-- What is found out first starts no invocation, if it leaves the log alone. -/
theorem after {α : Type} {z : Resolver α} (hz : LeavesLog z) {u : α → Resolver (List Work)}
    (h : ∀ a, Quiet (u a)) : Quiet (z >>= u) := by
  intro s todo t hok
  obtain ⟨a, s', hrun, hu⟩ := Resolver.bind_eq_ok.mp hok
  obtain ⟨hlog, htodo⟩ := h a s' todo t hu
  exact ⟨hlog.trans (hz s a s' hrun), htodo⟩

end Quiet

/-- The work on a block is on statements, and those have no invocation yet. -/
theorem invocation?_of_mem_blockWork {scope : Scope} {body : List Statement} :
    ∀ w ∈ blockWork scope body, w.invocation? = none := forall_mem_blockWork fun _ => rfl

/-- The work on a loop is on statements and its condition. -/
theorem invocation?_of_mem_loopWork {scope : Scope} {body : List Statement} :
    ∀ w ∈ loopWork scope body, w.invocation? = none :=
  forall_mem_loopWork (fun _ => rfl) fun _ => rfl

/-- **A statement starts no invocation, or it is one.** -/
theorem statementWork_cases {scope : Scope} {st : Statement} {s t : ResolveState}
    {todo : List Work} (h : statementWork scope st s = .ok (todo, t)) :
    (t.log = s.log ∧ ∀ w ∈ todo, w.invocation? = none) ∨
      ∃ word, (st = .call word ∨ ∃ args, st = .invoke word args) ∧ Invoked scope word s todo t := by
  have hquiet : ∀ {u : Resolver (List Work)}, u s = .ok (todo, t) → Quiet u →
      (t.log = s.log ∧ ∀ w ∈ todo, w.invocation? = none) ∨
        ∃ word, (st = .call word ∨ ∃ args, st = .invoke word args) ∧
          Invoked scope word s todo t := fun hu hq => .inl (hq s todo t hu)
  cases st with
  | invoke word args => exact .inr ⟨word, .inr ⟨args, rfl⟩, invocationWork_eq_ok h⟩
  | call word =>
    rcases callWork_eq_ok h with ⟨hlog, rfl⟩ | hinvoked
    · exact .inl ⟨hlog, by simp⟩
    · exact .inr ⟨word, .inl rfl, invocationWork_eq_ok hinvoked⟩
  | simple => exact hquiet h (.after (.look _ _) fun _ => .nothing)
  | declaration d =>
    exact hquiet h (.after (.look _ _) fun _ => .after (.declare _ _) fun _ => .nothing)
  | label =>
    exact hquiet h (.after (.look _ _) fun _ => .after (.declareLabel _ _ _) fun _ => .nothing)
  | next =>
    exact hquiet h (.after (.look _ _) fun _ => .after (.declareLabel _ _ _) fun _ =>
      .done (by simp [Work.invocation?]))
  | macroDef => exact hquiet h (.after (.look _ _) fun _ => .after (.declare _ _) fun _ => .nothing)
  | stringMode =>
    exact hquiet h (.after (.look _ _) fun _ => .after (.declareRule _ _) fun _ => .nothing)
  | breakIf => cases h
  | ifThen | whileDo =>
    exact hquiet h (.after (.look _ _) fun _ => .done (by simp [Work.invocation?]))
  | ifBegin => exact hquiet h (.after (.look _ _) fun _ => .done invocation?_of_mem_blockWork)
  | ifElse token cond body otherwise =>
    exact hquiet h (.after (.look _ _) fun _ => .done
      (List.forall_mem_append.mpr ⟨invocation?_of_mem_blockWork, invocation?_of_mem_blockWork⟩))
  | loop => exact hquiet h (.done invocation?_of_mem_loopWork)

/-! ## Records -/

/-- A point of a resolution, and what has happened before. -/
structure Record where
  /-- each piece of work with the place, among `started`, of the invocation that left it -/
  todo : List (Work × Nat)
  depth : Nat
  state : ResolveState
  /-- the invocations so far, in the order in which they started -/
  started : List (String × Int)
  /-- the frames opened so far, each with the place of its invocation -/
  opened : List (Nat × Frame)

namespace Work

/-- The invocations that a piece of work starts by leaving this to be done: only statements start
    any, all else goes on with one. -/
def starts (todo : List Work) : Work → List (String × Int)
  | .statement .. => todo.filterMap invocation?
  | _ => []

/-- The place of the invocation that the new work is left by. -/
def owner (started : List (String × Int)) (place : Nat) : Work → Nat
  | .statement .. => started.length
  | _ => place

/-- The frames that a piece of work opens. -/
def opens (place : Nat) : Work → List (Nat × Frame)
  | .enter _ frame _ _ => [(place, frame)]
  | _ => []

end Work

namespace Record

/-- A step of the resolution is recorded. -/
inductive Step (limit : Nat) : Record → Record → Prop where
  | mk {w place rest depth s started opened todo depth' t}
      (h : w.step limit depth s = .ok ((todo, depth'), t)) :
      Step limit ⟨(w, place) :: rest, depth, s, started, opened⟩
        ⟨todo.map (·, w.owner started place) ++ rest, depth', t, started ++ w.starts todo,
          opened ++ w.opens place⟩

/-- Steps, one after the other. -/
abbrev Run (limit : Nat) : Record → Record → Prop := Relation.ReflTransGen (Step limit)

/-- The start of a resolution: no invocation, no frame. -/
def start (names : NameTable) (program : List Statement) : Record :=
  ⟨(blockWork [] program).map (·, 0), 0, ⟨names, []⟩, [], []⟩

/-- The point, without what has happened before. -/
def point (r : Record) : Point := ⟨r.todo.map (·.1), r.depth, r.state⟩

variable {limit : Nat} {p q r : Record}

/-- A record starts where the resolution starts. -/
@[simp] theorem point_start (names : NameTable) (program : List Statement) :
    (start names program).point = .start names program := by
  simp [start, point, Point.start, Function.comp_def]

/-- Writing down is all that a record adds to a step. -/
theorem Step.point (h : Step limit p q) : Point.Step limit p.point q.point := by
  cases h with
  | mk h => simpa [Record.point, Function.comp_def] using Point.Step.mk h

/-- By induction on the run. -/
theorem Run.point (h : Run limit p q) : Point.Run limit p.point q.point := by
  induction h with
  | refl => exact .refl
  | tail _ hstep ih => exact ih.tail hstep.point

/-- Every step of a resolution can be recorded. -/
theorem exists_step {y : Point} (h : Point.Step limit p.point y) :
    ∃ q, Step limit p q ∧ q.point = y := by
  obtain ⟨todo, depth, s, started, opened⟩ := p
  rcases todo with _ | ⟨⟨w, place⟩, rest⟩
  · cases h
  · cases h with
    | mk h => exact ⟨_, .mk h, by simp [Record.point, Function.comp_def]⟩

/-- Every run has a record: its steps can be written down one by one. -/
theorem exists_run {y : Point} (h : Point.Run limit p.point y) :
    ∃ q, Run limit p q ∧ q.point = y := by
  induction h with
  | refl => exact ⟨p, .refl, rfl⟩
  | tail _ hstep ih =>
    obtain ⟨q, hrun, rfl⟩ := ih
    obtain ⟨r, hnext, hr⟩ := exists_step hstep
    exact ⟨r, hrun.tail hnext, hr⟩

/-- The numbers in a record fit. -/
structure Sound (r : Record) : Prop where
  /-- the log has the invocations, newest first -/
  logged : r.state.log = r.started.reverse
  gapless : Gapless r.state.log
  /-- work that an invocation has left has its number -/
  pending : ∀ w place invocation, (w, place) ∈ r.todo → w.invocation? = some invocation →
    r.started[place]? = some invocation
  opened : ∀ place frame, (place, frame) ∈ r.opened →
    ∃ name, r.started[place]? = some (name, frame.calls)

/-- At the start nothing has been invoked, and no frame is open. -/
theorem sound_start (names : NameTable) (program : List Statement) :
    (start names program).Sound where
  logged := rfl
  gapless := .nil
  pending w place invocation hw hinvocation := by
    obtain ⟨w', hw', heq⟩ := List.mem_map.mp hw
    obtain ⟨rfl, rfl⟩ := Prod.mk.inj heq
    rw [invocation?_of_mem_blockWork w' hw'] at hinvocation
    cases hinvocation
  opened place frame h := by cases h

namespace Sound

/-- What has been written down keeps its place when more is written behind it. -/
theorem getElem?_append {invocations : List (String × Int)} {place : Nat}
    {invocation : String × Int} (h : invocations[place]? = some invocation)
    (more : List (String × Int)) : (invocations ++ more)[place]? = some invocation := by
  obtain ⟨hlt, -⟩ := List.getElem?_eq_some_iff.mp h
  rw [List.getElem?_append_left hlt, h]

/-- What a statement starts is written down, and the work left for it belongs to it. -/
theorem statement {scope : Scope} {st : Statement} {place depth : Nat} {rest : List (Work × Nat)}
    {s t : ResolveState} {started : List (String × Int)} {opened : List (Nat × Frame)}
    {todo : List Work} (h : Sound ⟨(.statement scope st, place) :: rest, depth, s, started, opened⟩)
    (hst : statementWork scope st s = .ok (todo, t)) :
    Sound ⟨todo.map (·, started.length) ++ rest, depth, t,
      started ++ todo.filterMap Work.invocation?, opened⟩ := by
  obtain ⟨hlogged, hgapless, hpending, hopened⟩ := h
  dsimp only at hlogged hgapless hpending hopened
  have hopened' : ∀ place frame, (place, frame) ∈ opened → ∃ name,
      (started ++ todo.filterMap Work.invocation?)[place]? = some (name, frame.calls) := by
    intro place frame hmem
    obtain ⟨name, hname⟩ := hopened place frame hmem
    exact ⟨name, getElem?_append hname _⟩
  have hrest : ∀ w place invocation, (w, place) ∈ rest → w.invocation? = some invocation →
      (started ++ todo.filterMap Work.invocation?)[place]? = some invocation := by
    intro w place invocation hmem hw
    exact getElem?_append (hpending w place invocation (.tail _ hmem) hw) _
  rcases statementWork_cases hst with ⟨hlog, hquiet⟩ | ⟨word, -, hinvoked⟩
  -- nothing has started: the log stays as it is, and so does the list
  · have hnone : todo.filterMap Work.invocation? = [] := by
      simpa [List.filterMap_eq_nil_iff] using hquiet
    refine ⟨by simp [hlog, hnone, hlogged], hlog ▸ hgapless, ?_, hopened'⟩
    intro w place invocation hmem hw
    rcases List.mem_append.mp hmem with hnew | hold
    · obtain ⟨w', hw', heq⟩ := List.mem_map.mp hnew
      obtain ⟨rfl, rfl⟩ := Prod.mk.inj heq
      rw [hquiet w' hw'] at hw
      cases hw
    · exact hrest w place invocation hold hw
  -- one invocation has started, with the number after the last one of its name; what is left of it
  -- belongs to the new entry
  · cases hinvoked with
    | @mk target w' number hname hscope hw' hnumber =>
      have hsome : [w'].filterMap Work.invocation? = [(target.text, number)] := by simp [hw']
      refine ⟨by simp [hsome, hlogged], ?_, ?_, hopened'⟩
      · subst hnumber
        exact hgapless.next target.text
      · intro w place invocation hmem hw
        rcases List.mem_cons.mp hmem with hnew | hold
        · obtain ⟨rfl, rfl⟩ := Prod.mk.inj hnew
          rw [hw'] at hw
          obtain rfl := Option.some.inj hw
          rw [hsome, List.getElem?_concat_length]
        · exact hrest w place invocation hold hw

/-- All else starts nothing, and goes on with the invocation it belongs to. -/
theorem other {w : Work} {place depth depth' : Nat} {rest : List (Work × Nat)} {s : ResolveState}
    {started : List (String × Int)} {opened more : List (Nat × Frame)} {todo : List Work}
    (h : Sound ⟨(w, place) :: rest, depth, s, started, opened⟩)
    (htodo : ∀ v ∈ todo, v.invocation? = none ∨ v.invocation? = w.invocation?)
    (hmore : ∀ p frame, (p, frame) ∈ more → p = place ∧
      ∃ name, w.invocation? = some (name, frame.calls)) :
    Sound ⟨todo.map (·, place) ++ rest, depth', s, started ++ [], opened ++ more⟩ := by
  obtain ⟨hlogged, hgapless, hpending, hopened⟩ := h
  rw [List.append_nil]
  refine ⟨hlogged, hgapless, ?_, ?_⟩
  · intro v place' invocation hmem hv
    rcases List.mem_append.mp hmem with hnew | hold
    · obtain ⟨v', hv', heq⟩ := List.mem_map.mp hnew
      obtain ⟨rfl, rfl⟩ := Prod.mk.inj heq
      rcases htodo v' hv' with hnone | hsame
      · rw [hnone] at hv
        cases hv
      · exact hpending w place invocation (.head _) (hsame ▸ hv)
    · exact hpending v place' invocation (.tail _ hold) hv
  · intro place' frame hmem
    rcases List.mem_append.mp hmem with hold | hnew
    · exact hopened place' frame hold
    · obtain ⟨rfl, name, hname⟩ := hmore place' frame hnew
      exact ⟨name, hpending w place' _ (.head _) hname⟩

/-- **A step keeps the numbers in order.** -/
theorem step (h : p.Sound) (hstep : Step limit p q) : q.Sound := by
  cases hstep with
  | @mk w place rest depth s started opened todo depth' t hw =>
    cases Work.does_of_step hw with
    | statement hst => simpa [Work.opens, Work.starts, Work.owner] using h.statement hst
    | leaveIf => exact h.other (by simp) (by simp [Work.opens])
    | charsDone => exact h.other (by simp) (by simp [Work.opens])
    | char hrule =>
      -- the frame of this character, and the characters after it, have the same number
      exact h.other (by simp [Work.invocation?]) (by simp [Work.opens])
    | enter hlt =>
      refine h.other ?_ (by simp [Work.opens, Work.invocation?])
      refine List.forall_mem_append.mpr ⟨fun v hv => ?_, by simp [Work.invocation?]⟩
      exact .inl (invocation?_of_mem_blockWork v hv)
    | leave => exact h.other (by simp) (by simp [Work.opens])

/-- By induction on the run, with `step` for each step of it. -/
theorem run (h : p.Sound) (hrun : Run limit p q) : q.Sound := by
  induction hrun with
  | refl => exact h
  | tail _ hstep ih => exact ih.step hstep

end Sound

end Record

/-! ## The numbers -/

/-- The numbers that the invocations in a program are given. -/
structure CallsNumbered (program : List Statement) : Prop where
  /-- a resolution is recorded to its end -/
  ends : ∀ limit names items state,
    resolveBlock (expandWithin limit limit) [] program ⟨names, []⟩ = .ok (items, state) →
    ∃ r, Record.Run limit (.start names program) r ∧ r.point = ⟨[], 0, state⟩
  /-- and a record tells of nothing but the resolution -/
  faithful : ∀ limit names r, Record.Run limit (.start names program) r →
    Point.Run limit (.start names program) r.point
  /-- only a statement that is a word, with or without arguments, starts an invocation, and it is
      one of the name that the word stands for -/
  named : ∀ scope st s todo t, statementWork scope st s = .ok (todo, t) →
    todo.filterMap Work.invocation? = [] ∨ ∃ word target number,
      (st = .call word ∨ ∃ args, st = .invoke word args) ∧
      Env.substitute ⟨s.names, scope⟩ word = .ok target ∧
      todo.filterMap Work.invocation? = [(target.text, number)]
  /-- the invocations of a name have the numbers 1, 2, 3 and so on, in the order they start -/
  gapless : ∀ limit names r, Record.Run limit (.start names program) r →
    ∀ name, ∃ n, numbersOf name r.started = oneTo n
  /-- and every frame has the number of its invocation -/
  frames : ∀ limit names r, Record.Run limit (.start names program) r →
    ∀ place frame, (place, frame) ∈ r.opened →
      ∃ name, r.started[place]? = some (name, frame.calls)
  /-- which is what the log is for -/
  logged : ∀ limit names r, Record.Run limit (.start names program) r →
    r.state.log = r.started.reverse

/-- **The invocations of every name are numbered without gaps.** The log of the resolver lists the
    invocations, newest first, and an invocation takes the number after the last one of its name
    (`Record.Sound`, kept by each step). The frames of a string are opened later and one by one;
    they carry the number along from the work they were put down as. -/
theorem calls_numbered (program : List Statement) : CallsNumbered program := by
  have hsound : ∀ {limit names r}, Record.Run limit (.start names program) r → r.Sound :=
    fun hrun => (Record.sound_start _ program).run hrun
  constructor
  case ends =>
    intro limit names items state h
    have hperforms := performs_block (expandWithin_performs (Nat.zero_add limit)) program []
    have hrun : Point.Run limit (Record.start names program).point ⟨[], 0, state⟩ := by
      simpa [Point.start] using hperforms.ok [] _ _ _ h
    exact Record.exists_run hrun
  case faithful =>
    intro limit names r hrun
    rw [← Record.point_start]
    exact hrun.point
  case named =>
    intro scope st s todo t h
    rcases statementWork_cases h with ⟨-, hquiet⟩ | ⟨word, hst, hinvoked⟩
    · exact .inl (List.filterMap_eq_nil_iff.mpr hquiet)
    · cases hinvoked with
      | @mk target w number hname hscope hw hnumber =>
        exact .inr ⟨word, target, number, hst, hname, by simp [hw]⟩
  case gapless =>
    intro limit names r hrun name
    obtain ⟨n, hn⟩ := (hsound hrun).gapless name
    rw [(hsound hrun).logged, numbersOf_reverse, List.reverse_reverse] at hn
    exact ⟨n, hn⟩
  case frames => exact fun limit names r hrun => (hsound hrun).opened
  case logged => exact fun limit names r hrun => (hsound hrun).logged

/-- The stringmode `s` invokes itself for `b`, and the macro `m` invokes it through a parameter. -/
def recursiveProgram : List Statement :=
  [.stringMode (word 1 ":stringmode") (word 1 "s") (string 1 "a") [],
    .stringMode (word 2 ":stringmode") (word 2 "s") (string 2 "b")
      [.invoke (word 2 "s") [string 2 "a"]],
    .macroDef (word 3 ":macro") (word 3 "m") [word 3 "x"] [.invoke (word 3 "x") [string 3 "ba"]],
    .label (word 4 "main"),
    .invoke (word 5 "s") [string 5 "bb"],
    .invoke (word 6 "s") [string 6 ""],
    .invoke (word 7 "m") [word 7 "s"]]
where
  word (line : Nat) (text : String) : Token := ⟨line, .name, text⟩
  string (line : Nat) (text : String) : Token := ⟨line, .string, text⟩

/-- The invocations of `recursiveProgram`: `m` does not count for `s`, the empty string does, and
    both frames of the first invocation have the number 1, though others start between them. -/
theorem calls_numbered_recursive :
    ∃ r, Record.Run 3 (.start [("main", .label false)] recursiveProgram) r ∧ r.todo = [] ∧
      r.started = [("s", 1), ("s", 2), ("s", 3), ("s", 4), ("m", 1), ("s", 5), ("s", 6)] ∧
      ∀ frame, (0, frame) ∈ r.opened → frame.calls = 1 := by
  obtain ⟨names, hresolved⟩ : ∃ names, resolveBlock (expandWithin 3 3) [] recursiveProgram
      ⟨[("main", .label false)], []⟩ = .ok ([.leaf ⟨4, "main"⟩ (.label "main")], ⟨names,
        [("s", 6), ("s", 5), ("m", 1), ("s", 4), ("s", 3), ("s", 2), ("s", 1)]⟩) := ⟨_, rfl⟩
  have hnumbered := calls_numbered recursiveProgram
  obtain ⟨r, hrun, hpoint⟩ := hnumbered.ends _ _ _ _ hresolved
  have htodo : r.todo.map (·.1) = [] := congrArg Point.todo hpoint
  have hlog := hnumbered.logged _ _ _ hrun
  have hstate : r.state = _ := congrArg Point.state hpoint
  rw [hstate] at hlog
  have hstarted : r.started =
      [("s", 1), ("s", 2), ("s", 3), ("s", 4), ("m", 1), ("s", 5), ("s", 6)] :=
    List.reverse_eq_iff.mp hlog.symm
  refine ⟨r, hrun, List.map_eq_nil_iff.mp htodo, hstarted, fun frame hframe => ?_⟩
  obtain ⟨name, hname⟩ := hnumbered.frames _ _ _ hrun 0 frame hframe
  rw [hstarted] at hname
  exact (Prod.mk.inj (Option.some.inj hname)).2.symm

end OctoAsm
