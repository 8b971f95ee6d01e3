/-
  The plan of an emission: the nested items of a program as one flat list of moves.

  Which moves an emission makes, and in which order, does not depend on any value, so it can be
  written down beforehand (`planOf`).  Control flow remembers offsets for its jumps; in a plan they
  stand on a stack, the newest on top.  Following the plan is the emission itself (`follow_planOf`),
  and whatever holds before the first move and is kept by every move holds all along
  (`follow_induct`).

  The trail of a run lists the moves that were reached, each with the progress made before it; a
  run that fails does so at the last move of its trail (`follow_eq_error`).
-/
import OctoAsm.Image.Emit
import OctoAsm.Proofs.Outcome

namespace OctoAsm

/-! ## Moves -/

/-- What an emission does at one point. -/
inductive Act where
  /-- an item begins here -/
  | enter (item : Item)
  | leaf (l : Leaf)
  | skip (cond : Cond) (skipWhen : Bool)
  /-- remembers the current offset -/
  | here
  /-- remembers the current offset and leaves room for a jump -/
  | hole
  /-- exchanges the two newest offsets -/
  | swap
  /-- a jump back to the newest offset -/
  | jump
  /-- fills the hole at the newest offset with a jump to here -/
  | patch
  /-- exactly one instruction was appended since the newest offset -/
  | single

/-- An act, with the site that is blamed if it fails. -/
structure Move where
  site : Site
  act : Act

mutual

/-- The moves of an item. -/
def Item.plan : Item → List Move
  | .leaf site l => [⟨site, .enter (.leaf site l)⟩, ⟨site, .leaf l⟩]
  | .ifThen site cond body =>
    ⟨site, .enter (.ifThen site cond body)⟩ :: ⟨site, .skip cond false⟩ :: ⟨site, .here⟩ ::
      (planOf body ++ [⟨site, .single⟩])
  | .ifBegin site cond body =>
    ⟨site, .enter (.ifBegin site cond body)⟩ :: ⟨site, .skip cond true⟩ :: ⟨site, .hole⟩ ::
      (planOf body ++ [⟨site, .patch⟩])
  | .ifElse site cond body otherwise =>
    ⟨site, .enter (.ifElse site cond body otherwise)⟩ :: ⟨site, .skip cond true⟩ ::
      ⟨site, .hole⟩ :: (planOf body ++ ⟨site, .hole⟩ :: ⟨site, .swap⟩ :: ⟨site, .patch⟩ ::
        (planOf otherwise ++ [⟨site, .patch⟩]))
  | .loop site body =>
    ⟨site, .enter (.loop site body)⟩ :: ⟨site, .here⟩ :: (planOf body ++ [⟨site, .jump⟩])
  | .loopUntil site body cond =>
    ⟨site, .enter (.loopUntil site body cond)⟩ :: ⟨site, .here⟩ ::
      (planOf body ++ [⟨site, .skip cond false⟩, ⟨site, .hole⟩, ⟨site, .swap⟩, ⟨site, .jump⟩,
        ⟨site, .patch⟩])
  | .whileDo site cond body =>
    ⟨site, .enter (.whileDo site cond body)⟩ :: ⟨site, .here⟩ :: ⟨site, .skip cond true⟩ ::
      ⟨site, .hole⟩ :: (planOf body ++ [⟨site, .swap⟩, ⟨site, .jump⟩, ⟨site, .patch⟩])

/-- The moves of items in a row. -/
def planOf : List Item → List Move
  | [] => []
  | i :: rest => i.plan ++ planOf rest

end

/-! ## Following a plan -/

/-- An emission under way. -/
structure Progress where
  draft : Draft
  /-- the remembered offsets, newest first -/
  offsets : List Nat

/-- Exchanges the two newest offsets. -/
def swapTop : List Nat → List Nat
  | a :: b :: rest => b :: a :: rest
  | offsets => offsets

namespace Run

variable (run : Run)

/-- Does one act. -/
def act (p : Progress) : Act → Except EmitCause Progress
  | .enter _ => .ok p
  | .leaf l => do return { p with draft := ← run.leaf p.draft l }
  | .skip cond skipWhen => do return { p with draft := ← run.skip p.draft cond skipWhen }
  | .here => .ok { p with offsets := p.draft.bytes.size :: p.offsets }
  | .hole => do return ⟨← run.hole p.draft, p.draft.bytes.size :: p.offsets⟩
  | .swap => .ok { p with offsets := swapTop p.offsets }
  | .jump => do
    return ⟨← run.jump p.draft (run.options.origin + p.offsets.headD 0), p.offsets.tail⟩
  | .patch => do return ⟨← run.patch p.draft (p.offsets.headD 0), p.offsets.tail⟩
  | .single =>
    let size := p.draft.bytes.size - p.offsets.headD 0
    if size = 2 then .ok { p with offsets := p.offsets.tail } else .error (.thenNotSingle size)

/-- Makes moves in a row. -/
def follow : Progress → List Move → Except EmitError Progress
  | p, [] => .ok p
  | p, m :: rest => do follow (← m.site.blame (run.act p m.act)) rest

/-- A plan is followed when its first move is made and the rest is followed from there. -/
theorem follow_cons_eq_ok {p r : Progress} {m : Move} {rest : List Move} :
    run.follow p (m :: rest) = .ok r ↔
      ∃ q, run.act p m.act = .ok q ∧ run.follow q rest = .ok r := by
  rw [follow, bind_eq_ok]
  cases run.act p m.act <;> simp [Site.blame]

/-- Plans one behind the other are followed one behind the other. -/
theorem follow_append (a b : List Move) (p : Progress) :
    run.follow p (a ++ b) = (run.follow p a >>= fun q => run.follow q b) := by
  induction a generalizing p with
  | nil => rfl
  | cons m rest ih =>
    show (m.site.blame (run.act p m.act) >>= fun q => run.follow q (rest ++ b)) =
      ((m.site.blame (run.act p m.act) >>= fun q => run.follow q rest) >>= fun q => run.follow q b)
    cases m.site.blame (run.act p m.act) with
    | error e => rfl
    | ok q => exact ih q

/-! ## Following the plan is the emission -/

section Moves

variable (site : Site) (rest : List Move) (d : Draft) (a b : Nat) (o : List Nat)

/-- A move that changes the draft: the next one starts from the new draft. -/
theorem follow_draft {p : Progress} {m : Move} {x : Except EmitCause Draft}
    (h : run.act p m.act = (x >>= fun d' => pure ⟨d', o⟩)) : run.follow p (m :: rest) =
      (m.site.blame x >>= fun d' => run.follow ⟨d', o⟩ rest) := by
  rw [follow, h]
  cases x <;> rfl

/-- Entering an item is a mark in the plan and changes nothing. -/
theorem follow_enter (i : Item) :
    run.follow ⟨d, o⟩ (⟨site, .enter i⟩ :: rest) = run.follow ⟨d, o⟩ rest := rfl

/-- A leaf is emitted, and blamed on its site. -/
theorem follow_leaf (l : Leaf) : run.follow ⟨d, o⟩ (⟨site, .leaf l⟩ :: rest) =
    (site.blame (run.leaf d l) >>= fun d' => run.follow ⟨d', o⟩ rest) :=
  run.follow_draft _ _ rfl

/-- The code of a condition is emitted. -/
theorem follow_skip (cond : Cond) (w : Bool) : run.follow ⟨d, o⟩ (⟨site, .skip cond w⟩ :: rest) =
    (site.blame (run.skip d cond w) >>= fun d' => run.follow ⟨d', o⟩ rest) :=
  run.follow_draft _ _ rfl

/-- The place of emission is remembered on the stack. -/
theorem follow_here :
    run.follow ⟨d, o⟩ (⟨site, .here⟩ :: rest) = run.follow ⟨d, d.bytes.size :: o⟩ rest := rfl

/-- A hole is emitted, and its place is remembered. -/
theorem follow_hole : run.follow ⟨d, o⟩ (⟨site, .hole⟩ :: rest) =
    (site.blame (run.hole d) >>= fun d' => run.follow ⟨d', d.bytes.size :: o⟩ rest) :=
  run.follow_draft _ _ rfl

/-- The two newest places change places. -/
theorem follow_swap : run.follow ⟨d, a :: b :: o⟩ (⟨site, .swap⟩ :: rest) =
    run.follow ⟨d, b :: a :: o⟩ rest := rfl

/-- A jump leads to the newest place, which is then forgotten. -/
theorem follow_jump : run.follow ⟨d, a :: o⟩ (⟨site, .jump⟩ :: rest) =
    (site.blame (run.jump d (run.options.origin + a)) >>= fun d' => run.follow ⟨d', o⟩ rest) :=
  run.follow_draft _ _ rfl

/-- The hole at the newest place is filled, and the place forgotten. -/
theorem follow_patch : run.follow ⟨d, a :: o⟩ (⟨site, .patch⟩ :: rest) =
    (site.blame (run.patch d a) >>= fun d' => run.follow ⟨d', o⟩ rest) :=
  run.follow_draft _ _ rfl

/-- The body of `then` is measured from the newest place. -/
theorem follow_single : run.follow ⟨d, a :: o⟩ (⟨site, .single⟩ :: rest) =
    if d.bytes.size - a = 2 then run.follow ⟨d, o⟩ rest
    else site.blame (.error (.thenNotSingle (d.bytes.size - a))) := by
  show (site.blame (if d.bytes.size - a = 2 then .ok ⟨d, o⟩
    else .error (.thenNotSingle (d.bytes.size - a))) >>= fun p => run.follow p rest) = _
  by_cases h : d.bytes.size - a = 2
  · rw [if_pos h, if_pos h]; rfl
  · rw [if_neg h, if_neg h]; rfl

/-- The plan of a block in front of other moves, given that following it is emitting the block. -/
theorem follow_planOf_append {items : List Item}
    (h : run.follow ⟨d, o⟩ (planOf items) = (run.block d items).map (Progress.mk · o)) :
    run.follow ⟨d, o⟩ (planOf items ++ rest) =
      (run.block d items >>= fun d' => run.follow ⟨d', o⟩ rest) := by
  rw [follow_append, h]
  cases run.block d items <;> rfl

end Moves

-- Both sides are chains of the same drafts; each step of the proof compares one more of them.
mutual

/-- Following the moves of an item appends the item and leaves the stack as it was. -/
theorem follow_plan (i : Item) (d : Draft) (o : List Nat) :
    run.follow ⟨d, o⟩ i.plan = (run.item d i).map (Progress.mk · o) := by
  cases i with
  | leaf site l =>
    simp only [Item.plan, item, follow_enter, follow_leaf]
    cases run.leaf d l <;> rfl
  | ifThen site cond body =>
    simp only [Item.plan, item, follow_enter, follow_skip, follow_here, map_bind]
    congr 1; funext d₁
    -- the plan of the body leaves the offset in front of it on top of the stack
    rw [follow_planOf_append _ _ _ _ (follow_planOf body _ _)]
    congr 1; funext d₂
    rw [follow_single]
    split <;> rfl
  | ifBegin site cond body =>
    simp only [Item.plan, item, follow_enter, follow_skip, follow_hole, map_bind]
    congr 1; funext d₁
    congr 1; funext d₂
    rw [follow_planOf_append _ _ _ _ (follow_planOf body _ _)]
    congr 1; funext d₃
    rw [follow_patch]
    cases run.patch d₃ d₁.bytes.size <;> rfl
  | ifElse site cond body otherwise =>
    simp only [Item.plan, item, follow_enter, follow_skip, follow_hole, map_bind]
    congr 1; funext d₁
    congr 1; funext d₂
    rw [follow_planOf_append _ _ _ _ (follow_planOf body _ _)]
    congr 1; funext d₃
    rw [follow_hole]
    congr 1; funext d₄
    -- the hole of the condition lies below that of the first body, and is filled first
    rw [follow_swap, follow_patch]
    congr 1; funext d₅
    rw [follow_planOf_append _ _ _ _ (follow_planOf otherwise _ _)]
    congr 1; funext d₆
    rw [follow_patch]
    cases run.patch d₆ d₃.bytes.size <;> rfl
  | loop site body =>
    simp only [Item.plan, item, follow_enter, follow_here, map_bind]
    rw [follow_planOf_append _ _ _ _ (follow_planOf body _ _)]
    congr 1; funext d₁
    rw [follow_jump]
    show (site.blame (run.jump d₁ (run.pc d)) >>= _) = _
    cases run.jump d₁ (run.pc d) <;> rfl
  | loopUntil site body cond =>
    simp only [Item.plan, item, follow_enter, follow_here, map_bind]
    rw [follow_planOf_append _ _ _ _ (follow_planOf body _ _)]
    congr 1; funext d₁
    rw [follow_skip]
    congr 1; funext d₂
    rw [follow_hole]
    congr 1; funext d₃
    -- below the hole lies the start of the loop, which the jump goes back to
    rw [follow_swap, follow_jump]
    show (site.blame (run.jump d₃ (run.pc d)) >>= _) = _
    congr 1; funext d₄
    rw [follow_patch]
    cases run.patch d₄ d₂.bytes.size <;> rfl
  | whileDo site cond body =>
    simp only [Item.plan, item, follow_enter, follow_here, follow_skip, follow_hole, map_bind]
    congr 1; funext d₁
    congr 1; funext d₂
    rw [follow_planOf_append _ _ _ _ (follow_planOf body _ _)]
    congr 1; funext d₃
    -- the start of the loop lies below the hole as well
    rw [follow_swap, follow_jump]
    show (site.blame (run.jump d₃ (run.pc d)) >>= _) = _
    congr 1; funext d₄
    rw [follow_patch]
    cases run.patch d₄ d₁.bytes.size <;> rfl

/-- **Following the plan of a block is the emission of the block.** -/
theorem follow_planOf (items : List Item) (d : Draft) (o : List Nat) :
    run.follow ⟨d, o⟩ (planOf items) = (run.block d items).map (Progress.mk · o) := by
  cases items with
  | nil => rfl
  | cons i rest =>
    simp only [planOf, block, follow_append]
    rw [follow_plan i]
    cases run.item d i with
    | error e => rfl
    | ok d' => exact follow_planOf rest d' o

end

/-- A block is emitted just when its plan is followed to the end, with an empty stack before and
    after. -/
theorem block_eq_ok {d d' : Draft} {items : List Item} :
    run.block d items = .ok d' ↔ run.follow ⟨d, []⟩ (planOf items) = .ok ⟨d', []⟩ := by
  rw [follow_planOf, map_eq_ok]
  simp

/-- A block fails just as its plan does. -/
theorem block_eq_error {d : Draft} {items : List Item} {e : EmitError} :
    run.block d items = .error e ↔ run.follow ⟨d, []⟩ (planOf items) = .error e := by
  rw [follow_planOf, map_eq_error]

end Run

/-! ## Trails -/

/-- A move that a run reached, with the progress made before it. -/
structure Stage where
  move : Move
  before : Progress

namespace Run

variable (run : Run)

/-- The moves that are reached: all of them, or those up to the first that fails. -/
def trail : Progress → List Move → List Stage
  | _, [] => []
  | p, m :: rest =>
    ⟨m, p⟩ :: match run.act p m.act with
      | .ok q => trail q rest
      | .error _ => []

/-- The trail of a move that is made goes on behind it. -/
theorem trail_cons_of_ok {p q : Progress} {m : Move} (h : run.act p m.act = .ok q)
    (rest : List Move) : run.trail p (m :: rest) = ⟨m, p⟩ :: run.trail q rest := by
  simp [trail, h]

/-- A trail is made of moves of the plan. -/
theorem move_mem_of_mem_trail {p : Progress} {moves : List Move} {stage : Stage}
    (h : stage ∈ run.trail p moves) : stage.move ∈ moves := by
  induction moves generalizing p with
  | nil => simp [trail] at h
  | cons m rest ih =>
    rw [trail] at h
    rcases List.mem_cons.mp h with rfl | h
    · exact List.mem_cons_self
    · split at h
      · exact List.mem_cons_of_mem m (ih h)
      · simp at h

/-- A run stops with a diagnostic exactly when a move that it reached fails with its cause. -/
theorem follow_eq_error {p : Progress} {moves : List Move} {e : EmitError} :
    run.follow p moves = .error e ↔
      ∃ stage ∈ run.trail p moves, ∃ cause, run.act stage.before stage.move.act = .error cause ∧
        e = ⟨stage.move.site.line, stage.move.site.text, cause⟩ := by
  induction moves generalizing p with
  | nil => simp [follow, trail]
  | cons m rest ih =>
    rw [follow, trail]
    cases h : run.act p m.act with
    | error cause =>
      -- the head is the last move of the trail
      simp [Site.blame, h, eq_comm]
    | ok q =>
      show run.follow q rest = .error e ↔ _
      simp [ih, h]

/-- What holds at the start and is kept by every move holds at every stage and at the end. -/
theorem follow_induct {I : Progress → Prop} {p : Progress} {moves : List Move} (h₀ : I p)
    (hstep : ∀ m ∈ moves, ∀ p q, I p → run.act p m.act = .ok q → I q) :
    (∀ stage ∈ run.trail p moves, I stage.before) ∧ ∀ q, run.follow p moves = .ok q → I q := by
  induction moves generalizing p with
  | nil => simpa [trail, follow] using h₀
  | cons m rest ih =>
    rw [follow, trail]
    cases h : run.act p m.act with
    | error cause => simpa [Site.blame] using h₀
    | ok q =>
      have hq : I q := hstep m List.mem_cons_self p q h₀ h
      obtain ⟨htrail, hend⟩ := ih hq fun m hm => hstep m (List.mem_cons_of_mem _ hm)
      refine ⟨?_, fun r hr => hend r hr⟩
      intro stage hs
      rcases List.mem_cons.mp hs with rfl | hs
      · exact h₀
      · exact htrail stage hs

end Run

end OctoAsm
