/-
  Holes are patched by the items that made them, and what comes out is the code without holes.

  Offsets of holes wait on a stack while the blocks behind them are emitted, with holes, padding and
  data of their own.  That the right hole is on top when a patch comes is a fact about plans alone:
  they are balanced (`balanced_planOf`).  What the bytes have to do with it is the invariant `Fits`:
  the stack consists of the stages that opened it, every hole on it is still two zero bytes, and no
  two of them overlap.  One move keeps it (`Fits.plain` to `Fits.patched`), the induction is on the
  balance of the plan, and with `Run.block_emits` it gives the whole account of an emission
  (`emission_direct`).
-/
import OctoAsm.Proofs.Image.Direct

namespace OctoAsm

open Machine (Word encode)

/-! ## Plans are balanced -/

/-- The act leaves the stack of offsets alone. -/
def Act.IsPlain : Act → Prop
  | .enter _ | .leaf _ | .skip _ _ => True
  | _ => False

/-- The act that remembered the offset which this act takes from the stack. -/
def Act.opener? : Act → Option Act
  | .patch => some .hole
  | .jump | .single => some .here
  | _ => none

/-- `Balanced a moves b`: where the moves `a` have opened the stack, each of `moves` that takes an
    offset from it finds on top the one that its own item has remembered for it, and `b` is left. -/
inductive Balanced : List Move → List Move → List Move → Prop where
  | nil {a} : Balanced a [] a
  | plain {a b m rest} (h : m.act.IsPlain) (hrest : Balanced a rest b) : Balanced a (m :: rest) b
  | opens {a b m rest} (h : m.act = .here ∨ m.act = .hole) (hrest : Balanced (m :: a) rest b) :
      Balanced a (m :: rest) b
  | swap {x y a b site rest} (hrest : Balanced (y :: x :: a) rest b) :
      Balanced (x :: y :: a) (⟨site, .swap⟩ :: rest) b
  | closes {a b site act opener rest} (h : act.opener? = some opener) (hrest : Balanced a rest b) :
      Balanced (⟨site, opener⟩ :: a) (⟨site, act⟩ :: rest) b

/-- Balanced plans one behind the other. -/
theorem Balanced.append {a b c xs ys : List Move} (hx : Balanced a xs b) (hy : Balanced b ys c) :
    Balanced a (xs ++ ys) c := by
  induction hx with
  | nil => exact hy
  | plain h _ ih => exact .plain h (ih hy)
  | opens h _ ih => exact .opens h (ih hy)
  | swap _ ih => exact .swap (ih hy)
  | closes h _ ih => exact .closes h (ih hy)

mutual

/-- An item takes from the stack what it has put there. -/
theorem balanced_plan : ∀ (i : Item) (a : List Move), Balanced a i.plan a
  | .leaf _ _, _ => .plain trivial (.plain trivial .nil)
  | .ifThen _ _ body, _ =>
    .plain trivial <| .plain trivial <| .opens (.inl rfl) <|
      (balanced_planOf body _).append <| .closes rfl .nil
  | .ifBegin _ _ body, _ =>
    .plain trivial <| .plain trivial <| .opens (.inr rfl) <|
      (balanced_planOf body _).append <| .closes rfl .nil
  | .ifElse _ _ body otherwise, _ =>
    .plain trivial <| .plain trivial <| .opens (.inr rfl) <|
      (balanced_planOf body _).append <| .opens (.inr rfl) <| .swap <| .closes rfl <|
        (balanced_planOf otherwise _).append <| .closes rfl .nil
  | .loop _ body, _ =>
    .plain trivial <| .opens (.inl rfl) <| (balanced_planOf body _).append <| .closes rfl .nil
  | .loopUntil _ body _, _ =>
    .plain trivial <| .opens (.inl rfl) <| (balanced_planOf body _).append <|
      .plain trivial <| .opens (.inr rfl) <| .swap <| .closes rfl <| .closes rfl .nil
  | .whileDo _ _ body, _ =>
    .plain trivial <| .opens (.inl rfl) <| .plain trivial <| .opens (.inr rfl) <|
      (balanced_planOf body _).append <| .swap <| .closes rfl <| .closes rfl .nil

/-- A block leaves the stack as it was. -/
theorem balanced_planOf : ∀ (items : List Item) (a : List Move), Balanced a (planOf items) a
  | [], _ => .nil
  | i :: rest, a => (balanced_plan i a).append (balanced_planOf rest a)

end

/-! ## Holes in a draft -/

/-- Two zero bytes, room for a jump. -/
def HoleAt (d : Draft) (offset : Nat) : Prop :=
  d.bytes[offset]? = some 0 ∧ d.bytes[offset + 1]? = some 0

/-- The offset that a stage which opens the stack remembers. -/
def Stage.offset (s : Stage) : Nat := s.before.draft.bytes.size

/-- If both stages make holes, these do not overlap. -/
def Stage.Apart (s t : Stage) : Prop :=
  s.move.act = .hole → t.move.act = .hole → s.offset + 2 ≤ t.offset ∨ t.offset + 2 ≤ s.offset

section Holes

variable {run : Run} {d d' : Draft} {n offset : Nat} {p q : Progress} {a : Act}

/-- A hole lies inside the draft. -/
theorem HoleAt.room (h : HoleAt d offset) : offset + 2 ≤ d.bytes.size := by
  obtain ⟨hbound, -⟩ := Array.getElem?_eq_some_iff.mp h.2
  exact hbound

/-- A hole is still one where nothing has touched its two bytes. -/
theorem HoleAt.of_kept (h : HoleAt d offset) (hkept : KeptTo n d d') (hle : offset + 2 ≤ n) :
    HoleAt d' offset :=
  ⟨(hkept _ (by omega)).trans h.1, (hkept _ (by omega)).trans h.2⟩

/-- A hole that was just made. -/
theorem HoleAt.of_hole (h : run.hole d = .ok d') : HoleAt d' d.bytes.size := by
  have happ := Run.word_eq_ok h
  exact ⟨happ.getElem? 0, happ.getElem? 1⟩

theorem Stage.Apart.symm {s t : Stage} (h : s.Apart t) : t.Apart s :=
  fun ht hs => (h hs ht).symm

/-- Only a patch changes bytes that are there. -/
theorem Run.act_kept (h : run.act p a = .ok q) (ha : a ≠ .patch) :
    KeptTo p.draft.bytes.size p.draft q.draft := by
  cases a with
  | patch => exact absurd rfl ha
  | enter item | here | swap =>
    obtain rfl := Except.ok.inj h
    exact fun _ _ => rfl
  | single =>
    simp only [act] at h
    split at h
    · obtain rfl := Except.ok.inj h
      exact fun _ _ => rfl
    · cases h
  | leaf l =>
    obtain ⟨d', hd', h⟩ := bind_eq_ok.mp h
    obtain rfl := pure_eq_ok.mp h
    obtain ⟨_, hgrown⟩ := Run.leaf_grown hd'
    exact hgrown.kept
  | skip cond w =>
    obtain ⟨d', hd', h⟩ := bind_eq_ok.mp h
    obtain rfl := pure_eq_ok.mp h
    exact (Run.skip_grown hd').kept
  | hole =>
    obtain ⟨d', hd', h⟩ := bind_eq_ok.mp h
    obtain rfl := pure_eq_ok.mp h
    exact (Run.hole_grown hd').kept
  | jump =>
    obtain ⟨d', hd', h⟩ := bind_eq_ok.mp h
    obtain rfl := pure_eq_ok.mp h
    exact (Run.jump_grown hd').kept

end Holes

/-! ## The invariant -/

/-- An emission that began with the draft `d` and has come past the stages `seen`, those that opened
    the stack being `opened`. -/
structure Fits (d : Draft) (seen opened : List Stage) (p : Progress) : Prop where
  offsets : p.offsets = opened.map Stage.offset
  seen : ∀ s ∈ opened, s ∈ seen
  behind : ∀ s ∈ opened, d.bytes.size ≤ s.offset
  grown : d.bytes.size ≤ p.draft.bytes.size
  /-- the bytes of `d` have not been touched -/
  kept : KeptTo d.bytes.size d p.draft
  /-- the holes on the stack have not been touched -/
  empty : ∀ s ∈ opened, s.move.act = .hole → HoleAt p.draft s.offset
  apart : opened.Pairwise Stage.Apart

namespace Fits

variable {run : Run} {d : Draft} {seen opened opened' : List Stage} {p q : Progress} {m : Move}
  {s t : Stage}

/-- At the start nothing is open. -/
theorem start (d : Draft) : Fits d [] [] ⟨d, []⟩ where
  offsets := rfl
  seen := by simp
  behind := by simp
  grown := Nat.le_refl _
  kept _ _ := rfl
  empty := by simp
  apart := .nil

/-- A move that only appends, and puts nothing new on the stack. -/
theorem of_kept (h : Fits d seen opened p) (hact : run.act p m.act = .ok q)
    (hkept : KeptTo p.draft.bytes.size p.draft q.draft) (hsub : ∀ s ∈ opened', s ∈ opened)
    (hapart : opened'.Pairwise Stage.Apart) (hoffsets : q.offsets = opened'.map Stage.offset) :
    Fits d (seen ++ [⟨m, p⟩]) opened' q where
  offsets := hoffsets
  seen s hs := List.mem_append_left _ (h.seen s (hsub s hs))
  behind s hs := h.behind s (hsub s hs)
  grown := h.grown.trans (Run.act_effect hact).grows
  kept := h.kept.trans (hkept.mono h.grown)
  empty s hs hhole :=
    have hempty := h.empty s (hsub s hs) hhole
    hempty.of_kept hkept hempty.room
  apart := hapart

/-- A move that neither opens nor closes leaves the stack alone, and appends behind all holes. -/
theorem plain (h : Fits d seen opened p) (hplain : m.act.IsPlain)
    (hact : run.act p m.act = .ok q) : Fits d (seen ++ [⟨m, p⟩]) opened q := by
  have hoffsets : q.offsets = p.offsets := by
    rw [(Run.act_effect hact).offsets]
    cases hm : m.act <;> simp_all [Act.IsPlain, Act.offsetsAfter]
  refine h.of_kept hact (Run.act_kept hact ?_) (fun _ hs => hs) h.apart (hoffsets.trans h.offsets)
  rintro hpatch
  simp [hpatch, Act.IsPlain] at hplain

/-- Swapping the two newest places swaps the stages that opened them. -/
theorem swap {site : Site} (h : Fits d seen (s :: t :: opened) p)
    (hact : run.act p .swap = .ok q) :
    Fits d (seen ++ [⟨⟨site, .swap⟩, p⟩]) (t :: s :: opened) q := by
  have hoffsets : q.offsets = (t :: s :: opened).map Stage.offset := by
    rw [(Run.act_effect hact).offsets, h.offsets]
    rfl
  have hapart : (t :: s :: opened).Pairwise Stage.Apart := by
    have := h.apart
    simp only [List.pairwise_cons, List.mem_cons, forall_eq_or_imp] at this ⊢
    obtain ⟨⟨hst, hs⟩, ht, hrest⟩ := this
    exact ⟨⟨hst.symm, ht⟩, hs, hrest⟩
  refine h.of_kept (m := ⟨site, .swap⟩) hact (Run.act_kept hact (by simp)) ?_ hapart hoffsets
  simp only [List.mem_cons]
  tauto

/-- A move that remembers where it is; if it makes a hole, this lies behind all others. -/
theorem opens (h : Fits d seen opened p) (hopens : m.act = .here ∨ m.act = .hole)
    (hact : run.act p m.act = .ok q) : Fits d (seen ++ [⟨m, p⟩]) (⟨m, p⟩ :: opened) q := by
  have hnot : m.act ≠ .patch := by rcases hopens with h | h <;> simp [h]
  have hkept := Run.act_kept hact hnot
  have hempty : ∀ s ∈ opened, s.move.act = .hole → HoleAt q.draft s.offset := fun s hs hhole =>
    (h.empty s hs hhole).of_kept hkept (h.empty s hs hhole).room
  constructor
  case offsets =>
    rw [(Run.act_effect hact).offsets]
    rcases hopens with h' | h' <;> simp [h', Act.offsetsAfter, h.offsets, Stage.offset]
  case seen =>
    intro s hs
    rcases List.mem_cons.mp hs with rfl | hs
    · simp
    · exact List.mem_append_left _ (h.seen s hs)
  case behind => exact List.forall_mem_cons.mpr ⟨h.grown, h.behind⟩
  case grown => exact h.grown.trans (Run.act_effect hact).grows
  case kept => exact h.kept.trans (hkept.mono h.grown)
  case empty =>
    refine List.forall_mem_cons.mpr ⟨fun hhole => ?_, hempty⟩
    have hhole : m.act = .hole := hhole
    rw [hhole] at hact
    obtain ⟨d', hd', hq⟩ := bind_eq_ok.mp hact
    obtain rfl := pure_eq_ok.mp hq
    exact .of_hole hd'
  case apart =>
    -- a new hole begins where the bytes end, so all others are before it
    refine List.pairwise_cons.mpr ⟨fun s hs _ hhole => .inr ?_, h.apart⟩
    exact (h.empty s hs hhole).room

/-- A move that takes an offset from the stack and only appends. -/
theorem closes (h : Fits d seen (s :: opened) p) (hnot : m.act ≠ .patch) {opener : Act}
    (hcloses : m.act.opener? = some opener) (hact : run.act p m.act = .ok q) :
    Fits d (seen ++ [⟨m, p⟩]) opened q := by
  have hoffsets : q.offsets = p.offsets.tail := by
    rw [(Run.act_effect hact).offsets]
    cases hm : m.act <;> simp_all [Act.opener?, Act.offsetsAfter]
  refine h.of_kept hact (Run.act_kept hact hnot) (fun _ hs => List.mem_cons_of_mem _ hs)
    (List.pairwise_cons.mp h.apart).2 ?_
  rw [hoffsets, h.offsets]
  rfl

/-- A patch of the hole on top, which no other hole overlaps. -/
theorem patched (h : Fits d seen (s :: opened) p) (hpatch : m.act = .patch)
    (hhole : s.move.act = .hole) (hact : run.act p m.act = .ok q) :
    Fits d (seen ++ [⟨m, p⟩]) opened q := by
  have hbehind := h.behind s List.mem_cons_self
  rw [hpatch] at hact
  have heffect := Run.act_effect hact
  obtain ⟨d', hd', hq⟩ := bind_eq_ok.mp hact
  obtain rfl := pure_eq_ok.mp hq
  have hhead : p.offsets.headD 0 = s.offset := by rw [h.offsets]; rfl
  rw [hhead] at hd'
  constructor
  case offsets =>
    show p.offsets.tail = _
    rw [h.offsets]
    rfl
  case seen =>
    exact fun t ht => List.mem_append_left _ (h.seen t (List.mem_cons_of_mem _ ht))
  case behind => exact fun t ht => h.behind t (List.mem_cons_of_mem _ ht)
  case grown => exact h.grown.trans heffect.grows
  case kept =>
    refine h.kept.trans fun k hk => ?_
    exact Run.patch_elsewhere hd' (by omega) (by omega)
  case empty =>
    intro t ht hthole
    obtain ⟨hfirst, hsecond⟩ := h.empty t (List.mem_cons_of_mem _ ht) hthole
    -- the patch writes two bytes only, and no other hole reaches into them
    have hapart := (List.pairwise_cons.mp h.apart).1 t ht hhole hthole
    refine ⟨(Run.patch_elsewhere hd' ?_ ?_).trans hfirst,
      (Run.patch_elsewhere hd' ?_ ?_).trans hsecond⟩ <;> omega
  case apart => exact (List.pairwise_cons.mp h.apart).2

end Fits

/-! ## Along an emission -/

/-- The stage `s` takes from the stack what the stage `made` of the same item has put there. -/
structure Closes (d : Draft) (opener : Act) (made s : Stage) : Prop where
  move : made.move = ⟨s.move.site, opener⟩
  offset : s.before.offsets.head? = some made.offset
  behind : d.bytes.size ≤ made.offset
  empty : opener = .hole → HoleAt s.before.draft made.offset

/-- What holds when an emission that began with `d` reaches a stage, after the stages `seen`. -/
structure Reached (d : Draft) (seen : List Stage) (s : Stage) : Prop where
  kept : KeptTo d.bytes.size d s.before.draft
  closes : ∀ opener, s.move.act.opener? = some opener → ∃ made ∈ seen, Closes d opener made s

theorem Act.IsPlain.opener?_eq {a : Act} (h : a.IsPlain) : a.opener? = none := by
  cases a <;> simp_all [IsPlain, opener?]

/-- A move that closes nothing needs no opener. -/
theorem Fits.reached_of_none {d : Draft} {seen opened : List Stage} {p : Progress} {m : Move}
    (h : Fits d seen opened p) (hnone : m.act.opener? = none) : Reached d seen ⟨m, p⟩ :=
  ⟨h.kept, fun _ hopener => absurd (hnone.symm.trans hopener) nofun⟩

/-- A move that closes what is on top was opened by the stage there. -/
theorem Fits.reached_of_top {d : Draft} {seen opened : List Stage} {s : Stage} {p : Progress}
    {m : Move} {opener : Act} (h : Fits d seen (s :: opened) p) (hs : s.move = ⟨m.site, opener⟩)
    (hopener : m.act.opener? = some opener) : Reached d seen ⟨m, p⟩ := by
  refine ⟨h.kept, fun opener' hopener' => ⟨s, h.seen s List.mem_cons_self, ?_⟩⟩
  obtain rfl := Option.some.inj (hopener.symm.trans hopener')
  refine ⟨hs, by simp [h.offsets], h.behind s List.mem_cons_self, fun hhole => ?_⟩
  exact h.empty s List.mem_cons_self (by rw [hs, hhole])

/-- The stages of a run, split at one of them: it is the first, or it comes after the first. -/
theorem reached_cons {run : Run} {d : Draft} {seen : List Stage} {p : Progress} {m : Move}
    {rest : List Move} (hhere : Reached d seen ⟨m, p⟩)
    (hlater : ∀ q, run.act p m.act = .ok q → ∀ before s after,
      run.trail q rest = before ++ s :: after → Reached d (seen ++ [⟨m, p⟩] ++ before) s) :
    ∀ before s after, run.trail p (m :: rest) = before ++ s :: after →
      Reached d (seen ++ before) s := by
  intro before s after htrail
  rw [Run.trail] at htrail
  cases before with
  | nil =>
    obtain ⟨rfl, -⟩ := List.cons.inj htrail
    simpa using hhere
  | cons first before =>
    obtain ⟨rfl, hrest⟩ := List.cons.inj htrail
    cases hact : run.act p m.act with
    | error cause => simp [hact] at hrest
    | ok q =>
      rw [hact] at hrest
      simpa using hlater q hact before s after hrest

/-- **Every stage of a balanced plan finds the stack as its item has left it.** -/
theorem Balanced.reached {run : Run} {d : Draft} {a b moves : List Move}
    (hbalanced : Balanced a moves b) {seen opened : List Stage} {p : Progress}
    (h : Fits d seen opened p) (hopened : opened.map (·.move) = a) :
    ∀ before s after, run.trail p moves = before ++ s :: after → Reached d (seen ++ before) s := by
  induction hbalanced generalizing seen opened p with
  | nil => intro before s after htrail; simp [Run.trail] at htrail
  | plain hplain _ ih =>
    exact reached_cons (h.reached_of_none hplain.opener?_eq)
      fun q hact => ih (h.plain hplain hact) hopened
  | @opens a b m rest hopens _ ih =>
    refine reached_cons (h.reached_of_none ?_) fun q hact =>
      ih (h.opens hopens hact) (by simp [hopened])
    rcases hopens with h' | h' <;> simp [h', Act.opener?]
  | swap _ ih =>
    obtain ⟨s, opened, rfl, hs, hopened⟩ := List.map_eq_cons_iff.mp hopened
    obtain ⟨t, opened, rfl, ht, hrest⟩ := List.map_eq_cons_iff.mp hopened
    exact reached_cons (h.reached_of_none rfl)
      fun q hact => ih (h.swap hact) (by simp [hs, ht, hrest])
  | @closes a b site act opener rest hcloses _ ih =>
    obtain ⟨s, opened, rfl, hs, hrest⟩ := List.map_eq_cons_iff.mp hopened
    refine reached_cons (h.reached_of_top hs hcloses) fun q hact => ih ?_ hrest
    -- only a patch changes bytes that are there; all else that closes appends
    by_cases hpatch : act = .patch
    · subst hpatch
      obtain rfl := Option.some.inj hcloses
      exact h.patched rfl (by rw [hs]) hact
    · exact h.closes (m := ⟨site, act⟩) hpatch hcloses hact

/-! ## The account of an emission -/

/-- The patch at the stage `s` fills the hole that was made at the stage `made` of the same item. -/
structure Fills (run : Run) (d : Draft) (made s : Stage) : Prop where
  move : made.move = ⟨s.move.site, .hole⟩
  /-- the hole lies behind the bytes of `d` and within those that are there -/
  behind : d.bytes.size ≤ made.offset
  room : made.offset + 2 ≤ s.before.draft.bytes.size
  empty : HoleAt s.before.draft made.offset
  /-- its two bytes become a jump to the next byte, and no other byte changes -/
  rewrites : ∀ q, run.act s.before s.move.act = .ok q →
    q.draft.bytes.size = s.before.draft.bytes.size ∧
    (∃ w, encode .jmpi [UInt16.ofNat (run.pc s.before.draft)] = .ok w ∧
      q.draft.bytes[made.offset]? = some (Run.highByte w) ∧
      q.draft.bytes[made.offset + 1]? = some (Run.lowByte w)) ∧
    ∀ k, k ≠ made.offset → k ≠ made.offset + 1 → q.draft.bytes[k]? = s.before.draft.bytes[k]?

/-- The place that a closing move takes from the stack is the one its opener left there. -/
theorem Closes.headD {d : Draft} {opener : Act} {made s : Stage} (h : Closes d opener made s) :
    s.before.offsets.headD 0 = made.offset := by
  rw [List.headD_eq_head?_getD, h.offset]
  rfl

/-- A patch that closes a hole fills it: its two bytes are still zero, as `Fits` says. -/
theorem Closes.fills {run : Run} {d : Draft} {made s : Stage} (h : Closes d .hole made s)
    (hpatch : s.move.act = .patch) : Fills run d made s where
  move := h.move
  behind := h.behind
  room := (h.empty rfl).room
  empty := h.empty rfl
  rewrites q hact := by
    rw [hpatch] at hact
    obtain ⟨d', hd', hq⟩ := bind_eq_ok.mp hact
    obtain rfl := pure_eq_ok.mp hq
    rw [h.headD] at hd'
    exact ⟨Run.size_of_patch hd', Run.patch_hole hd' (h.empty rfl).room,
      fun k hk hk' => Run.patch_elsewhere hd' hk hk'⟩

/-- At every stage that the emission of a block reaches: nothing that was there has changed, a patch
    fills the hole of its own item, and the instruction behind `then` has two bytes. -/
structure FillsHoles (run : Run) (d : Draft) (items : List Item) : Prop where
  kept : ∀ s ∈ run.trail ⟨d, []⟩ (planOf items), KeptTo d.bytes.size d s.before.draft
  patches : ∀ before s after, run.trail ⟨d, []⟩ (planOf items) = before ++ s :: after →
    s.move.act = .patch → ∃ made ∈ before, Fills run d made s
  bodies : ∀ before s after q, run.trail ⟨d, []⟩ (planOf items) = before ++ s :: after →
    s.move.act = .single → run.act s.before s.move.act = .ok q →
    ∃ made ∈ before, made.move = ⟨s.move.site, .here⟩ ∧
      s.before.draft.bytes.size = made.offset + 2

/-- Every patch of an emission fills a hole of its own, by the invariant along the balanced plan. -/
theorem fillsHoles (run : Run) (d : Draft) (items : List Item) : FillsHoles run d items := by
  have hreached : ∀ before s after, run.trail ⟨d, []⟩ (planOf items) = before ++ s :: after →
      Reached d ([] ++ before) s := (balanced_planOf items []).reached (Fits.start d) rfl
  simp only [List.nil_append] at hreached
  constructor
  case kept =>
    intro s hs
    obtain ⟨before, after, htrail⟩ := List.append_of_mem hs
    exact (hreached before s after htrail).kept
  case patches =>
    intro before s after htrail hpatch
    obtain ⟨made, hmade, hcloses⟩ :=
      (hreached before s after htrail).closes .hole (by rw [hpatch]; rfl)
    exact ⟨made, hmade, hcloses.fills hpatch⟩
  case bodies =>
    intro before s after q htrail hsingle hact
    obtain ⟨made, hmade, hcloses⟩ :=
      (hreached before s after htrail).closes .here (by rw [hsingle]; rfl)
    refine ⟨made, hmade, hcloses.move, ?_⟩
    rw [hsingle] at hact
    simp only [Run.act, hcloses.headD] at hact
    split at hact
    · omega
    · cases hact

/-- A block has been appended: its code without holes, nothing else. -/
structure EmitsCode (run : Run) (d : Draft) (items : List Item) (d' : Draft) : Prop where
  bytes : d'.bytes.toList = d.bytes.toList ++ codeBytes (codeOf d.labels (run.pc d) items)
  /-- every instruction of the code has a word -/
  encodes : ∀ s ∈ codeOf d.labels (run.pc d) items, s.Encodes
  kept : KeptTo d.bytes.size d d'
  pc : run.pc d' = run.pc d + codeSize (codeOf d.labels (run.pc d) items)
  labels : d'.labels = d.labels
  /-- the targets of control flow are not cut -/
  targets : ∀ t, .jump t ∈ codeOf d.labels (run.pc d) items →
    t < 0x1000 ∧ (Segment.jump t).bytes = wordBytes (UInt16.ofNat (0x1000 + t))

theorem Segment.length_le_codeSize {s : Segment} {code : List Segment} (h : s ∈ code) :
    s.bytes.length ≤ codeSize code := by
  obtain ⟨before, after, rfl⟩ := List.append_of_mem h
  simp only [codeSize_append, codeSize_cons]
  omega

section Blocks

variable {settings : Options} {d d' : Draft} {items : List Item}

/-- A block that appends anything ends within the memory. -/
theorem pc_le_memory_of_block (h : Run.block ⟨settings, .emit⟩ d items = .ok d')
    (hgrown : Run.pc ⟨settings, .emit⟩ d < Run.pc ⟨settings, .emit⟩ d') :
    Run.pc ⟨settings, .emit⟩ d' ≤ settings.memoryEnd := by
  have hmax : Run.pc ⟨settings, .emit⟩ d' ≤
      max (Run.pc ⟨settings, .emit⟩ d) settings.memoryEnd :=
    Run.pc_le_max_of_follow ((Run.block_eq_ok _).mp h)
  omega

/-- The bytes that are appended are the reference code, each of whose instructions encodes. -/
theorem emitsCode (hmemory : settings.memoryEnd < 0xFFFF)
    (h : Run.block ⟨settings, .emit⟩ d items = .ok d') :
    EmitsCode ⟨settings, .emit⟩ d items d' := by
  have hemits := Run.block_emits rfl items h
  refine ⟨hemits.bytes, hemits.encodes, ?_, hemits.pc, hemits.labels, fun t ht => ?_⟩
  · obtain ⟨_, hgrown, -⟩ := Run.block_grows items h
    exact hgrown.kept
  · have htarget := (target_block items ht).2
    have hroom := pc_le_memory_of_block h (by
      have hsize := Segment.length_le_codeSize ht
      rw [Segment.length_bytes_jump] at hsize
      have hpc := hemits.pc
      omega)
    rw [hemits.pc] at hroom
    obtain ⟨w, hw⟩ := hemits.encodes _ ht _ rfl
    obtain ⟨hword, hlt⟩ := Machine.encode_jmpi_eq_ok hw
    -- the end of the jump lies within memory, so cutting it to a word changes nothing
    have hexact : (UInt16.ofNat t).toNat = t := by
      rw [UInt16.toNat_ofNat']
      omega
    rw [hexact] at hword hlt
    refine ⟨hlt, ?_⟩
    rw [show (Segment.jump t).bytes = wordBytes w from (jumpTo t).bytes_of_encode hw, ← hword,
      UInt16.ofNat_toNat]

end Blocks

/-- **Holes and patches come to the code without holes.**  Whatever has been emitted before, a block
    of the second pass is refused or appends exactly the code that `codeOf` writes down for its
    address; on the way every patch fills the hole of its own item and touches nothing else.  The
    body of `then` is one instruction. -/
theorem emission_direct {settings : Options} (hmemory : settings.memoryEnd < 0xFFFF) (d : Draft) :
    (∀ items, FillsHoles ⟨settings, .emit⟩ d items ∧
      ((∃ e, Run.block ⟨settings, .emit⟩ d items = .error e) ∨
        ∃ d', Run.block ⟨settings, .emit⟩ d items = .ok d' ∧
          EmitsCode ⟨settings, .emit⟩ d items d')) ∧
    ∀ site cond body d', Run.item ⟨settings, .emit⟩ d (.ifThen site cond body) = .ok d' →
      let start := Run.pc ⟨settings, .emit⟩ d
      codeSize (codeOf d.labels
        (start + codeSize (cond.code d.labels start false)) body) = 2 := by
  refine ⟨fun items => ⟨fillsHoles _ d items, ?_⟩, ?_⟩
  · cases h : Run.block ⟨settings, .emit⟩ d items with
    | error e => exact .inl ⟨e, rfl⟩
    | ok d' => exact .inr ⟨d', rfl, emitsCode hmemory h⟩
  · intro site cond body d' h
    obtain ⟨d₁, hskip, hbody, hsize⟩ := Run.item_ifThen h
    have htest := Run.skip_emits rfl hskip
    have hemits := Run.block_emits rfl body hbody
    rw [htest.labels, htest.pc] at hemits
    have hgrown := hemits.size
    show codeSize _ = 2
    omega

/-- Two branches, with a hole of a loop inside the hole of the first one. -/
def holedItems : List Item :=
  [.ifElse ⟨1, "if"⟩ (.compare (vReg 0) .eq (.imm (.number 1)) (vReg 15))
    [.whileDo ⟨2, "while"⟩ (.key (vReg 1) true) [.leaf ⟨3, "clear"⟩ (.instr (.bare .clr))],
      .leaf ⟨4, "i"⟩ (.instr (.addr .sto (.label "art")))]
    [.ifThen ⟨5, "if"⟩ (.compare (vReg 2) .lt (.reg (vReg 3)) (vReg 15))
      [.leaf ⟨6, "clear"⟩ (.instr (.bare .clr))]]]

/-- A second pass that has emitted two bytes. -/
def holedStart : Draft := ⟨#[1, 2], [("art", [0x200])], [], []⟩

/-- The same pass behind `holedItems`. -/
def holedEnd : Draft where
  bytes := #[1, 2, 0x30, 1, 0x12, 0x12, 0xE1, 0x9E, 0x12, 0x0E, 0, 0xE0, 0x12, 6, 0xA2, 0, 0x12,
    0x1A, 0x8F, 0x20, 0x8F, 0x35, 0x4F, 0, 0, 0xE0]
  labels := [("art", [0x200])]
  breakpoints := []
  monitors := []

/-- An alternative with a loop and a comparison inside, emitted behind two other bytes. -/
theorem emission_direct_holed :
    Run.block ⟨{}, .emit⟩ holedStart holedItems = .ok holedEnd ∧
      FillsHoles ⟨{}, .emit⟩ holedStart holedItems ∧
      EmitsCode ⟨{}, .emit⟩ holedStart holedItems holedEnd := by
  have hblock : Run.block ⟨{}, .emit⟩ holedStart holedItems = .ok holedEnd := by decide +kernel
  obtain ⟨hholes, hcode⟩ := (@emission_direct {} (by decide) holedStart).1 holedItems
  refine ⟨hblock, hholes, ?_⟩
  rcases hcode with ⟨e, herror⟩ | ⟨d', hok, hemits⟩
  · cases hblock.symm.trans herror
  · obtain rfl := Except.ok.inj (hok.symm.trans hblock)
    exact hemits

end OctoAsm
