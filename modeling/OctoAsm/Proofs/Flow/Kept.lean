/-
  What the emission of structured items keeps.

  A block is appended to what was there, and a patch changes nothing but its hole.  Holes are made
  behind the bytes that a block finds, so no block changes the bytes before it (`Run.block_grows`).
  A block of instructions and control flow has a size that is known beforehand (`Run.block_grown`).
-/
import OctoAsm.Proofs.Flow.Structured
import OctoAsm.Proofs.Outcome

namespace OctoAsm

open Machine (encode)

/-! ## Items, taken apart -/

theorem Site.blame_eq_ok {site : Site} {x : Except EmitCause Draft} {d : Draft} :
    site.blame x = .ok d ↔ x = .ok d := by
  cases x <;> simp [blame]

namespace Run

variable {run : Run} {d d' : Draft} {site : Site} {cond : Cond} {body otherwise : List Item}

/-- `if then`, taken apart into its test and its body of two bytes. -/
theorem item_ifThen (h : run.item d (.ifThen site cond body) = .ok d') :
    ∃ d₁, run.skip d cond false = .ok d₁ ∧ run.block d₁ body = .ok d' ∧
      d'.bytes.size - d₁.bytes.size = 2 := by
  obtain ⟨d₁, h₁, h⟩ := bind_eq_ok.mp h
  obtain ⟨d₂, h₂, h⟩ := bind_eq_ok.mp h
  dsimp only at h
  split at h
  · rename_i hsize
    obtain rfl := pure_eq_ok.mp h
    exact ⟨d₁, Site.blame_eq_ok.mp h₁, h₂, hsize⟩
  · cases h

/-- `if begin`, taken apart: the hole is filled when the end of the body is known. -/
theorem item_ifBegin (h : run.item d (.ifBegin site cond body) = .ok d') :
    ∃ d₁ d₂ d₃, run.skip d cond true = .ok d₁ ∧ run.hole d₁ = .ok d₂ ∧
      run.block d₂ body = .ok d₃ ∧ run.patch d₃ d₁.bytes.size = .ok d' := by
  obtain ⟨d₁, h₁, h⟩ := bind_eq_ok.mp h
  obtain ⟨d₂, h₂, h⟩ := bind_eq_ok.mp h
  obtain ⟨d₃, h₃, h⟩ := bind_eq_ok.mp h
  exact ⟨d₁, d₂, d₃, Site.blame_eq_ok.mp h₁, Site.blame_eq_ok.mp h₂, h₃, Site.blame_eq_ok.mp h⟩

/-- `if begin else`, taken apart: the first hole is filled behind the second one. -/
theorem item_ifElse (h : run.item d (.ifElse site cond body otherwise) = .ok d') :
    ∃ d₁ d₂ d₃ d₄ d₅ d₆, run.skip d cond true = .ok d₁ ∧ run.hole d₁ = .ok d₂ ∧
      run.block d₂ body = .ok d₃ ∧ run.hole d₃ = .ok d₄ ∧ run.patch d₄ d₁.bytes.size = .ok d₅ ∧
      run.block d₅ otherwise = .ok d₆ ∧ run.patch d₆ d₃.bytes.size = .ok d' := by
  obtain ⟨d₁, h₁, h⟩ := bind_eq_ok.mp h
  obtain ⟨d₂, h₂, h⟩ := bind_eq_ok.mp h
  obtain ⟨d₃, h₃, h⟩ := bind_eq_ok.mp h
  obtain ⟨d₄, h₄, h⟩ := bind_eq_ok.mp h
  obtain ⟨d₅, h₅, h⟩ := bind_eq_ok.mp h
  obtain ⟨d₆, h₆, h⟩ := bind_eq_ok.mp h
  exact ⟨d₁, d₂, d₃, d₄, d₅, d₆, Site.blame_eq_ok.mp h₁, Site.blame_eq_ok.mp h₂, h₃,
    Site.blame_eq_ok.mp h₄, Site.blame_eq_ok.mp h₅, h₆, Site.blame_eq_ok.mp h⟩

/-- A loop, taken apart: it jumps to where its body starts. -/
theorem item_loop (h : run.item d (.loop site body) = .ok d') :
    ∃ d₁, run.block d body = .ok d₁ ∧ run.jump d₁ (run.pc d) = .ok d' := by
  obtain ⟨d₁, h₁, h⟩ := bind_eq_ok.mp h
  exact ⟨d₁, h₁, Site.blame_eq_ok.mp h⟩

/-- `until`, taken apart: its hole lies between the test and the jump back. -/
theorem item_loopUntil (h : run.item d (.loopUntil site body cond) = .ok d') :
    ∃ d₁ d₂ d₃ d₄, run.block d body = .ok d₁ ∧ run.skip d₁ cond false = .ok d₂ ∧
      run.hole d₂ = .ok d₃ ∧ run.jump d₃ (run.pc d) = .ok d₄ ∧
      run.patch d₄ d₂.bytes.size = .ok d' := by
  obtain ⟨d₁, h₁, h⟩ := bind_eq_ok.mp h
  obtain ⟨d₂, h₂, h⟩ := bind_eq_ok.mp h
  obtain ⟨d₃, h₃, h⟩ := bind_eq_ok.mp h
  obtain ⟨d₄, h₄, h⟩ := bind_eq_ok.mp h
  exact ⟨d₁, d₂, d₃, d₄, h₁, Site.blame_eq_ok.mp h₂, Site.blame_eq_ok.mp h₃,
    Site.blame_eq_ok.mp h₄, Site.blame_eq_ok.mp h⟩

/-- `while`, taken apart: its hole lies between the test and the body. -/
theorem item_whileDo (h : run.item d (.whileDo site cond body) = .ok d') :
    ∃ d₁ d₂ d₃ d₄, run.skip d cond true = .ok d₁ ∧ run.hole d₁ = .ok d₂ ∧
      run.block d₂ body = .ok d₃ ∧ run.jump d₃ (run.pc d) = .ok d₄ ∧
      run.patch d₄ d₁.bytes.size = .ok d' := by
  obtain ⟨d₁, h₁, h⟩ := bind_eq_ok.mp h
  obtain ⟨d₂, h₂, h⟩ := bind_eq_ok.mp h
  obtain ⟨d₃, h₃, h⟩ := bind_eq_ok.mp h
  obtain ⟨d₄, h₄, h⟩ := bind_eq_ok.mp h
  exact ⟨d₁, d₂, d₃, d₄, Site.blame_eq_ok.mp h₁, Site.blame_eq_ok.mp h₂, h₃,
    Site.blame_eq_ok.mp h₄, Site.blame_eq_ok.mp h⟩

end Run

/-! ## Bytes that are kept -/

/-- The bytes before the offset `n` are the same. -/
def KeptTo (n : Nat) (d d' : Draft) : Prop := ∀ k < n, d'.bytes[k]? = d.bytes[k]?

/-- `d'` has `n` bytes more than `d`, and starts with the bytes of `d`. -/
structure Grown (n : Nat) (d d' : Draft) : Prop where
  size : d'.bytes.size = d.bytes.size + n
  kept : KeptTo d.bytes.size d d'

section Kept

variable {run : Run} {d d₁ d' : Draft} {m n : Nat}

theorem KeptTo.mono (h : KeptTo n d d') (hle : m ≤ n) : KeptTo m d d' :=
  fun k hk => h k (Nat.lt_of_lt_of_le hk hle)

theorem KeptTo.trans (h : KeptTo n d d₁) (h' : KeptTo n d₁ d') : KeptTo n d d' :=
  fun k hk => (h' k hk).trans (h k hk)

theorem Grown.trans (h : Grown m d d₁) (h' : Grown n d₁ d') : Grown (m + n) d d' := by
  have hsize := h.size
  have hsize' := h'.size
  exact ⟨by omega, h.kept.trans (h'.kept.mono (by omega))⟩

/-- Appending grows a draft by what was appended and keeps what was there. -/
theorem Run.Appends.grown {bs : List UInt8} (h : run.Appends d bs d') : Grown bs.length d d' := by
  refine ⟨h.size, fun k hk => ?_⟩
  rw [h.eq]
  exact Array.getElem?_append_left hk

/-- What is appended stands behind what was there. -/
theorem Run.Appends.getElem? {bs : List UInt8} (h : run.Appends d bs d') (k : Nat) :
    d'.bytes[d.bytes.size + k]? = bs[k]? := by
  rw [h.eq]
  simp [Array.getElem?_append_right]

/-- A patch changes nothing but its hole. -/
theorem Run.patch_elsewhere {start k : Nat} (h : run.patch d start = .ok d') (hk : k ≠ start)
    (hk' : k ≠ start + 1) : d'.bytes[k]? = d.bytes[k]? := by
  obtain ⟨w, -, rfl⟩ := patch_eq_ok h
  simp only [Array.getElem?_setIfInBounds]
  rw [if_neg (Ne.symm hk'), if_neg (Ne.symm hk)]

/-- A patch puts a jump to the end of the draft into its hole. -/
theorem Run.patch_hole {start : Nat} (h : run.patch d start = .ok d')
    (hroom : start + 1 < d.bytes.size) :
    ∃ w, encode .jmpi [UInt16.ofNat (run.pc d)] = .ok w ∧
      d'.bytes[start]? = some (highByte w) ∧ d'.bytes[start + 1]? = some (lowByte w) := by
  obtain ⟨w, hw, rfl⟩ := patch_eq_ok h
  refine ⟨w, hw, ?_, ?_⟩
  · simp only [Array.getElem?_setIfInBounds, Array.size_setIfInBounds]
    rw [if_neg (by omega), if_pos trivial, if_pos (by omega)]
  · simp only [Array.getElem?_setIfInBounds, Array.size_setIfInBounds]
    rw [if_pos trivial, if_pos hroom]

/-- A patch behind the bytes that were there does not touch them. -/
theorem Grown.patched {start : Nat} (h : Grown n d d₁) (hpatch : run.patch d₁ start = .ok d')
    (hstart : d.bytes.size ≤ start) : Grown n d d' := by
  refine ⟨(Run.size_of_patch hpatch).trans h.size, h.kept.trans fun k hk => ?_⟩
  exact Run.patch_elsewhere hpatch (by omega) (by omega)

theorem Run.skip_grown {cond : Cond} {w : Bool} (h : run.skip d cond w = .ok d') :
    Grown (2 * cond.words) d d' := by
  obtain ⟨bs, happ, hlen⟩ := skip_appends h
  rw [← hlen]
  exact happ.grown

theorem Run.hole_grown (h : run.hole d = .ok d') : Grown 2 d d' := (word_eq_ok h).grown

theorem Run.jump_grown {target : Nat} (h : run.jump d target = .ok d') : Grown 2 d d' := by
  obtain ⟨w, -, happ⟩ := op_eq_ok h
  exact happ.grown

end Kept

/-! ## Sizes of blocks -/

/-- All leaves are instructions. -/
def InstrsOnly (items : List Item) : Prop := ∀ l ∈ leavesOf items, ∃ i, l = .instr i

theorem InstrsOnly.sub {items body : List Item} (h : InstrsOnly items)
    (hsub : ∀ l ∈ leavesOf body, l ∈ leavesOf items) : InstrsOnly body :=
  fun l hl => h l (hsub l hl)

namespace Run

variable {run : Run}

/-- A leaf appends to what was there. -/
theorem leaf_grown {d d' : Draft} {l : Leaf} (h : run.leaf d l = .ok d') : ∃ n, Grown n d d' := by
  obtain ⟨⟨bs, hbytes, -, -⟩, -⟩ := leaf_effect h
  refine ⟨bs.length, by rw [hbytes]; simp, fun k hk => ?_⟩
  rw [hbytes]
  exact Array.getElem?_append_left hk

-- The size of the new bytes is known only if no `org` is among the leaves, so it comes second.
mutual

/-- An item is appended to what was there. -/
theorem item_grows : ∀ (i : Item) {d d' : Draft}, run.item d i = .ok d' →
    ∃ n, Grown n d d' ∧ (InstrsOnly [i] → n = i.size)
  | .leaf site l, d, d', h => by
    obtain ⟨n, hgrown⟩ := leaf_grown (Site.blame_eq_ok.mp h)
    refine ⟨n, hgrown, fun hi => ?_⟩
    obtain ⟨i, rfl⟩ := hi l (by simp [Item.leaves])
    obtain ⟨c, -, h⟩ := bind_eq_ok.mp (Site.blame_eq_ok.mp h)
    obtain ⟨w, -, happ⟩ := op_eq_ok h
    have hsize := happ.grown.size
    have hsize' := hgrown.size
    show n = 2
    simp only [length_wordBytes] at hsize
    omega
  | .ifThen site cond body, d, d', h => by
    obtain ⟨d₁, h₁, h₂, -⟩ := item_ifThen h
    obtain ⟨n, hbody, hn⟩ := block_grows body h₂
    refine ⟨_, (skip_grown h₁).trans hbody, fun hi => ?_⟩
    rw [hn (hi.sub (by simp [Item.leaves]))]
    rfl
  | .ifBegin site cond body, d, d', h => by
    obtain ⟨d₁, d₂, d₃, h₁, h₂, h₃, h₄⟩ := item_ifBegin h
    obtain ⟨n, hbody, hn⟩ := block_grows body h₃
    have hskip := skip_grown h₁
    have hsize := hskip.size
    refine ⟨_, ((hskip.trans (hole_grown h₂)).trans hbody).patched h₄ (by omega), fun hi => ?_⟩
    rw [hn (hi.sub (by simp [Item.leaves]))]
    rfl
  | .ifElse site cond body otherwise, d, d', h => by
    obtain ⟨d₁, d₂, d₃, d₄, d₅, d₆, h₁, h₂, h₃, h₄, h₅, h₆, h₇⟩ := item_ifElse h
    obtain ⟨n, hbody, hn⟩ := block_grows body h₃
    obtain ⟨n', hother, hn'⟩ := block_grows otherwise h₆
    have hskip := skip_grown h₁
    -- both holes lie behind the bytes that were there before the item
    have hmiddle := ((hskip.trans (hole_grown h₂)).trans hbody)
    have hsize := hskip.size
    have hsize' := hmiddle.size
    have hpatched := (hmiddle.trans (hole_grown h₄)).patched h₅ (by omega)
    refine ⟨_, (hpatched.trans hother).patched h₇ (by omega), fun hi => ?_⟩
    rw [hn (hi.sub (by simp +contextual [Item.leaves])),
      hn' (hi.sub (by simp +contextual [Item.leaves]))]
    rfl
  | .loop site body, d, d', h => by
    obtain ⟨d₁, h₁, h₂⟩ := item_loop h
    obtain ⟨n, hbody, hn⟩ := block_grows body h₁
    refine ⟨_, hbody.trans (jump_grown h₂), fun hi => ?_⟩
    rw [hn (hi.sub (by simp [Item.leaves]))]
    rfl
  | .loopUntil site body cond, d, d', h => by
    obtain ⟨d₁, d₂, d₃, d₄, h₁, h₂, h₃, h₄, h₅⟩ := item_loopUntil h
    obtain ⟨n, hbody, hn⟩ := block_grows body h₁
    have htest := hbody.trans (skip_grown h₂)
    have hsize := htest.size
    refine ⟨_, ((htest.trans (hole_grown h₃)).trans (jump_grown h₄)).patched h₅ (by omega),
      fun hi => ?_⟩
    rw [hn (hi.sub (by simp [Item.leaves]))]
    rfl
  | .whileDo site cond body, d, d', h => by
    obtain ⟨d₁, d₂, d₃, d₄, h₁, h₂, h₃, h₄, h₅⟩ := item_whileDo h
    obtain ⟨n, hbody, hn⟩ := block_grows body h₃
    have hskip := skip_grown h₁
    have hsize := hskip.size
    refine ⟨_, (((hskip.trans (hole_grown h₂)).trans hbody).trans (jump_grown h₄)).patched h₅
      (by omega), fun hi => ?_⟩
    rw [hn (hi.sub (by simp [Item.leaves]))]
    rfl

/-- A block is appended to what was there. -/
theorem block_grows : ∀ (items : List Item) {d d' : Draft}, run.block d items = .ok d' →
    ∃ n, Grown n d d' ∧ (InstrsOnly items → n = totalSize items)
  | [], d, d', h => by
    obtain rfl := Except.ok.inj h
    exact ⟨0, ⟨rfl, fun _ _ => rfl⟩, fun _ => rfl⟩
  | i :: rest, d, d', h => by
    obtain ⟨d₁, h₁, h₂⟩ := bind_eq_ok.mp h
    obtain ⟨n, hfirst, hn⟩ := item_grows i h₁
    obtain ⟨n', hrest, hn'⟩ := block_grows rest h₂
    refine ⟨_, hfirst.trans hrest, fun hi => ?_⟩
    rw [hn (hi.sub (by simp +contextual)), hn' (hi.sub (by simp +contextual))]
    rfl

end

/-- An item of instructions and control flow has a size that is known beforehand. -/
theorem item_grown {i : Item} {d d' : Draft} (hi : InstrsOnly [i]) (h : run.item d i = .ok d') :
    Grown i.size d d' := by
  obtain ⟨n, hgrown, hn⟩ := item_grows i h
  exact hn hi ▸ hgrown

/-- A block of instructions and control flow has the size that can be told beforehand. -/
theorem block_grown {items : List Item} {d d' : Draft} (hi : InstrsOnly items)
    (h : run.block d items = .ok d') : Grown (totalSize items) d d' := by
  obtain ⟨n, hgrown, hn⟩ := block_grows items h
  exact hn hi ▸ hgrown

end Run

end OctoAsm
