/-
  Where paths lead.

  A write leaves every path leading where it led before.  A path is followed from directory to
  directory, and a file is only written in a directory that is there already, so the write makes no
  directory (`isDirectory_set`): the names on the way to a new file were directories before.  What
  carries this is an invariant of the walk, `Reached`: the place that it has reached is a directory or
  lies in one.

  Two paths may be different and lead to one place.  Those that agree in whether they begin with a dot
  and have no step up in them do so only if they are the same (`path_eq_of_locate`).
-/
import OctoAsm.Command.Files
import OctoAsm.Proofs.Outcome

namespace OctoAsm.Command

namespace Files

variable {files files' : Files} {dir place : List String} {content : ByteArray}

/-! ## Directories -/

/-- What leads to a directory is a directory. -/
theorem isDirectory_above {a b : List String} (hb : files.isDirectory b = true) (hab : a <+: b) :
    files.isDirectory a = true := by
  obtain ⟨rest, rfl⟩ := hab
  simp only [isDirectory, Bool.or_eq_true] at hb ⊢
  rcases hb with (hdots | hroot) | hfile
  · rw [List.all_append, Bool.and_eq_true] at hdots
    exact .inl (.inl hdots.1)
  · cases a with
    | nil => exact .inl (.inl rfl)
    | cons c cs =>
      obtain ⟨rfl, hnil⟩ : c = "/" ∧ cs ++ rest = [] := by simpa using hroot
      obtain ⟨rfl, -⟩ := List.append_eq_nil_iff.mp hnil
      exact .inl (.inr rfl)
  · obtain ⟨f, hf, hlong⟩ := List.any_eq_true.mp hfile
    refine .inr (List.any_eq_true.mpr ⟨f, hf, ?_⟩)
    simp only [Bool.and_eq_true, List.isPrefixOf_iff_prefix, bne_iff_ne] at hlong ⊢
    refine ⟨(List.prefix_append a rest).trans hlong.1, fun heq => hlong.2 ?_⟩
    -- the longer list lies between the two that are equal
    have hlen := hlong.1.length_le
    rw [← heq] at hlen
    have hrest : rest = [] := by
      rw [List.length_append] at hlen
      exact List.eq_nil_of_length_eq_zero (by omega)
    rw [hrest, List.append_nil, heq]

/-- Setting a file adds at most the file itself to what is found. -/
theorem any_set (p : List String → Bool) (files : Files) (parts : List String)
    (content : ByteArray) :
    (files.set parts content).any (fun f => p f.1) = (files.any (fun f => p f.1) || p parts) := by
  induction files with
  | nil => simp [set]
  | cons f rest ih =>
    obtain ⟨key, old⟩ := f
    rw [set]
    split
    · rename_i hkey
      subst hkey
      cases h : p key <;> simp [h]
    · simp only [List.any_cons, ih, Bool.or_assoc]

/-- A file that is written in a directory makes no directory. -/
theorem isDirectory_set (hdir : files.isDirectory dir = true) (name : String) (content : ByteArray)
    (parts : List String) :
    (files.set (dir ++ [name]) content).isDirectory parts = files.isDirectory parts := by
  have hany := any_set (fun key => parts.isPrefixOf key && parts != key) files (dir ++ [name]) content
  simp only [isDirectory, hany]
  cases hnew : (parts.isPrefixOf (dir ++ [name]) && parts != dir ++ [name]) with
  | false => rw [Bool.or_false]
  | true =>
    -- what leads to the file without being it leads to the directory
    simp only [Bool.and_eq_true, List.isPrefixOf_iff_prefix, bne_iff_ne] at hnew
    have hlead : parts <+: dir := by
      rcases List.prefix_concat_iff.mp hnew.1 with heq | hlead
      · exact absurd heq hnew.2
      · exact hlead
    have hparts := isDirectory_above hdir hlead
    simp only [isDirectory] at hparts
    simp only [Bool.or_true, hparts]

/-! ## The walk -/

/-- A place, given back to front, that is a directory or lies in one. -/
def Reached (files : Files) (back : List String) : Prop :=
  files.isDirectory back.reverse = true ∨
    ∃ name outer, back = name :: outer ∧ files.isDirectory outer.reverse = true

/-- A step up from a directory leads to a directory, or to the root. -/
theorem reached_parent {back : List String} (h : files.isDirectory back.reverse = true) :
    files.Reached (parent back) := by
  unfold parent
  split
  · exact .inl (by simp [isDirectory])
  · exact .inr ⟨_, _, rfl, h⟩
  · exact .inl h
  · rename_i name outer _ _
    refine .inl (isDirectory_above h ?_)
    rw [List.reverse_cons]
    exact List.prefix_append _ _

/-- By induction on the names left: the walk ends at a directory or in one. -/
theorem reached_of_walk {rest : List String} : ∀ {back : List String}, files.Reached back →
    files.walk back rest = .ok place → files.Reached place.reverse := by
  induction rest with
  | nil =>
    intro back hback h
    obtain rfl := Except.ok.inj h
    rwa [List.reverse_reverse]
  | cons part rest ih =>
    intro back hback h
    rw [walk] at h
    split at h
    · rename_i hdir
      refine ih ?_ h
      split
      · exact reached_parent hdir
      · exact .inr ⟨part, back, rfl, hdir⟩
    · split at h <;> cases h

/-- A path leads to a directory or into one. -/
theorem reached_of_locate {path : String} (h : files.locate path = .ok place) :
    files.Reached place.reverse := by
  unfold locate at h
  split at h
  · refine reached_of_walk (.inl ?_) h
    split <;> simp [isDirectory]
  · cases h

/-- A walk depends on nothing but the directories, as long as it does not fail. -/
theorem walk_congr (hdirs : ∀ parts, files'.isDirectory parts = files.isDirectory parts)
    {rest : List String} : ∀ back : List String,
    (files'.walk back rest).toOption = (files.walk back rest).toOption := by
  induction rest with
  | nil => intro back; rfl
  | cons part rest ih =>
    intro back
    rw [walk, walk, hdirs]
    split
    · exact ih _
    · split <;> split <;> rfl

/-! ## Writes -/

/-- The place that a path leads to. -/
def place? (files : Files) (path : String) : Option (List String) := (files.locate path).toOption

/-- A path has a place where it can be followed. -/
theorem place?_eq_some {path : String} : files.place? path = some place ↔
    files.locate path = .ok place := by
  unfold place?
  cases files.locate path <;> simp [Except.toOption]

/-- What a write does: it puts the content at the place of its path, which is no directory. -/
theorem write_eq_ok {path : String} (h : files.write path content = .ok files') :
    ∃ place, files.place? path = some place ∧ files.isDirectory place = false ∧
      files' = files.set place content := by
  obtain ⟨place, hplace, h⟩ := bind_eq_ok.mp h
  refine ⟨place, place?_eq_some.mpr hplace, ?_⟩
  split at h
  · cases h
  · rename_i hdir
    refine ⟨by simpa using hdir, ?_⟩
    split at h
    · split at h
      · exact (pure_eq_ok.mp h).symm
      · cases h
    · cases h
    · cases h
    · cases h

/-- **A write leaves every path leading where it led.** -/
theorem place?_write {path : String} (h : files.write path content = .ok files') (other : String) :
    files'.place? other = files.place? other := by
  obtain ⟨place, hplace, hdir, rfl⟩ := write_eq_ok h
  -- the place is no directory, so it lies in one
  have hreached := reached_of_locate (place?_eq_some.mp hplace)
  obtain ⟨name, outer, hback, houter⟩ : ∃ name outer, place.reverse = name :: outer ∧
      files.isDirectory outer.reverse = true := by
    rcases hreached with hback | hback
    · rw [List.reverse_reverse, hdir] at hback
      cases hback
    · exact hback
  have hsplit : place = outer.reverse ++ [name] := by
    rw [← List.reverse_cons, ← hback, List.reverse_reverse]
  have hdirs : ∀ parts, (files.set place content).isDirectory parts = files.isDirectory parts := by
    intro parts
    rw [hsplit]
    exact isDirectory_set houter name content parts
  unfold place? locate
  split
  · exact walk_congr hdirs _
  · rfl

/-- A write changes what its place holds, and nothing else. -/
theorem get?_write {path : String} (h : files.write path content = .ok files')
    (parts : List String) : files'.get? parts =
      if files.place? path = some parts then some content else files.get? parts := by
  obtain ⟨place, hplace, -, rfl⟩ := write_eq_ok h
  rw [hplace]
  split
  · rename_i heq
    obtain rfl := Option.some.inj heq
    exact get?_set_self _ _ _
  · rename_i hne
    exact get?_set_of_ne _ _ fun heq => hne (congrArg some heq.symm)

end Files

/-! ## Paths that are written plainly -/

/-- The pieces of a path are cut at the slashes, so there is none left in them. -/
theorem slash_not_mem_pieces (cs : List Char) : ∀ piece ∈ pieces cs, '/' ∉ piece := by
  induction cs with
  | nil => simp [pieces]
  | cons c cs ih =>
    intro piece hpiece
    unfold pieces at hpiece
    split at hpiece
    · rcases List.mem_cons.mp hpiece with rfl | hpiece
      · simp
      · exact ih piece hpiece
    · rename_i first rest hslash heq
      rcases List.mem_cons.mp hpiece with rfl | hpiece
      · have hfirst := ih first (by simp [heq])
        simp [hfirst, Ne.symm hslash]
      · exact ih piece (by simp [heq, hpiece])
    · rename_i hslash heq
      obtain rfl := List.mem_singleton.mp hpiece
      simp [Ne.symm hslash]

/-- No part of a path is the root. -/
theorem Path.ne_root_of_mem_parts {path part : String} (h : part ∈ (Path.ofString path).parts) :
    part ≠ "/" := by
  rintro rfl
  obtain ⟨piece, hpiece, hroot⟩ := List.mem_map.mp h
  have hchars : piece = ['/'] := by
    have := congrArg String.toList hroot
    simpa using this
  have hslash := slash_not_mem_pieces path.toList piece (List.mem_filter.mp hpiece).1
  simp [hchars] at hslash

theorem Path.eq_of_fields {p q : Path} (habsolute : p.absolute = q.absolute)
    (hhere : p.here = q.here) (hparts : p.parts = q.parts) : p = q := by
  cases p
  cases q
  simp_all only

/-- No step up is among the components. -/
def Path.Plain (p : Path) : Prop := ".." ∉ p.parts

namespace Files

variable {files : Files} {place : List String} {path path' : String}

/-- Without a step up, the walk only appends names. -/
theorem walk_plain {rest : List String} (hplain : ".." ∉ rest) : ∀ {back : List String},
    files.walk back rest = .ok place → place = back.reverse ++ rest := by
  induction rest with
  | nil =>
    intro back h
    obtain rfl := Except.ok.inj h
    simp
  | cons part rest ih =>
    intro back h
    have hpart : part ≠ ".." := fun heq => hplain (heq ▸ List.mem_cons_self)
    have hrest : ".." ∉ rest := fun hmem => hplain (List.mem_cons_of_mem _ hmem)
    rw [walk, if_neg hpart] at h
    split at h
    · simpa using ih hrest h
    · split at h <;> cases h

/-- Without steps up a path leads to the place of its components. -/
theorem locate_plain (hplain : (Path.ofString path).Plain) (h : files.locate path = .ok place) :
    place = (if (Path.ofString path).absolute then ["/"] else []) ++ (Path.ofString path).parts := by
  unfold locate at h
  split at h
  · rw [walk_plain hplain h]
    split <;> rfl
  · cases h

/-- Plain paths that lead to one place are the same, unless only one of them begins with a dot. -/
theorem path_eq_of_locate (hplain : (Path.ofString path).Plain)
    (hplain' : (Path.ofString path').Plain)
    (hhere : (Path.ofString path).here = (Path.ofString path').here)
    (h : files.locate path = .ok place) (h' : files.locate path' = .ok place) :
    Path.ofString path = Path.ofString path' := by
  have hplace := (locate_plain hplain h).symm.trans (locate_plain hplain' h')
  have hroot : ∀ text : String, "/" ∉ (Path.ofString text).parts :=
    fun text hmem => Path.ne_root_of_mem_parts hmem rfl
  have hboth : (Path.ofString path).absolute = (Path.ofString path').absolute ∧
      (Path.ofString path).parts = (Path.ofString path').parts := by
    -- a path that is not absolute has no part that is the root
    cases habs : (Path.ofString path).absolute <;> cases habs' : (Path.ofString path').absolute <;>
      simp only [habs, habs', if_true, Bool.false_eq_true, if_false, List.nil_append,
        List.cons_append, List.cons.injEq, true_and] at hplace
    · exact ⟨rfl, hplace⟩
    · exact absurd (by simp [hplace]) (hroot path)
    · exact absurd (by simp [← hplace]) (hroot path')
    · exact ⟨rfl, hplace⟩
  exact Path.eq_of_fields hboth.1 hhere hboth.2

end Files

end OctoAsm.Command
