/-
  The listing of an image tells its tables.

  The entries of the three tables are lines of one text, and nothing says which table a line is from
  or where one ends.  It is the words in them that keep the lines apart.  An address begins with `0`, so
  a monitor's line is not one of the others; a name has no blank in it, so a label, even one that is
  called `breakpoint`, has a space fewer than a breakpoint; and a format has neither a quote nor a line
  feed, so a line is a line.  On such entries what is written is injective, entry by entry
  (`Entry.chars_injective`) and line by line (`eq_of_lines`).

  Names and formats are words of the text that was assembled (`spelled_of_resolve`), and words of a
  text are of that kind (`InLines.legible`).
-/
import OctoAsm.Assemble
import OctoAsm.Proofs.Image.Metadata
import OctoAsm.Proofs.Resolve.Spelling
import OctoAsm.Proofs.Text.Digits
import OctoAsm.Proofs.Token.Rendering

namespace OctoAsm

/-! ## Separators -/

/-- Two lists that are the same up to the first of some separator have it in the same place. -/
theorem eq_of_cut {α : Type} {a : α} {xs ys xs' ys' : List α} (hxs : a ∉ xs) (hxs' : a ∉ xs')
    (h : xs ++ a :: ys = xs' ++ a :: ys') : xs = xs' ∧ ys = ys' := by
  induction xs generalizing xs' with
  | nil =>
    cases xs' with
    | nil => exact ⟨rfl, (List.cons.inj h).2⟩
    | cons x' xs' => exact absurd ((List.cons.inj h).1 ▸ List.mem_cons_self) hxs'
  | cons x xs ih =>
    cases xs' with
    | nil => exact absurd ((List.cons.inj h).1 ▸ List.mem_cons_self) hxs
    | cons x' xs' =>
      obtain ⟨rfl, hrest⟩ := List.cons.inj h
      obtain ⟨rfl, hys⟩ := ih (fun hmem => hxs (List.mem_cons_of_mem _ hmem))
        (fun hmem => hxs' (List.mem_cons_of_mem _ hmem)) hrest
      exact ⟨rfl, hys⟩

/-- Lines that have no line feed in them are told by their text. -/
theorem eq_of_lines {ls ls' : List (List Char)} (hls : ∀ l ∈ ls, '\n' ∉ l)
    (hls' : ∀ l ∈ ls', '\n' ∉ l)
    (h : ls.flatMap (· ++ ['\n']) = ls'.flatMap (· ++ ['\n'])) : ls = ls' := by
  induction ls generalizing ls' with
  | nil =>
    cases ls' with
    | nil => rfl
    | cons l' ls' => simp at h
  | cons l ls ih =>
    cases ls' with
    | nil => simp at h
    | cons l' ls' =>
      obtain ⟨hl, hrest⟩ := List.forall_mem_cons.mp hls
      obtain ⟨hl', hrest'⟩ := List.forall_mem_cons.mp hls'
      simp only [List.flatMap_cons, List.append_assoc, List.singleton_append] at h
      obtain ⟨hfirst, h⟩ := eq_of_cut hl hl' h
      rw [hfirst, ih hrest hrest' h]

/-! ## Entries -/

/-- An entry of one of the tables. -/
inductive Entry where
  | label (name : String) (address : Nat)
  | breakpoint (name : String) (address : Nat)
  | monitor (m : Monitor)

/-- How a monitor shows what it watches, as the listing has it. -/
def MonitorFormat.chars : MonitorFormat → List Char
  | .length n => (toString n).toList
  | .format text => '"' :: (text.toList ++ ['"'])

/-- The line of an entry, without the line feed at its end. -/
def Entry.chars : Entry → List Char
  | .label name address => (addressText address).toList ++ ' ' :: name.toList
  | .breakpoint name address =>
    (addressText address).toList ++ ' ' :: ("breakpoint".toList ++ ' ' :: name.toList)
  | .monitor m => "monitor".toList ++ ' ' :: (m.base.render.toList ++ ' ' :: m.format.chars)

section Chars

variable (name : String) (address : Nat)

@[simp] theorem Entry.chars_label : (Entry.label name address).chars =
    (addressText address).toList ++ ' ' :: name.toList := rfl

@[simp] theorem Entry.chars_breakpoint : (Entry.breakpoint name address).chars =
    (addressText address).toList ++ ' ' :: ("breakpoint".toList ++ ' ' :: name.toList) := rfl

@[simp] theorem Entry.chars_monitor (m : Monitor) : (Entry.monitor m).chars =
    "monitor".toList ++ ' ' :: (m.base.render.toList ++ ' ' :: m.format.chars) := rfl

theorem toList_labelLine (e : String × Nat) :
    (labelLine e).toList = (Entry.label e.1 e.2).chars ++ ['\n'] := by
  rw [Entry.chars_label]
  simp [labelLine, toString]

theorem toList_breakpointLine (e : String × Nat) :
    (breakpointLine e).toList = (Entry.breakpoint e.1 e.2).chars ++ ['\n'] := by
  have hword : " breakpoint ".toList = ' ' :: ("breakpoint".toList ++ [' ']) := by decide
  rw [Entry.chars_breakpoint]
  simp only [breakpointLine, String.toList_append, toString, hword]
  simp

theorem toList_monitorLine (m : Monitor) :
    (monitorLine m).toList = (Entry.monitor m).chars ++ ['\n'] := by
  have hword : "monitor ".toList = "monitor".toList ++ [' '] := by decide
  rw [Entry.chars_monitor]
  obtain ⟨base, n | text⟩ := m
  · simp only [monitorLine, MonitorFormat.chars, String.toList_append, toString, hword]
    simp
  · have hquote : " \"".toList = [' ', '"'] := by decide
    have hclose : "\"\n".toList = ['"', '\n'] := by decide
    simp only [monitorLine, MonitorFormat.chars, String.toList_append, toString, hword, hquote,
      hclose]
    simp

end Chars

/-- The name is a plain word, and the format has neither quotes nor line feeds in it. -/
def Entry.Legible : Entry → Prop
  | .label name _ | .breakpoint name _ => ∀ c ∈ name.toList, isPlain c = true
  | .monitor m => ∀ text, m.format = .format text → ∀ c ∈ text.toList, c ≠ '"' ∧ c ≠ '\n'

/-- The entries of an image, table by table. -/
def Image.entries (image : Image) : List Entry :=
  image.labels.map (fun e => .label e.1 e.2) ++
    (image.breakpoints.map (fun e => .breakpoint e.1 e.2) ++ image.monitors.map .monitor)

/-- The listing has the entries as its lines. -/
theorem Image.toList_symbols (image : Image) :
    image.symbols.toList = (image.entries.map Entry.chars).flatMap (· ++ ['\n']) := by
  simp only [symbols, entries, String.toList_join, List.flatMap_append, List.map_append,
    List.flatMap_map, toList_labelLine, toList_breakpointLine, toList_monitorLine, List.append_assoc]

/-! ## Words of entries -/

/-- A blank is in no address. -/
theorem not_mem_addressText {c : Char} (hc : c = ' ' ∨ c = '\n') (a : Nat) :
    c ∉ (addressText a).toList := by
  rcases hc with rfl | rfl <;> exact Text.not_mem_hex (by decide) (by decide) 3 a

theorem addressText_injective {a b : Nat} (h : addressText a = addressText b) : a = b :=
  Text.hex_injective h

/-- An address does not begin like a monitor's line or a register. -/
theorem head_addressText (a : Nat) : (addressText a).toList.head? = some '0' := by
  rw [addressText, Text.toList_hex]
  rfl

/-- A plain word has no blanks in it. -/
theorem not_mem_of_plain {c : Char} (hc : c = ' ' ∨ c = '\n') {cs : List Char}
    (h : ∀ d ∈ cs, isPlain d = true) : c ∉ cs := by
  intro hmem
  have hplain := h c hmem
  rcases hc with rfl | rfl <;> exact absurd hplain (by decide)

theorem not_mem_render_base {c : Char} (hc : c = ' ' ∨ c = '\n') (base : MonitorBase) :
    c ∉ base.render.toList := by
  cases base with
  | address a => exact not_mem_addressText hc a
  | register r =>
    have hregister : ∀ r : Fin 16, ' ' ∉ (MonitorBase.register r).render.toList ∧
        '\n' ∉ (MonitorBase.register r).render.toList := by decide
    rcases hc with rfl | rfl
    · exact (hregister r).1
    · exact (hregister r).2

/-- What a monitor watches is told by its text: registers begin with `v`, addresses with `0`. -/
theorem MonitorBase.render_injective {base base' : MonitorBase} (h : base.render = base'.render) :
    base = base' := by
  have hregister : ∀ r r' : Fin 16,
      (MonitorBase.register r).render = (MonitorBase.register r').render → r = r' := by decide
  have hhead : ∀ r : Fin 16, (MonitorBase.register r).render.toList.head? ≠ some '0' := by decide
  cases base with
  | register r =>
    cases base' with
    | register r' => rw [hregister r r' h]
    | address a' => exact absurd (h ▸ head_addressText a') (hhead r)
  | address a =>
    cases base' with
    | register r' => exact absurd (h ▸ head_addressText a) (hhead r')
    | address a' => rw [addressText_injective h]

/-- How a monitor shows something is told by its text: only a format begins with a quote. -/
theorem MonitorFormat.chars_injective {format format' : MonitorFormat}
    (h : format.chars = format'.chars) : format = format' := by
  have hquote (n : Int) (cs : List Char) : (toString n).toList ≠ '"' :: cs := by
    intro hn
    have hplain := isPlain_toString n '"' (hn ▸ List.mem_cons_self)
    cases hplain
  cases format with
  | length n =>
    cases format' with
    | length n' => rw [Int.repr_inj.mp (String.toList_inj.mp h)]
    | format text' => exact absurd h (hquote n _)
  | format text =>
    cases format' with
    | length n' => exact absurd h.symm (hquote n' _)
    | format text' =>
      have htext := List.append_cancel_right (List.cons.inj h).2
      rw [String.toList_inj.mp htext]

/-! ## Lines of entries -/

namespace Entry

variable {e e' : Entry}

/-- A line is a line. -/
theorem feed_not_mem_chars (he : e.Legible) : '\n' ∉ e.chars := by
  cases e with
  | label name a =>
    have haddress := not_mem_addressText (.inr rfl) a
    have hname := not_mem_of_plain (.inr rfl) he
    simp [haddress, hname]
  | breakpoint name a =>
    have haddress := not_mem_addressText (.inr rfl) a
    have hname := not_mem_of_plain (.inr rfl) he
    simp [haddress, hname]
  | monitor m =>
    have hbase := not_mem_render_base (.inr rfl) m.base
    have hformat : '\n' ∉ m.format.chars := by
      cases hform : m.format with
      | length n => exact not_mem_of_plain (.inr rfl) (isPlain_toString n)
      | format text =>
        have htext : '\n' ∉ text.toList := fun hmem => (he text hform '\n' hmem).2 rfl
        simp [MonitorFormat.chars, htext]
    simp [hbase, hformat]

/-- A line that begins with an address is not that of a monitor. -/
theorem address_ne_monitor (a : Nat) (cs : List Char) (m : Monitor) :
    (addressText a).toList ++ cs ≠ (monitor m).chars := by
  intro h
  have hhead := congrArg List.head? h
  have hmonitor : (monitor m).chars.head? = some 'm' := rfl
  rw [List.head?_append, head_addressText, hmonitor] at hhead
  cases hhead

/-- A label has one space in its line, a breakpoint has two. -/
theorem label_ne_breakpoint {name name' : String} {a a' : Nat} (h : (label name a).Legible) :
    (label name a).chars ≠ (breakpoint name' a').chars := by
  intro heq
  have hspace := not_mem_addressText (.inl rfl)
  obtain ⟨-, hname⟩ := eq_of_cut (hspace a) (hspace a') heq
  have hnone := not_mem_of_plain (.inl rfl) h
  rw [hname] at hnone
  exact hnone (by simp)

/-- **An entry is told by its line.** -/
theorem chars_injective (he : e.Legible) (he' : e'.Legible) (h : e.chars = e'.chars) : e = e' := by
  have hspace := not_mem_addressText (.inl rfl)
  cases e with
  | label name a =>
    cases e' with
    | label name' a' =>
      obtain ⟨haddress, hname⟩ := eq_of_cut (hspace a) (hspace a') h
      rw [addressText_injective (String.toList_inj.mp haddress), String.toList_inj.mp hname]
    | breakpoint name' a' => exact absurd h (label_ne_breakpoint he)
    | monitor m' => exact absurd h (address_ne_monitor a _ m')
  | breakpoint name a =>
    cases e' with
    | label name' a' => exact absurd h.symm (label_ne_breakpoint he')
    | breakpoint name' a' =>
      obtain ⟨haddress, hword⟩ := eq_of_cut (hspace a) (hspace a') h
      have hname := (List.cons.inj (List.append_cancel_left hword)).2
      rw [addressText_injective (String.toList_inj.mp haddress), String.toList_inj.mp hname]
    | monitor m' => exact absurd h (address_ne_monitor a _ m')
  | monitor m =>
    cases e' with
    | label name' a' => exact absurd h.symm (address_ne_monitor a' _ m)
    | breakpoint name' a' => exact absurd h.symm (address_ne_monitor a' _ m)
    | monitor m' =>
      have hfields := (List.cons.inj (List.append_cancel_left h)).2
      have hbases := not_mem_render_base (.inl rfl)
      obtain ⟨hbase, hformat⟩ := eq_of_cut (hbases m.base) (hbases m'.base) hfields
      have hbase : m.base = m'.base := MonitorBase.render_injective (String.toList_inj.mp hbase)
      have hformat : m.format = m'.format := MonitorFormat.chars_injective hformat
      exact congrArg monitor (congrArg₂ Monitor.mk hbase hformat)

/-- Entries are told by the text of their lines. -/
theorem eq_of_chars {es es' : List Entry} (hes : ∀ e ∈ es, e.Legible) (hes' : ∀ e ∈ es', e.Legible)
    (h : es.map chars = es'.map chars) : es = es' := by
  induction es generalizing es' with
  | nil => exact (List.map_eq_nil_iff.mp h.symm).symm
  | cons e es ih =>
    cases es' with
    | nil => cases h
    | cons e' es' =>
      obtain ⟨he, hrest⟩ := List.forall_mem_cons.mp hes
      obtain ⟨he', hrest'⟩ := List.forall_mem_cons.mp hes'
      obtain ⟨hfirst, h⟩ := List.cons.inj h
      rw [chars_injective he he' hfirst, ih hrest hrest' h]

/-- A label, with its address. -/
def label? : Entry → Option (String × Nat)
  | label name address => some (name, address)
  | _ => none

/-- A breakpoint, with its address. -/
def breakpoint? : Entry → Option (String × Nat)
  | breakpoint name address => some (name, address)
  | _ => none

/-- A monitor. -/
def monitor? : Entry → Option Monitor
  | monitor m => some m
  | _ => none

end Entry

namespace Image

variable (image : Image)

/-- Each table has its entries, in order. -/
theorem filterMap_entries : image.entries.filterMap Entry.label? = image.labels ∧
    image.entries.filterMap Entry.breakpoint? = image.breakpoints ∧
      image.entries.filterMap Entry.monitor? = image.monitors := by
  simp [entries, List.filterMap_append, List.filterMap_map, Function.comp_def, Entry.label?,
    Entry.breakpoint?, Entry.monitor?]

end Image

/-! ## Images -/

section Images

variable {settings : Options} {items : List Item} {image : Image}

theorem exists_of_mem_forall₂ {α β : Type} {R : α → β → Prop} {xs : List α} {ys : List β}
    (h : List.Forall₂ R xs ys) {y : β} (hy : y ∈ ys) : ∃ x ∈ xs, R x y := by
  induction h with
  | nil => cases hy
  | cons hxy _ ih =>
    rcases List.mem_cons.mp hy with rfl | hy
    · exact ⟨_, List.mem_cons_self, hxy⟩
    · obtain ⟨x, hx, hR⟩ := ih hy
      exact ⟨x, List.mem_cons_of_mem _ hx, hR⟩

/-- Labels, breakpoints and monitors of an image are those of leaves. -/
structure TablesOf (items : List Item) (image : Image) : Prop where
  labels : ∀ e ∈ image.labels, ∃ next, (e.1, next) ∈ declaredIn items
  breakpoints : ∀ e ∈ image.breakpoints, .breakpoint e.1 ∈ leavesOf items
  monitors : ∀ m ∈ image.monitors, ∃ target, .monitor target m.format ∈ leavesOf items

theorem tablesOf_ofItems (h : Image.ofItems settings items = .ok image) : TablesOf items image := by
  obtain ⟨laid, emitted, hlaid, hemitted, rfl⟩ := ofItems_eq_ok.mp h
  have hlayout := (Run.map_fst_placed (layOut_eq_ok.mp hlaid)).trans (leavesBy_planOf items)
  have hemit := (Run.map_fst_placed (emit_eq_ok.mp hemitted)).trans (leavesBy_planOf items)
  obtain ⟨hbreak, hwatch⟩ := notes_cut hlaid hemitted
  constructor
  case labels =>
    intro e he
    have hkey : e.1 ∈ emitted.labels.heads.map Prod.fst := List.mem_map_of_mem he
    rw [heads_laid hlaid hemitted, ← firstOfEach_map_cut, mem_keys_firstOfEach, List.map_map] at hkey
    have hdeclared := mem_keys_declaredAt.mp hkey
    rwa [hlayout] at hdeclared
  case breakpoints =>
    intro e he
    replace he : e ∈ emitted.breakpoints.reverse := he
    rw [hbreak] at he
    obtain ⟨e', he', rfl⟩ := List.mem_map.mp he
    obtain ⟨⟨l, d⟩, hplace, hat⟩ := List.mem_filterMap.mp he'
    have hleaf : l ∈ leavesOf items := hemit ▸ List.mem_map_of_mem (f := Prod.fst) hplace
    unfold breakpointAt at hat
    split at hat
    · rename_i name hname
      obtain rfl := Option.some.inj hat
      replace hname : l = .breakpoint name := hname
      rwa [hname] at hleaf
    · cases hat
  case monitors =>
    intro m hm
    obtain ⟨place, hplace, target, hmonitor, -⟩ := exists_of_mem_forall₂ hwatch hm
    have hleaf : place.1 ∈ leavesOf items :=
      hemit ▸ List.mem_map_of_mem (f := Prod.fst) (List.mem_of_mem_filter hplace)
    exact ⟨target, hmonitor ▸ hleaf⟩

/-- The words of the tables are words of a text. -/
theorem TablesOf.legible (h : TablesOf items image) {ts : List Token} (hts : ∀ t ∈ ts, t.Legible)
    (hspelled : ∀ l ∈ leavesOf items, l.SpelledIn ts) : ∀ e ∈ image.entries, e.Legible := by
  have hname {name : String} (hword : ∃ t ∈ ts, t.kind = .name ∧ t.text = name) :
      ∀ c ∈ name.toList, isPlain c = true := by
    obtain ⟨t, ht, hkind, rfl⟩ := hword
    exact (hts t ht).name hkind
  intro entry hentry
  simp only [Image.entries, List.mem_append, List.mem_map] at hentry
  rcases hentry with ⟨e, he, rfl⟩ | ⟨e, he, rfl⟩ | ⟨m, hm, rfl⟩
  · obtain ⟨next, hdeclared⟩ := h.labels e he
    obtain ⟨l, hl, hdeclares⟩ := List.mem_filterMap.mp hdeclared
    have hword := hspelled l hl
    cases l with
    | label name | nextLabel name =>
      obtain ⟨rfl, -⟩ := Prod.mk.inj (Option.some.inj hdeclares)
      exact hname hword
    | _ => cases hdeclares
  · exact hname (hspelled _ (h.breakpoints e he))
  · obtain ⟨target, hleaf⟩ := h.monitors m hm
    have hword := hspelled _ hleaf
    intro text hformat
    rw [hformat] at hword
    obtain ⟨t, ht, hkind, rfl⟩ := hword
    exact (hts t ht).string hkind

end Images

/-- Every entry of an assembled image is legible, whatever the text is. -/
theorem legible_of_assemble {source : String} {options : Options} {image : Image}
    (h : assemble source options = .ok image) : ∀ e ∈ image.entries, e.Legible := by
  obtain ⟨items, hitems, himage⟩ := bind_eq_ok.mp h
  obtain ⟨program, hprogram, hresolved⟩ := bind_eq_ok.mp hitems
  obtain ⟨ts, htokens, hparse⟩ := bind_eq_ok.mp hprogram
  have hlegible := (inLines_of_tokenize (mapError_eq_ok.mp htokens)).legible
  exact (tablesOf_ofItems (mapError_eq_ok.mp himage)).legible hlegible
    (spelled_of_resolve (mapError_eq_ok.mp hparse) (mapError_eq_ok.mp hresolved))

/-- **The listing is lossless**: whatever was assembled, under whatever options, images with the
    same listing have the same labels, breakpoints and monitors, in the same order. Names and
    formats are spelled as in a text (`spelled_of_resolve`), so they hold none of the characters
    that the listing puts between its fields, and each line tells its entry. -/
theorem tables_of_symbols {source source' : String} {options options' : Options}
    {image image' : Image} (himage : assemble source options = .ok image)
    (himage' : assemble source' options' = .ok image') (h : image.symbols = image'.symbols) :
    image.labels = image'.labels ∧ image.breakpoints = image'.breakpoints ∧
      image.monitors = image'.monitors := by
  have hlegible := legible_of_assemble himage
  have hlegible' := legible_of_assemble himage'
  have hlines {i : Image} (hi : ∀ e ∈ i.entries, e.Legible) :
      ∀ l ∈ i.entries.map Entry.chars, '\n' ∉ l := by
    intro l hl
    obtain ⟨e, he, rfl⟩ := List.mem_map.mp hl
    exact Entry.feed_not_mem_chars (hi e he)
  have htext : image.symbols.toList = image'.symbols.toList := congrArg String.toList h
  rw [Image.toList_symbols, Image.toList_symbols] at htext
  have hentries : image.entries = image'.entries :=
    Entry.eq_of_chars hlegible hlegible' (eq_of_lines (hlines hlegible) (hlines hlegible') htext)
  obtain ⟨hlabels, hbreakpoints, hmonitors⟩ := image.filterMap_entries
  obtain ⟨hlabels', hbreakpoints', hmonitors'⟩ := image'.filterMap_entries
  refine ⟨?_, ?_, ?_⟩
  · rw [← hlabels, hentries, hlabels']
  · rw [← hbreakpoints, hentries, hbreakpoints']
  · rw [← hmonitors, hentries, hmonitors']

/-- A label that is called `breakpoint`, and a breakpoint that is called `monitor`. -/
def namesakesSource : String :=
  ": main\nv0 := 1\n: breakpoint\n:breakpoint monitor\n:monitor v0 \"breakpoint 4\""

/-- The same names, one of them by way of an argument, and other code. -/
def passedNamesakesSource : String :=
  ":macro mark NAME \x7b :breakpoint NAME \x7d\n: main\nreturn\n" ++
    ": breakpoint\nmark monitor\n:monitor v0 \"breakpoint 4\""

/-- An image with the tables of both. -/
def namesakesImage (bytes : Array UInt8) : Image where
  origin := 0x200
  bytes
  labels := [("main", 0x200), ("breakpoint", 0x202)]
  breakpoints := [("monitor", 0x202)]
  monitors := [⟨.register (vReg 0), .format "breakpoint 4"⟩]

theorem tables_of_symbols_namesakes :
    assemble namesakesSource {} = .ok (namesakesImage #[0x60, 1]) ∧
    assemble passedNamesakesSource {} = .ok (namesakesImage #[0x00, 0xEE]) ∧
    (namesakesImage #[0x60, 1]).symbols = (namesakesImage #[0x00, 0xEE]).symbols ∧
    (namesakesImage #[0x60, 1]).labels = (namesakesImage #[0x00, 0xEE]).labels ∧
      (namesakesImage #[0x60, 1]).breakpoints = (namesakesImage #[0x00, 0xEE]).breakpoints ∧
      (namesakesImage #[0x60, 1]).monitors = (namesakesImage #[0x00, 0xEE]).monitors := by
  have himage : assemble namesakesSource {} = .ok (namesakesImage #[0x60, 1]) := by decide +kernel
  have himage' : assemble passedNamesakesSource {} = .ok (namesakesImage #[0x00, 0xEE]) := by
    decide +kernel
  exact ⟨himage, himage', rfl, tables_of_symbols himage himage' rfl⟩

end OctoAsm
