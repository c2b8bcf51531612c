import Pbs.Lib.TreeLinks
import Pbs.Kconfig.Symbol

/-!
# The tree of menus

The parser adds every entry behind all others: `last_entry_ptr` is the link that
will point to the next one. First the functions as they are, then what they do to
the forest of the entries.
-/

namespace Pbs.Kconfig

open TreeLinks

/-- `struct menu *`. The entries are numbered in the order they are allocated. -/
abbrev MenuId := ℕ

/-- `&rootmenu`. -/
def rootmenu : MenuId := 0

/-! ## The parser -/

/-- What `last_entry_ptr` points to. -/
inductive EntryPtr where
  /-- `&menu->list` -/
  | list (menu : MenuId)
  /-- `&menu->next` -/
  | next (menu : MenuId)
deriving DecidableEq

/-- The menu a pointer points into. -/
def EntryPtr.menu : EntryPtr → MenuId
  | .list menu => menu
  | .next menu => menu

/-- `*last_entry_ptr`. -/
def EntryPtr.get (links : Links MenuId) : EntryPtr → Option MenuId
  | .list menu => links.list menu
  | .next menu => links.next menu

/-- `*last_entry_ptr = menu`. -/
def EntryPtr.set (links : Links MenuId) (menu : MenuId) : EntryPtr → Links MenuId
  | .list m => links.setList m (some menu)
  | .next m => links.setNext m (some menu)

/-- The menus, with the fields the structure of the tree depends on, and the
variables of the parser. -/
structure Parser where
  links : Links MenuId
  /-- `menu->sym` -/
  sym : MenuId → Option SymId
  /-- `menu->prompt->text` -/
  prompt : MenuId → Option Text
  /-- The number of entries below `rootmenu`. -/
  allocated : ℕ
  currentEntry : MenuId
  currentMenu : Option MenuId
  lastEntryPtr : EntryPtr

/-- `_menu_init`. -/
def menuInit : Parser where
  links := ⟨fun _ => none, fun _ => none, fun _ => none⟩
  sym := fun _ => none
  prompt := fun _ => none
  allocated := 0
  currentEntry := rootmenu
  currentMenu := some rootmenu
  lastEntryPtr := .list rootmenu

/-- `menu_add_entry`. -/
def menuAddEntry (st : Parser) (sym : Option SymId) : Parser :=
  let menu := st.allocated + 1
  -- the new menu is zero everywhere, but for its symbol and its parent
  let links := ((st.links.setNext menu none).setList menu none).setParent menu st.currentMenu
  { st with
    links := st.lastEntryPtr.set links menu
    sym := Function.update st.sym menu sym
    prompt := Function.update st.prompt menu none
    allocated := menu
    currentEntry := menu
    lastEntryPtr := .next menu }

/-- `menu_add_prompt`. -/
def menuAddPrompt (st : Parser) (prompt : Option Text) : Parser :=
  match prompt with
  | some text => { st with prompt := Function.update st.prompt st.currentEntry (some text) }
  | none => st

/-- `menu_add_menu`. -/
def menuAddMenu (st : Parser) : Parser :=
  { st with lastEntryPtr := .list st.currentEntry, currentMenu := some st.currentEntry }

/-- `menu_end_menu`. -/
def menuEndMenu (st : Parser) : Option Parser := do
  let currentMenu ← st.currentMenu
  some { st with
    lastEntryPtr := .next currentMenu
    currentMenu := st.links.parent currentMenu }

/-- `conf_parse` before the first statement, with the prompt of `rootmenu`. -/
def parserStart (mainmenu : Text) : Parser := menuAddPrompt menuInit (some mainmenu)

/-- What the statements of a Kconfig file do to the menus. -/
inductive Action where
  /-- `config`, `menuconfig` and `comment`. -/
  | entry (sym : Option SymId) (prompt : Option Text)
  /-- The first line of `choice`, `if` and `menu`. -/
  | block (sym : Option SymId) (prompt : Option Text)
  /-- `endchoice`, `endif` and `endmenu`. -/
  | endBlock
deriving DecidableEq

def runAction (st : Parser) : Action → Option Parser
  | .entry sym prompt => some (menuAddPrompt (menuAddEntry st sym) prompt)
  | .block sym prompt => some (menuAddMenu (menuAddPrompt (menuAddEntry st sym) prompt))
  | .endBlock => menuEndMenu st

def parse (st : Parser) (actions : List Action) : Option Parser := actions.foldlM runAction st

/-- No block ends that has not been opened. Blocks may be left open, as they are
when the parser stops early. -/
def wellNested : ℕ → List Action → Bool
  | _, [] => true
  | depth, .entry _ _ :: actions => wellNested depth actions
  | depth, .block _ _ :: actions => wellNested (depth + 1) actions
  | 0, .endBlock :: _ => false
  | depth + 1, .endBlock :: actions => wellNested depth actions

/-- The symbol of the entry an action adds. -/
def Action.sym : Action → Option (Option SymId)
  | .entry sym _ => some sym
  | .block sym _ => some sym
  | .endBlock => none

/-! ## What the parser builds -/

/-- Where the parser stands in the forest `f` that is found at `slot`, below
`parent` and below `depth` open blocks: at the end of these siblings, or in the last
of them. -/
def Cursor (cur : MenuId) (last : EntryPtr) : Forest MenuId → ℕ → MenuId → EntryPtr → Prop
  | .nil, depth, parent, slot => depth = 0 ∧ cur = parent ∧ last = slot
  | .node a c r, depth, parent, _ =>
      Cursor cur last r depth parent (.next a) ∨
        r = .nil ∧ ∃ k, depth = k + 1 ∧ Cursor cur last c k a (.list a)

variable {m m' : Links MenuId} {f c r : Forest MenuId} {cur parent a x : MenuId}
  {last slot : EntryPtr} {depth : ℕ} {up first tail : Option MenuId}

theorem Cursor.last_mem (h : Cursor cur last f depth parent slot) :
    last = slot ∨ last.menu ∈ f.preorder := by
  induction f generalizing depth parent slot with
  | nil => exact Or.inl h.2.2
  | node a c r ihc ihr =>
      right
      rcases h with h | ⟨_, k, _, h⟩
      · rcases ihr h with rfl | hmem
        · simp [EntryPtr.menu]
        · simp [hmem]
      · rcases ihc h with rfl | hmem
        · simp [EntryPtr.menu]
        · simp [hmem]

theorem Cursor.ne_slot (h : Cursor cur last (.node a c r) depth parent slot)
    (hslot : slot.menu ∉ (Forest.node a c r).preorder) : slot ≠ last := by
  rintro rfl
  rcases h with h | ⟨_, k, _, h⟩
  · rcases h.last_mem with heq | hmem
    · exact hslot (by rw [heq]; simp [EntryPtr.menu])
    · exact hslot (by simp [hmem])
  · rcases h.last_mem with heq | hmem
    · exact hslot (by rw [heq]; simp [EntryPtr.menu])
    · exact hslot (by simp [hmem])

theorem Cursor.eq_parent (h : Cursor cur last f 0 parent slot) : cur = parent := by
  induction f generalizing parent slot with
  | nil => exact h.2.1
  | node a c r ihc ihr =>
      rcases h with h | ⟨_, k, hk, _⟩
      · exact ihr h
      · omega

theorem EntryPtr.get_set_self (p : EntryPtr) : p.get (p.set m x) = some x := by
  cases p <;> simp [EntryPtr.get, EntryPtr.set]

theorem EntryPtr.get_set_of_ne {p q : EntryPtr} (h : q ≠ p) : q.get (p.set m x) = q.get m := by
  cases p <;> cases q <;> simp_all [EntryPtr.get, EntryPtr.set]

theorem EntryPtr.sameOutside_set (p : EntryPtr) : SameOutside [p.menu] m (p.set m x) := by
  cases p with
  | list menu => exact sameOutside_setList (some x)
  | next menu => exact sameOutside_setNext (some x)

/-- The links after `menu_add_entry`. -/
def addLinks (m : Links MenuId) (cur : MenuId) (last : EntryPtr) (x : MenuId) : Links MenuId :=
  last.set (((m.setNext x none).setList x none).setParent x (some cur)) x

theorem sameOutside_addLinks : SameOutside [x, last.menu] m (addLinks m cur last x) := by
  have hnew : SameOutside [x] m (((m.setNext x none).setList x none).setParent x (some cur)) :=
    ((sameOutside_setNext none).trans (sameOutside_setList none)).trans
      (sameOutside_setParent (some cur))
  exact (hnew.mono (by simp)).trans (last.sameOutside_set.mono (by simp))

theorem addLinks_get {p : EntryPtr} (hp : p ≠ last) (hx : p.menu ≠ x) :
    p.get (addLinks m cur last x) = p.get m := by
  rw [addLinks, EntryPtr.get_set_of_ne hp]
  cases p with
  | list menu => simp [EntryPtr.get, show menu ≠ x from hx]
  | next menu => simp [EntryPtr.get, show menu ≠ x from hx]

theorem addLinks_parent : (addLinks m cur last x).parent =
    fun y => if y = x then some cur else m.parent y := by
  funext y
  cases last <;> simp [addLinks, EntryPtr.set]

/-- A new entry comes behind all others, and the parser can go on behind it and
below it. -/
theorem cursor_append (hl : Linked m f (some parent) (slot.get m) none)
    (hc : Cursor cur last f depth parent slot) (hnodup : f.preorder.Nodup)
    (hx : x ∉ f.preorder) (hslot : slot.menu ∉ f.preorder) (hne : slot.menu ≠ x) :
    ∃ f', Linked (addLinks m cur last x) f' (some parent) (slot.get (addLinks m cur last x)) none ∧
      f'.preorder = f.preorder ++ [x] ∧ Cursor cur (.next x) f' depth parent slot ∧
      Cursor x (.list x) f' (depth + 1) parent slot := by
  induction f generalizing depth parent slot with
  | nil =>
      rcases hc with ⟨rfl, rfl, rfl⟩
      refine ⟨.node x .nil .nil, ⟨EntryPtr.get_set_self last, ?_, ?_, ?_⟩, rfl, ?_, ?_⟩
      · simp [addLinks_parent]
      · cases last <;> simp_all [Linked, addLinks, EntryPtr.set, EntryPtr.menu, eq_comm]
      · cases last <;> simp_all [Linked, addLinks, EntryPtr.set, EntryPtr.menu, eq_comm]
      · exact Or.inl ⟨rfl, rfl, rfl⟩
      · exact Or.inr ⟨rfl, 0, rfl, rfl, rfl, rfl⟩
  | node a c r ihc ihr =>
      rcases hl with ⟨hfirst, hparent, hlc, hlr⟩
      have hfirst' : slot.get (addLinks m cur last x) = some a := by
        rw [addLinks_get (hc.ne_slot hslot) hne, hfirst]
      have hnodup' := List.nodup_cons.mp hnodup
      have happ := List.nodup_append.mp hnodup'.2
      simp only [Forest.preorder_node, List.mem_cons, List.mem_append, not_or] at hx hnodup'
      have hax : a ≠ x := fun heq => hx.1 heq.symm
      have hparent' : (addLinks m cur last x).parent a = some parent := by
        rw [addLinks_parent, ← hparent]
        simp [hax]
      rcases hc with hc | ⟨rfl, k, rfl, hc⟩
      · -- the cursor is in the rest of the siblings
        rcases ihr hlr hc happ.2.1 hx.2.2 hnodup'.1.2 hax with ⟨r', hlr', hpre, hcur, hnew⟩
        have hlast := hc.last_mem
        have hlastc : last.menu ∉ c.preorder := by
          rcases hlast with rfl | hmem
          · exact hnodup'.1.1
          · exact fun hmem' => happ.2.2 _ hmem' _ hmem rfl
        have hlist : (addLinks m cur last x).list a = m.list a := by
          refine addLinks_get (p := .list a) ?_ hax
          rintro rfl
          rcases hlast with heq | hmem
          · exact absurd heq (by simp)
          · exact hnodup'.1.2 hmem
        refine ⟨.node a c r', ⟨hfirst', hparent', ?_, hlr'⟩, by simp [hpre], Or.inl hcur,
          Or.inl hnew⟩
        rw [hlist]
        refine hlc.outside sameOutside_addLinks fun y hy hmem => ?_
        rcases List.mem_pair.mp hmem with rfl | rfl
        · exact hx.2.1 hy
        · exact hlastc hy
      · -- the cursor is below the last of the siblings
        rcases ihc hlc hc happ.1 hx.2.1 hnodup'.1.1 hax with ⟨c', hlc', hpre, hcur, hnew⟩
        have hlast := hc.last_mem
        have hnext : (addLinks m cur last x).next a = m.next a := by
          refine addLinks_get (p := .next a) ?_ hax
          rintro rfl
          rcases hlast with heq | hmem
          · exact absurd heq (by simp)
          · exact hnodup'.1.1 hmem
        refine ⟨.node a c' .nil, ⟨hfirst', hparent', hlc', ?_⟩, by simp [hpre],
          Or.inr ⟨rfl, k, rfl, hcur⟩, Or.inr ⟨rfl, k + 1, rfl, hnew⟩⟩
        rw [hnext]
        exact hlr

/-- At the end of a block the parser goes on behind the entry of the block. -/
theorem cursor_end (hl : Linked m f (some parent) first none)
    (hc : Cursor cur last f (depth + 1) parent slot) :
    ∃ outer, m.parent cur = some outer ∧ Cursor outer (.next cur) f depth parent slot := by
  induction f generalizing depth parent slot first with
  | nil => exact absurd hc.1 (by omega)
  | node a c r ihc ihr =>
      rcases hl with ⟨_, hparent, hlc, hlr⟩
      rcases hc with hc | ⟨rfl, k, hk, hc⟩
      · rcases ihr hlr hc with ⟨outer, houter, hcur⟩
        exact ⟨outer, houter, Or.inl hcur⟩
      · obtain rfl : depth = k := by omega
        cases depth with
        | zero =>
            rw [hc.eq_parent]
            exact ⟨parent, hparent, Or.inl ⟨rfl, rfl, rfl⟩⟩
        | succ k =>
            rcases ihc hlc hc with ⟨outer, houter, hcur⟩
            exact ⟨outer, houter, Or.inr ⟨rfl, k, rfl, hcur⟩⟩

/-- The entries are linked in the order in which they were added. -/
structure Parsed (st : Parser) (f : Forest MenuId) (depth : ℕ) : Prop where
  linked : Linked st.links f (some rootmenu) (st.links.list rootmenu) none
  preorder : f.preorder = List.range' 1 st.allocated
  cursor : ∃ cur, st.currentMenu = some cur ∧
    Cursor cur st.lastEntryPtr f depth rootmenu (.list rootmenu)
  root_next : st.links.next rootmenu = none
  root_parent : st.links.parent rootmenu = none

theorem parsed_start (mainmenu : Text) : Parsed (parserStart mainmenu) .nil 0 :=
  ⟨rfl, rfl, ⟨rootmenu, rfl, rfl, rfl, rfl⟩, rfl, rfl⟩

theorem menuAddPrompt_fields (st : Parser) (prompt : Option Text) :
    (menuAddPrompt st prompt).links = st.links ∧ (menuAddPrompt st prompt).sym = st.sym ∧
      (menuAddPrompt st prompt).allocated = st.allocated ∧
      (menuAddPrompt st prompt).currentEntry = st.currentEntry ∧
      (menuAddPrompt st prompt).currentMenu = st.currentMenu ∧
      (menuAddPrompt st prompt).lastEntryPtr = st.lastEntryPtr := by
  cases prompt <;> simp [menuAddPrompt]

theorem Parsed.mem_iff {st : Parser} {menu : MenuId} (h : Parsed st f depth) :
    menu ∈ f.preorder ↔ 1 ≤ menu ∧ menu ≤ st.allocated := by
  rw [h.preorder, List.mem_range'_1, Nat.lt_one_add_iff]

theorem Parsed.root_not_mem {st : Parser} (h : Parsed st f depth) : rootmenu ∉ f.preorder := by
  intro hmem
  exact Nat.not_succ_le_zero 0 (h.mem_iff.mp hmem).1

theorem Parsed.nodup {st : Parser} (h : Parsed st f depth) : f.preorder.Nodup := by
  rw [h.preorder]
  exact List.nodup_range'

/-- What one statement adds. -/
theorem Parsed.add {st : Parser} (h : Parsed st f depth) (sym : Option SymId)
    (prompt : Option Text) :
    ∃ f', Parsed (menuAddPrompt (menuAddEntry st sym) prompt) f' depth ∧
      Parsed (menuAddMenu (menuAddPrompt (menuAddEntry st sym) prompt)) f' (depth + 1) ∧
      f'.preorder.map (menuAddPrompt (menuAddEntry st sym) prompt).sym =
        f.preorder.map st.sym ++ [sym] := by
  rcases h.cursor with ⟨cur, hcur, hc⟩
  have hnew : st.allocated + 1 ∉ f.preorder := by
    intro hmem
    exact Nat.not_succ_le_self _ (h.mem_iff.mp hmem).2
  have hroot : rootmenu ∉ f.preorder := h.root_not_mem
  have hne : rootmenu ≠ st.allocated + 1 := (Nat.succ_ne_zero st.allocated).symm
  rcases cursor_append h.linked hc h.nodup hnew hroot hne with ⟨f', hlinked, hpre, hcur', hbelow⟩
  rcases menuAddPrompt_fields (menuAddEntry st sym) prompt with
    ⟨hlinks, hsym, halloc, hentry, hmenu, hptr⟩
  have haddlinks : (menuAddEntry st sym).links =
      addLinks st.links cur st.lastEntryPtr (st.allocated + 1) := by
    rw [addLinks, ← hcur]
    rfl
  have hpre' : f'.preorder = List.range' 1 (st.allocated + 1) := by
    rw [hpre, h.preorder, List.range'_1_concat, Nat.add_comm 1]
  -- the new entry is linked behind one of the old ones, so the root is left alone
  have hnext : (menuAddEntry st sym).links.next rootmenu = none := by
    rw [haddlinks, ← h.root_next]
    refine addLinks_get (p := .next rootmenu) (fun heq => ?_) hne
    rcases hc.last_mem with hlast | hlast
    · rw [← heq] at hlast
      exact absurd hlast (by simp)
    · rw [← heq] at hlast
      exact hroot hlast
  have hparent : (menuAddEntry st sym).links.parent rootmenu = none := by
    rw [haddlinks, addLinks_parent, ← h.root_parent]
    simp [hne]
  rw [← haddlinks, ← hlinks] at hlinked
  rw [← hlinks] at hnext hparent
  refine ⟨f', ⟨hlinked, ?_, ⟨cur, hmenu.trans hcur, ?_⟩, hnext, hparent⟩,
    ⟨hlinked, ?_, ⟨st.allocated + 1, ?_, ?_⟩, hnext, hparent⟩, ?_⟩
  · rw [halloc]
    exact hpre'
  · rw [hptr]
    exact hcur'
  · show f'.preorder = List.range' 1 (menuAddPrompt (menuAddEntry st sym) prompt).allocated
    rw [halloc]
    exact hpre'
  · show some (menuAddPrompt (menuAddEntry st sym) prompt).currentEntry = _
    rw [hentry]
    rfl
  · show Cursor _ (.list (menuAddPrompt (menuAddEntry st sym) prompt).currentEntry) _ _ _ _
    rw [hentry]
    exact hbelow
  · -- the symbols of the older entries are as before
    have hold : ∀ y ∈ f.preorder, Function.update st.sym (st.allocated + 1) sym y = st.sym y := by
      intro y hy
      have hy' : y ≠ st.allocated + 1 := fun heq => hnew (heq ▸ hy)
      exact Function.update_of_ne hy' sym st.sym
    have hupd : (menuAddEntry st sym).sym = Function.update st.sym (st.allocated + 1) sym := rfl
    rw [hsym, hupd, hpre, List.map_append, List.map_congr_left hold]
    simp

theorem Parsed.endBlock {st : Parser} (h : Parsed st f (depth + 1)) :
    ∃ st', menuEndMenu st = some st' ∧ Parsed st' f depth ∧ st'.sym = st.sym := by
  rcases h.cursor with ⟨cur, hcur, hc⟩
  rcases cursor_end h.linked hc with ⟨outer, houter, hc'⟩
  let st' : Parser :=
    { st with lastEntryPtr := .next cur, currentMenu := st.links.parent cur }
  have hend : menuEndMenu st = some st' := by
    simp [menuEndMenu, hcur, st']
  exact ⟨st', hend, ⟨h.linked, h.preorder, ⟨outer, houter, hc'⟩, h.root_next, h.root_parent⟩, rfl⟩

/-- Whatever statements are read, the entries are linked in their order. -/
theorem parse_spec {st : Parser} (actions : List Action) (h : Parsed st f depth)
    (hnested : wellNested depth actions) :
    ∃ st' f' depth', parse st actions = some st' ∧ Parsed st' f' depth' ∧
      f'.preorder.map st'.sym = f.preorder.map st.sym ++ actions.filterMap Action.sym := by
  induction actions generalizing st f depth with
  | nil => exact ⟨st, f, depth, rfl, h, by simp⟩
  | cons action actions ih =>
      -- what all statements have in common: one is run, and the rest by the induction
      have hstep : ∀ {st' f' depth' syms}, runAction st action = some st' → Parsed st' f' depth' →
          wellNested depth' actions → f'.preorder.map st'.sym = f.preorder.map st.sym ++ syms →
          [action].filterMap Action.sym = syms →
          ∃ st'' f'' depth'', parse st (action :: actions) = some st'' ∧ Parsed st'' f'' depth'' ∧
            f''.preorder.map st''.sym =
              f.preorder.map st.sym ++ (action :: actions).filterMap Action.sym := by
        intro st' f' depth' syms hrun hparsed hrest hsyms haction
        rcases ih hparsed hrest with ⟨st'', f'', depth'', hparse, hparsed', hsyms'⟩
        refine ⟨st'', f'', depth'', ?_, hparsed', ?_⟩
        · rw [parse, List.foldlM_cons, hrun]
          exact hparse
        · rw [hsyms', hsyms, ← haction, List.append_assoc, ← List.filterMap_append,
            List.singleton_append]
      cases action with
      | entry sym prompt =>
          rcases h.add sym prompt with ⟨f', hentry, _, hsyms⟩
          exact hstep rfl hentry hnested hsyms rfl
      | block sym prompt =>
          rcases h.add sym prompt with ⟨f', _, hblock, hsyms⟩
          exact hstep rfl hblock hnested hsyms rfl
      | endBlock =>
          cases depth with
          | zero => exact absurd hnested (by simp [wellNested])
          | succ depth =>
              rcases h.endBlock with ⟨st', hend, hparsed, hsym⟩
              have hsyms : f.preorder.map st'.sym = f.preorder.map st.sym ++ [] := by
                rw [hsym, List.append_nil]
              exact hstep hend hparsed hnested hsyms rfl

end Pbs.Kconfig
