import Pbs.Kconfig.MenuFold

/-!
# What `menu_finalize` does with the folded entries

Behind its first loop, `menu_finalize` puts the entries that depend on the symbol of the entry
before them below it, marks the values of choices, and takes the lists of entries without a prompt
up into the list around them. A boolean value of a tristate choice gets one more condition on this
way, that the choice is `y`. As long as no tristate symbol is `m`, its conditions have the values
that they had (`finalized_visible_correct`).
-/

namespace Pbs.Kconfig

/-! ## Automatic submenus -/

/-- `expr_depends_symbol`. -/
def exprDependsSymbol (dep : Option Expr) (sym : SymId) : Bool :=
  match dep with
  | none => false
  | some e => go e
where
  go : Expr → Bool
    | .and l r => go l || go r
    | .symbol s => s == sym
    | .equal l r => l == sym && (r == symbolYes || r == symbolMod)
    | .unequal l r => l == sym && r == symbolNo
    | _ => false

/-- The condition under which an entry is shown: that of its prompt, or its `dep`. -/
def Entry.condition : Entry → Option Expr
  | .mk _ _ dep props _ =>
      match menuPrompt props with
      | some prompt => prompt.visible
      | none => dep

/-- A condition as `menu_finalize` compares it: that it is not `n`. -/
def comparedDep (st : ParseState) (types : Types) (dep : Option Expr) : Option Expr :=
  st.eliminateDups types (st.transform types (exprTransCompare dep .unequal symbolNo))

/-- `expr_is_yes` for the second expression that `expr_eliminate_eq` leaves. -/
def eliminatedIsYes (dep dep2 : Option Expr) : Bool :=
  match dep, dep2 with
  | some e1, some e2 => exprIsYes (some (exprEliminateEq e1 e2).2)
  | _, _ => exprIsYes dep2

/-- Whether an entry goes below the one for `sym` before it, with the condition `basedep`. -/
def goesBelow (st : ParseState) (types : Types) (sym : SymId) (basedep : Option Expr)
    (menu : Entry) : Bool :=
  let dep := menu.condition
  exprContainsSymbol dep sym &&
    (exprDependsSymbol dep sym || eliminatedIsYes (comparedDep st types dep) basedep)

/-! ## The values of a choice -/

/-- What `menu_finalize` changes in symbols: `sym->type`, and `SYMBOL_CHOICEVAL`, which the
symbols in `choiceval` have. -/
structure Finalizing where
  types : Types
  choiceval : List SymId

/-- `expr_alloc_and` in front of the `dep` and the conditions of an entry. -/
def addCondition (cond dep : Option Expr) (props : List Property) :
    Option Expr × List Property :=
  (exprAllocAnd cond dep,
    props.map fun prop => { prop with visible := exprAllocAnd cond prop.visible })

/-- An entry in the list of a choice becomes one of its values. What is not tristate in a tristate
choice depends on the choice being `y`. -/
def markValue (st : ParseState) (choice sym : Option SymId) (dep : Option Expr)
    (props : List Property) (fs : Finalizing) : Option Expr × List Property × Finalizing :=
  match choice, sym with
  | some c, some s =>
      if (st.sym c).choice ∧ s ∉ fs.choiceval then
        let marked := { fs with choiceval := s :: fs.choiceval }
        if fs.types c = .tristate ∧ fs.types s ≠ .tristate then
          let (dep, props) := addCondition (some (.equal c symbolYes)) dep props
          (dep, props, marked)
        else (dep, props, marked)
      else (dep, props, fs)
  | _, _ => (dep, props, fs)

mutual

/-- One step of the last loop of `menu_finalize`, for the entry with the symbol `sym`: what stands
below an entry without a prompt is taken up behind it. -/
def closeEntry (st : ParseState) (sym : Option SymId) : Entry → Finalizing → List Entry × Finalizing
  | .mk s file dep props list, fs =>
      let (dep, props, fs) := markValue st sym s dep props fs
      match menuPrompt props with
      | some _ => ([.mk s file dep props list], fs)
      | none =>
          let (list, fs) := closeEntries st sym list fs
          (.mk s file dep props [] :: list, fs)

def closeEntries (st : ParseState) (sym : Option SymId) :
    List Entry → Finalizing → List Entry × Finalizing
  | [], fs => ([], fs)
  | entry :: rest, fs =>
      let (entry, fs) := closeEntry st sym entry fs
      let (rest, fs) := closeEntries st sym rest fs
      (entry ++ rest, fs)

end

/-! ## Going through the entries -/

/-- An entry without a list, while `menu_finalize` looks at the entries behind it. The list has
those that go below it, the last one first. -/
structure Owner where
  sym : SymId
  file : Text
  dep : Option Expr
  props : List Property
  basedep : Option Expr
  list : List Entry

/-- `menu_finalize` starts with an entry for a symbol that has no list. -/
def Entry.owner (st : ParseState) (types : Types) : Entry → Option Owner
  | .mk (some s) file dep props [] =>
      some ⟨s, file, dep, props, comparedDep st types ((menuPrompt props).bind (·.visible)), []⟩
  | _ => none

/-- It has found the entries that go below. -/
def Owner.close (st : ParseState) (owner : Owner) (fs : Finalizing) : Entry × Finalizing :=
  let (list, fs) := closeEntries st (some owner.sym) owner.list.reverse fs
  (.mk (some owner.sym) owner.file owner.dep owner.props list, fs)

/-- `next` is offered to the open entries, from the innermost one outwards. Those that it does not
go below are closed, and go below the next one, or into the list `out` around all of them. -/
def closeOwners (st : ParseState) (next : Option Entry) :
    List Owner → List Entry → List Entry → Finalizing → List Owner × List Entry × Finalizing
  | [], below, out, fs => ([], below ++ out, fs)
  | owner :: owners, below, out, fs =>
      let owner := { owner with list := below ++ owner.list }
      if next.any (goesBelow st fs.types owner.sym owner.basedep) then (owner :: owners, out, fs)
      else
        let (entry, fs) := owner.close st fs
        closeOwners st next owners [entry] out fs

/-- An entry that is done. -/
def place (entry : Entry) : List Owner → List Entry → List Owner × List Entry
  | [], out => ([], entry :: out)
  | owner :: owners, out => ({ owner with list := entry :: owner.list } :: owners, out)

mutual

/-- `menu_finalize` for an entry with a list that has been folded. -/
def finalizeEntry (st : ParseState) : Entry → Finalizing → Entry × Finalizing
  | .mk sym file dep props list, fs =>
      let fs := { fs with types := choiceTypes st sym list fs.types }
      let (list, fs) := finalizeEntries st list [] [] fs
      let (list, fs) := closeEntries st sym list fs
      (.mk sym file dep props list, fs)

/-- The entries of a list one after the other, below those that are open. -/
def finalizeEntries (st : ParseState) :
    List Entry → List Owner → List Entry → Finalizing → List Entry × Finalizing
  | [], owners, out, fs =>
      let (_, out, fs) := closeOwners st none owners [] out fs
      (out.reverse, fs)
  | entry :: rest, owners, out, fs =>
      let (owners, out, fs) := closeOwners st (some entry) owners [] out fs
      match entry.owner st fs.types with
      | some owner => finalizeEntries st rest (owner :: owners) out fs
      | none =>
          let (entry, fs) := finalizeEntry st entry fs
          let (owners, out) := place entry owners out
          finalizeEntries st rest owners out fs

end

/-- The entries that `menu_finalize` leaves below the root menu. -/
def ParseState.finalized (st : ParseState) : List Entry :=
  let (entries, fs) := finalizeEntries st st.folded [] [] ⟨st.parsedTypes, []⟩
  (closeEntries st none entries fs).1

/-! ## What is not shown -/

section Shown

variable {cf : Conf} {st : ParseState} {marked marked' : List SymId}

mutual

/-- Nothing in an entry, and in what is taken up behind it, is shown, apart from values of choices
that are marked already. -/
def Entry.Low (cf : Conf) (marked : List SymId) : Entry → Prop
  | .mk sym _ _ props list =>
      (∀ s ∈ sym, s ∉ marked → ∀ prop ∈ props, exprCalcValue cf prop.visible = .no) ∧
        (menuPrompt props = none → LowBelow cf marked list)

def LowBelow (cf : Conf) (marked : List SymId) : List Entry → Prop
  | [] => True
  | entry :: rest => Entry.Low cf marked entry ∧ LowBelow cf marked rest

end

mutual

/-- The same of an entry that is folded only: the values of a choice in it are not marked yet. -/
def Entry.Hidden (cf : Conf) (st : ParseState) : Entry → Prop
  | .mk sym _ _ props list =>
      (∀ prop ∈ props, exprCalcValue cf prop.visible = .no) ∧
        (menuPrompt props = none → (∀ s ∈ sym, (st.sym s).choice = false) → HiddenBelow cf st list)

def HiddenBelow (cf : Conf) (st : ParseState) : List Entry → Prop
  | [] => True
  | entry :: rest => Entry.Hidden cf st entry ∧ HiddenBelow cf st rest

end

mutual

/-- Every choice has a list, and nothing in it is shown while the choice is `n`. -/
def Entry.Guarded (cf : Conf) (st : ParseState) : Entry → Prop
  | .mk sym _ _ _ list =>
      (∀ c ∈ sym, (st.sym c).choice → list ≠ [] ∧
        ((cf.curr c).tri = .no → HiddenBelow cf st list)) ∧
        GuardedBelow cf st list

def GuardedBelow (cf : Conf) (st : ParseState) : List Entry → Prop
  | [] => True
  | entry :: rest => Entry.Guarded cf st entry ∧ GuardedBelow cf st rest

end

theorem lowBelow_iff {list : List Entry} :
    LowBelow cf marked list ↔ ∀ e ∈ list, e.Low cf marked := by
  induction list with
  | nil => simp [LowBelow]
  | cons entry rest ih => rw [LowBelow, ih, List.forall_mem_cons]

mutual

theorem Entry.Low.mono (h : marked ⊆ marked') :
    ∀ {entry : Entry}, entry.Low cf marked → entry.Low cf marked'
  | .mk _ _ _ _ _, hlow => by
      rw [Entry.Low] at hlow ⊢
      refine ⟨fun s hs hnot => hlow.1 s hs fun hmem => hnot (h hmem), ?_⟩
      exact fun hprompt => LowBelow.mono h (hlow.2 hprompt)

theorem LowBelow.mono (h : marked ⊆ marked') :
    ∀ {list : List Entry}, LowBelow cf marked list → LowBelow cf marked' list
  | [], _ => trivial
  | _ :: _, hlow => by
      rw [LowBelow] at hlow ⊢
      exact ⟨Entry.Low.mono h hlow.1, LowBelow.mono h hlow.2⟩

end

theorem visiblesBelow_append (list list' : List Entry) :
    visiblesBelow cf (list ++ list') = visiblesBelow cf list ++ visiblesBelow cf list' := by
  induction list with
  | nil => rfl
  | cons entry rest ih => rw [List.cons_append, visiblesBelow, visiblesBelow, ih, List.append_assoc]

theorem visiblesBelow_singleton (entry : Entry) : visiblesBelow cf [entry] = entry.visibles cf := by
  rw [visiblesBelow, visiblesBelow, List.append_nil]

theorem visiblesBelow_reverse_cons (entry : Entry) (list : List Entry) :
    visiblesBelow cf (entry :: list).reverse =
      visiblesBelow cf list.reverse ++ entry.visibles cf := by
  rw [List.reverse_cons, visiblesBelow_append, visiblesBelow_singleton]

end Shown

/-! ## Closing a list -/

section Close

variable {cf : Conf} {st : ParseState} {marked : List SymId} {fs : Finalizing} {sym : Option SymId}

/-- The list around is not that of a choice. -/
def OfNoChoice (st : ParseState) (sym : Option SymId) : Prop := ∀ c ∈ sym, (st.sym c).choice = false

theorem markValue_plain (h : OfNoChoice st sym) (s : Option SymId) (dep : Option Expr)
    (props : List Property) : markValue st sym s dep props fs = (dep, props, fs) := by
  unfold markValue
  split
  case h_1 c s =>
    have hc := h c rfl
    simp [hc]
  case h_2 => rfl

mutual

/-- Where there is no choice, entries only move. -/
theorem closeEntry_plain (h : OfNoChoice st sym) (cf : Conf) (marked : List SymId)
    (fs : Finalizing) :
    ∀ entry : Entry, (closeEntry st sym entry fs).2 = fs ∧
      visiblesBelow cf (closeEntry st sym entry fs).1 = entry.visibles cf ∧
      (entry.Low cf marked → LowBelow cf marked (closeEntry st sym entry fs).1)
  | .mk s file dep props list => by
      rw [closeEntry, markValue_plain h]
      dsimp only
      cases hprompt : menuPrompt props with
      | some prompt =>
          refine ⟨rfl, visiblesBelow_singleton _, ?_⟩
          exact fun hlow => ⟨hlow, trivial⟩
      | none =>
          obtain ⟨hfs, hvisibles, hlow⟩ := closeEntries_plain h cf marked fs list
          refine ⟨hfs, ?_, ?_⟩
          · show visiblesBelow cf (_ :: (closeEntries st sym list fs).1) = _
            rw [visiblesBelow, hvisibles, Entry.visibles, Entry.visibles, visiblesBelow,
              List.append_nil]
          · intro hentry
            rw [Entry.Low] at hentry
            refine ⟨?_, hlow (hentry.2 hprompt)⟩
            rw [Entry.Low]
            exact ⟨hentry.1, fun _ => trivial⟩

theorem closeEntries_plain (h : OfNoChoice st sym) (cf : Conf) (marked : List SymId)
    (fs : Finalizing) :
    ∀ list : List Entry, (closeEntries st sym list fs).2 = fs ∧
      visiblesBelow cf (closeEntries st sym list fs).1 = visiblesBelow cf list ∧
      (LowBelow cf marked list → LowBelow cf marked (closeEntries st sym list fs).1)
  | [] => ⟨rfl, rfl, fun hlow => hlow⟩
  | entry :: rest => by
      obtain ⟨hfs, hvisibles, hlow⟩ := closeEntry_plain h cf marked fs entry
      obtain ⟨hfs', hvisibles', hlow'⟩ := closeEntries_plain h cf marked fs rest
      rw [closeEntries]
      dsimp only
      rw [hfs]
      refine ⟨hfs', ?_, ?_⟩
      · rw [visiblesBelow_append, hvisibles, hvisibles', visiblesBelow]
      · intro hentries
        rw [lowBelow_iff, List.forall_mem_append, ← lowBelow_iff, ← lowBelow_iff]
        exact ⟨hlow hentries.1, hlow' hentries.2⟩

end

/-- An entry that has been through the loop for a choice. -/
def Entry.Settled (marked : List SymId) : Entry → Prop
  | .mk sym _ _ props list => (∀ s ∈ sym, s ∈ marked) ∧ (menuPrompt props = none → list = [])

theorem Entry.Settled.low {entry : Entry} (h : entry.Settled marked) : entry.Low cf marked := by
  rcases entry with ⟨sym, file, dep, props, list⟩
  rw [Entry.Low]
  refine ⟨fun s hs hnot => absurd (h.1 s hs) hnot, ?_⟩
  intro hprompt
  rw [h.2 hprompt]
  trivial

theorem Entry.Settled.mono {marked' : List SymId} (hsub : marked ⊆ marked') {entry : Entry}
    (h : entry.Settled marked) : entry.Settled marked' := by
  rcases entry with ⟨sym, file, dep, props, list⟩
  exact ⟨fun s hs => hsub (h.1 s hs), h.2⟩

/-- A tristate choice is `y`, or nothing in it is shown. -/
def ChoiceHides (cf : Conf) (types : Types) (c : SymId) (low : Prop) : Prop :=
  types c = .tristate → (Expr.equal c symbolYes).value cf = .yes ∨ low

theorem menuPrompt_addCondition (cond dep : Option Expr) (props : List Property) :
    (menuPrompt (addCondition cond dep props).2).isSome = (menuPrompt props).isSome := by
  have hmap := menuPrompt_map
    (f := fun prop => { prop with visible := exprAllocAnd cond prop.visible }) (fun _ => rfl) props
  rw [addCondition, hmap, Option.isSome_map]

theorem visible_addCondition (cond dep : Option Expr) {props : List Property}
    (h : ∀ prop ∈ props, exprCalcValue cf cond = .yes ∨ exprCalcValue cf prop.visible = .no) :
    (addCondition cond dep props).2.map (fun prop => exprCalcValue cf prop.visible) =
      props.map fun prop => exprCalcValue cf prop.visible := by
  rw [addCondition, List.map_map]
  apply List.map_congr_left
  intro prop hprop
  show exprCalcValue cf (exprAllocAnd cond prop.visible) = exprCalcValue cf prop.visible
  rw [exprCalcValue_exprAllocAnd]
  rcases h prop hprop with hyes | hno
  · rw [hyes]
    cases exprCalcValue cf prop.visible <;> rfl
  · rw [hno]
    cases exprCalcValue cf cond <;> rfl

/-- What is added to a value of a choice does not change what is shown. -/
theorem markValue_choice {c : SymId} (hc : (st.sym c).choice) (s : Option SymId) (dep : Option Expr)
    (props : List Property) {low : Prop} (hhides : ChoiceHides cf fs.types c low)
    (hlow : low → ∀ t ∈ s, t ∉ fs.choiceval →
      ∀ prop ∈ props, exprCalcValue cf prop.visible = .no) :
    let (_, props', fs') := markValue st (some c) s dep props fs
    props'.map (fun prop => exprCalcValue cf prop.visible) =
        props.map (fun prop => exprCalcValue cf prop.visible) ∧
      (menuPrompt props').isSome = (menuPrompt props).isSome ∧ fs'.types = fs.types ∧
      fs.choiceval ⊆ fs'.choiceval ∧ ∀ t ∈ s, t ∈ fs'.choiceval := by
  cases s with
  | none => exact ⟨rfl, rfl, rfl, List.Subset.refl _, fun _ ht => by cases ht⟩
  | some s =>
      by_cases hmem : s ∈ fs.choiceval
      · have hmarked : ∀ t ∈ some s, t ∈ fs.choiceval := fun t ht => Option.some_inj.mp ht ▸ hmem
        rw [show markValue st (some c) (some s) dep props fs = (dep, props, fs) from
          if_neg fun h => h.2 hmem]
        exact ⟨rfl, rfl, rfl, List.Subset.refl _, hmarked⟩
      · have hmarked : ∀ t ∈ some s, t ∈ s :: fs.choiceval :=
          fun t ht => Option.some_inj.mp ht ▸ List.mem_cons_self
        have hsub : fs.choiceval ⊆ s :: fs.choiceval := List.subset_cons_self ..
        by_cases htype : fs.types c = .tristate ∧ fs.types s ≠ .tristate
        · rw [show markValue st (some c) (some s) dep props fs = (_, _, _) from
            (if_pos ⟨hc, hmem⟩).trans (if_pos htype)]
          refine ⟨?_, menuPrompt_addCondition _ dep props, rfl, hsub, hmarked⟩
          apply visible_addCondition _ dep
          -- the choice is `y`, or nothing is shown anyway
          intro prop hprop
          rcases hhides htype.1 with hyes | hhidden
          · exact .inl hyes
          · exact .inr (hlow hhidden s rfl hmem prop hprop)
        · rw [show markValue st (some c) (some s) dep props fs = (_, _, _) from
            (if_pos ⟨hc, hmem⟩).trans (if_neg htype)]
          exact ⟨rfl, rfl, rfl, hsub, hmarked⟩

mutual

/-- The loop for a choice: nothing changes in what is shown, and everything in the list is a
value. -/
theorem closeEntry_choice {c : SymId} (hc : (st.sym c).choice) {low : Prop} :
    ∀ (entry : Entry) (fs : Finalizing), ChoiceHides cf fs.types c low →
      (low → entry.Low cf fs.choiceval) →
      visiblesBelow cf (closeEntry st (some c) entry fs).1 = entry.visibles cf ∧
        (closeEntry st (some c) entry fs).2.types = fs.types ∧
        fs.choiceval ⊆ (closeEntry st (some c) entry fs).2.choiceval ∧
        ∀ e ∈ (closeEntry st (some c) entry fs).1,
          e.Settled (closeEntry st (some c) entry fs).2.choiceval
  | .mk s file dep props list, fs, hhides, hlow => by
      have hmark := markValue_choice hc s dep props hhides
        fun h => ((Entry.Low.eq_def ..).mp (hlow h)).1
      rw [closeEntry]
      rcases hmarked : markValue st (some c) s dep props fs with ⟨dep', props', fs1⟩
      rw [hmarked] at hmark
      obtain ⟨hvisible, hprompt, htypes, hsub, hmem⟩ := hmark
      dsimp only
      cases hprompt' : menuPrompt props' with
      | some prompt =>
          refine ⟨?_, htypes, hsub, ?_⟩
          · rw [visiblesBelow_singleton, Entry.visibles, Entry.visibles, hvisible]
          · intro e he
            rw [List.mem_singleton.mp he]
            refine ⟨hmem, fun hnone => ?_⟩
            rw [hprompt'] at hnone
            cases hnone
      | none =>
          have hnone : menuPrompt props = none := by
            rw [hprompt'] at hprompt
            exact Option.isNone_iff_eq_none.mp (by simpa using hprompt.symm)
          obtain ⟨hvisibles', htypes', hsub', hsettled⟩ := closeEntries_choice hc list fs1
            (htypes ▸ hhides) fun h =>
              LowBelow.mono hsub (((Entry.Low.eq_def ..).mp (hlow h)).2 hnone)
          refine ⟨?_, htypes'.trans htypes, List.Subset.trans hsub hsub', ?_⟩
          · show visiblesBelow cf (_ :: (closeEntries st (some c) list fs1).1) = _
            rw [visiblesBelow, hvisibles', Entry.visibles, Entry.visibles, visiblesBelow,
              List.append_nil, hvisible]
          · intro e he
            rcases List.mem_cons.mp he with rfl | he
            · exact ⟨fun t ht => hsub' (hmem t ht), fun _ => rfl⟩
            · exact hsettled e he

theorem closeEntries_choice {c : SymId} (hc : (st.sym c).choice) {low : Prop} :
    ∀ (list : List Entry) (fs : Finalizing), ChoiceHides cf fs.types c low →
      (low → LowBelow cf fs.choiceval list) →
      visiblesBelow cf (closeEntries st (some c) list fs).1 = visiblesBelow cf list ∧
        (closeEntries st (some c) list fs).2.types = fs.types ∧
        fs.choiceval ⊆ (closeEntries st (some c) list fs).2.choiceval ∧
        ∀ e ∈ (closeEntries st (some c) list fs).1,
          e.Settled (closeEntries st (some c) list fs).2.choiceval
  | [], fs, _, _ => ⟨rfl, rfl, List.Subset.refl _, fun _ he => (List.not_mem_nil he).elim⟩
  | entry :: rest, fs, hhides, hlow => by
      obtain ⟨hvisibles, htypes, hsub, hsettled⟩ :=
        closeEntry_choice hc entry fs hhides fun h => (hlow h).1
      obtain ⟨hvisibles', htypes', hsub', hsettled'⟩ := closeEntries_choice hc rest
        (closeEntry st (some c) entry fs).2 (htypes ▸ hhides) fun h => (hlow h).2.mono hsub
      rw [closeEntries]
      refine ⟨?_, htypes'.trans htypes, List.Subset.trans hsub hsub', ?_⟩
      · rw [visiblesBelow_append, hvisibles, hvisibles', visiblesBelow]
      · intro e he
        rcases List.mem_append.mp he with he | he
        · exact (hsettled e he).mono hsub'
        · exact hsettled' e he

end

end Close

/-! ## The open entries -/

section Owners

variable {cf : Conf} {st : ParseState} {marked : List SymId} {owners : List Owner}

/-- What is shown of an open entry. -/
def Owner.visibles (cf : Conf) (owner : Owner) : List Tristate :=
  owner.props.map (fun prop => exprCalcValue cf prop.visible) ++
    visiblesBelow cf owner.list.reverse

/-- The open entries are those at the end of the list, the innermost one last. -/
def openVisibles (cf : Conf) (owners : List Owner) : List Tristate :=
  owners.reverse.flatMap (Owner.visibles cf)

theorem openVisibles_cons (owner : Owner) (owners : List Owner) :
    openVisibles cf (owner :: owners) = openVisibles cf owners ++ owner.visibles cf := by
  rw [openVisibles, List.reverse_cons, List.flatMap_append, List.flatMap_singleton]
  rfl

theorem visibles_append_list (owner : Owner) (below : List Entry) :
    ({ owner with list := below ++ owner.list } : Owner).visibles cf =
      owner.visibles cf ++ visiblesBelow cf below.reverse := by
  rw [Owner.visibles, Owner.visibles, List.reverse_append, visiblesBelow_append, List.append_assoc]

/-- No open entry is a choice. -/
def NoChoice (st : ParseState) (owners : List Owner) : Prop :=
  ∀ owner ∈ owners, (st.sym owner.sym).choice = false

/-- Nothing is shown of the open entries. -/
def Owner.Low (cf : Conf) (marked : List SymId) (owner : Owner) : Prop :=
  (∀ prop ∈ owner.props, exprCalcValue cf prop.visible = .no) ∧
    ∀ e ∈ owner.list, e.Low cf marked

theorem Owner.Low.mono {marked' : List SymId} (hsub : marked ⊆ marked') {owner : Owner}
    (h : owner.Low cf marked) : owner.Low cf marked' :=
  ⟨h.1, fun e he => (h.2 e he).mono hsub⟩

/-- Nothing is shown of the open entries and of those in the list around them. -/
structure Unshown (cf : Conf) (marked : List SymId) (owners : List Owner) (out : List Entry) :
    Prop where
  owners : ∀ owner ∈ owners, owner.Low cf marked
  out : ∀ e ∈ out, e.Low cf marked

theorem Unshown.nil : Unshown cf marked [] [] where
  owners _ ho := by cases ho
  out _ he := by cases he

theorem Unshown.mono {marked' : List SymId} {out : List Entry} (hsub : marked ⊆ marked')
    (h : Unshown cf marked owners out) : Unshown cf marked' owners out :=
  ⟨fun owner ho => (h.owners owner ho).mono hsub, fun e he => (h.out e he).mono hsub⟩

/-- Entries go below the innermost open one. -/
theorem Unshown.below {owner : Owner} {below out : List Entry}
    (h : Unshown cf marked (owner :: owners) out) (hbelow : ∀ e ∈ below, e.Low cf marked) :
    Unshown cf marked ({ owner with list := below ++ owner.list } :: owners) out := by
  obtain ⟨hlow, hlows⟩ := List.forall_mem_cons.mp h.owners
  refine ⟨List.forall_mem_cons.mpr ⟨⟨hlow.1, ?_⟩, hlows⟩, h.out⟩
  exact fun e he => (List.mem_append.mp he).elim (hbelow e) (hlow.2 e)

/-- An open entry that is no choice is closed. -/
theorem close_spec (owner : Owner) (hchoice : (st.sym owner.sym).choice = false) (cf : Conf)
    (marked : List SymId) (fs : Finalizing) :
    (owner.close st fs).2 = fs ∧ (owner.close st fs).1.visibles cf = owner.visibles cf ∧
      (owner.Low cf marked → (owner.close st fs).1.Low cf marked) := by
  have hplain : OfNoChoice st (some owner.sym) := fun c hc => Option.some_inj.mp hc ▸ hchoice
  obtain ⟨hfs, hvisibles, hlow⟩ := closeEntries_plain hplain cf marked fs owner.list.reverse
  rw [Owner.close]
  refine ⟨hfs, ?_, ?_⟩
  · rw [Entry.visibles, hvisibles, Owner.visibles]
  · intro h
    rw [Entry.Low]
    refine ⟨fun _ _ _ => h.1, fun _ => hlow ?_⟩
    rw [lowBelow_iff]
    exact fun e he => h.2 e (List.mem_reverse.mp he)

/-- Entries are closed: they keep their order, and nothing else happens. -/
theorem closeOwners_spec (next : Option Entry) (hchoice : NoChoice st owners) (cf : Conf)
    (below out : List Entry) (fs : Finalizing) :
    ∃ owners' out', closeOwners st next owners below out fs = (owners', out', fs) ∧
      visiblesBelow cf out'.reverse ++ openVisibles cf owners' =
        visiblesBelow cf out.reverse ++ openVisibles cf owners ++ visiblesBelow cf below.reverse ∧
      NoChoice st owners' ∧ (next = none → owners' = []) ∧
      ∀ marked, Unshown cf marked owners out → (∀ e ∈ below, e.Low cf marked) →
        Unshown cf marked owners' out' := by
  induction owners generalizing below out with
  | nil =>
      refine ⟨[], below ++ out, rfl, ?_, hchoice, fun _ => rfl, ?_⟩
      · simp [openVisibles, visiblesBelow_append]
      · intro marked hlow hbelow
        exact ⟨hlow.owners, fun e he => (List.mem_append.mp he).elim (hbelow e) (hlow.out e)⟩
  | cons owner owners ih =>
      obtain ⟨hfirst, hrest⟩ := List.forall_mem_cons.mp hchoice
      by_cases hnext : next.any (goesBelow st fs.types owner.sym owner.basedep)
      · refine ⟨{ owner with list := below ++ owner.list } :: owners, out, if_pos hnext, ?_, ?_,
          ?_, ?_⟩
        · rw [openVisibles_cons, openVisibles_cons, visibles_append_list]
          simp only [List.append_assoc]
        · exact List.forall_mem_cons.mpr ⟨hfirst, hrest⟩
        · rintro rfl
          cases hnext
        · exact fun marked hlow hbelow => hlow.below hbelow
      · -- the closed entry goes below the next one
        have hspec := fun marked =>
          close_spec { owner with list := below ++ owner.list } hfirst cf marked fs
        obtain ⟨hfs, hvisibles, _⟩ := hspec []
        obtain ⟨owners', out', hrun, hsame, hchoice', hnone, hlow'⟩ :=
          ih hrest [(Owner.close st { owner with list := below ++ owner.list } fs).1] out
        refine ⟨owners', out', ?_, ?_, hchoice', hnone, ?_⟩
        · have hclose : Owner.close st { owner with list := below ++ owner.list } fs =
              ((Owner.close st { owner with list := below ++ owner.list } fs).1, fs) :=
            Prod.ext rfl hfs
          rw [← hrun]
          exact (if_neg hnext).trans
            (congrArg (fun r => closeOwners st next owners [r.1] out r.2) hclose)
        · rw [hsame, List.reverse_singleton, visiblesBelow_singleton, hvisibles,
            visibles_append_list, openVisibles_cons]
          simp only [List.append_assoc]
        · intro marked hlow hbelow
          obtain ⟨hclosed, hlows⟩ := List.forall_mem_cons.mp (hlow.below hbelow).owners
          refine hlow' marked ⟨hlows, hlow.out⟩ ?_
          intro e he
          rw [List.mem_singleton.mp he]
          exact (hspec marked).2.2 hclosed

theorem place_spec (entry : Entry) (out : List Entry) (hchoice : NoChoice st owners) (cf : Conf) :
    visiblesBelow cf (place entry owners out).2.reverse ++
        openVisibles cf (place entry owners out).1 =
      visiblesBelow cf out.reverse ++ openVisibles cf owners ++ entry.visibles cf ∧
      NoChoice st (place entry owners out).1 ∧
      ∀ marked, Unshown cf marked owners out → entry.Low cf marked →
        Unshown cf marked (place entry owners out).1 (place entry owners out).2 := by
  cases owners with
  | nil =>
      refine ⟨?_, hchoice, ?_⟩
      · show visiblesBelow cf (entry :: out).reverse ++ openVisibles cf [] = _
        rw [visiblesBelow_reverse_cons]
        simp [openVisibles]
      · intro marked hlow hentry
        exact ⟨hlow.owners, List.forall_mem_cons.mpr ⟨hentry, hlow.out⟩⟩
  | cons owner owners =>
      obtain ⟨hfirst, hrest⟩ := List.forall_mem_cons.mp hchoice
      refine ⟨?_, List.forall_mem_cons.mpr ⟨hfirst, hrest⟩, ?_⟩
      · show visiblesBelow cf out.reverse ++
          openVisibles cf ({ owner with list := [entry] ++ owner.list } :: owners) = _
        rw [openVisibles_cons, openVisibles_cons, visibles_append_list, List.reverse_singleton,
          visiblesBelow_singleton]
        simp only [List.append_assoc]
      · exact fun marked hlow hentry => hlow.below (List.forall_mem_singleton.mpr hentry)

end Owners

/-! ## All entries -/

section Finalize

variable {cf : Conf} {st : ParseState} {final types : Types} {owner : Owner}

theorem owner_eq_some {entry : Entry} (h : entry.owner st types = some owner) :
    entry = .mk (some owner.sym) owner.file owner.dep owner.props [] ∧ owner.list = [] := by
  rcases entry with ⟨sym, file, dep, props, list⟩
  unfold Entry.owner at h
  split at h
  case h_1 heq =>
    cases heq
    obtain rfl := Option.some_inj.mp h
    exact ⟨rfl, rfl⟩
  case h_2 => cases h

/-- An entry that may have others below it is no choice, and changes no types. -/
theorem owner_spec {entry : Entry} (h : entry.owner st types = some owner)
    (hguard : entry.Guarded cf st) :
    (st.sym owner.sym).choice = false ∧ entry.typesAfter st types = types ∧
      owner.visibles cf = entry.visibles cf ∧
      ∀ marked, entry.Hidden cf st → owner.Low cf marked := by
  obtain ⟨rfl, hlist⟩ := owner_eq_some h
  rw [Entry.Guarded] at hguard
  have hchoice : (st.sym owner.sym).choice = false := by
    by_contra hchoice
    exact (hguard.1 owner.sym rfl (by simpa using hchoice)).1 rfl
  refine ⟨hchoice, ?_, ?_, ?_⟩
  · rw [Entry.typesAfter, typesAfterAll]
    exact if_neg (by simp [hchoice])
  · rw [Owner.visibles, Entry.visibles, hlist]
    rfl
  · intro marked hhidden
    rw [Entry.Hidden] at hhidden
    refine ⟨hhidden.1, fun e he => ?_⟩
    rw [hlist] at he
    exact (List.not_mem_nil he).elim

/-- No tristate symbol is `m`, as a comparison with `y` sees it. -/
def Definite (cf : Conf) (final : Types) : Prop :=
  ∀ c, final c = .tristate →
    (Expr.equal c symbolYes).value cf = .yes ∨ (cf.curr c).tri = .no

mutual

/-- `menu_finalize` keeps what is shown, of an entry and of everything below it. -/
theorem finalizeEntry_spec (hdefinite : Definite cf final) :
    ∀ (entry : Entry) (fs : Finalizing), entry.Guarded cf st →
      (entry.typesAfter st fs.types).Before final →
      (finalizeEntry st entry fs).1.visibles cf = entry.visibles cf ∧
        (finalizeEntry st entry fs).2.types = entry.typesAfter st fs.types ∧
        fs.choiceval ⊆ (finalizeEntry st entry fs).2.choiceval ∧
        (entry.Hidden cf st →
          (finalizeEntry st entry fs).1.Low cf (finalizeEntry st entry fs).2.choiceval)
  | .mk sym file dep props list, fs, hguard, hafter => by
      rw [Entry.Guarded] at hguard
      rw [Entry.typesAfter] at hafter ⊢
      obtain ⟨hvisibles, htypes, hsub, hbelow⟩ := finalizeEntries_spec hdefinite list [] []
        { fs with types := choiceTypes st sym list fs.types } (fun _ ho => by cases ho) hguard.2
        hafter
      replace hbelow := fun h => hbelow h .nil
      rw [finalizeEntry]
      rcases hrun : finalizeEntries st list [] []
        { fs with types := choiceTypes st sym list fs.types } with ⟨list1, fs1⟩
      rw [hrun] at hvisibles htypes hsub hbelow
      dsimp only at hvisibles htypes hsub hbelow ⊢
      by_cases hplain : OfNoChoice st sym
      · obtain ⟨hfs, hvisibles', hlow'⟩ :=
          closeEntries_plain hplain cf fs1.choiceval fs1 list1
        rw [hfs, Entry.visibles, Entry.visibles, hvisibles', hvisibles]
        refine ⟨rfl, htypes, hsub, ?_⟩
        intro hhidden
        rw [Entry.Hidden] at hhidden
        rw [Entry.Low]
        exact ⟨fun _ _ _ => hhidden.1, fun hprompt => hlow' (hbelow (hhidden.2 hprompt hplain))⟩
      · -- the list is that of a choice, and is hidden where the choice is `n`
        obtain ⟨c, hcsym, hc⟩ : ∃ c ∈ sym, (st.sym c).choice := by
          simpa [OfNoChoice] using hplain
        obtain rfl : sym = some c := hcsym
        have hhides : ChoiceHides cf fs1.types c (HiddenBelow cf st list) := by
          intro htristate
          rw [htypes] at htristate
          have hfinal : final c = .tristate := by
            rcases hafter c with hunknown | heq
            · rw [hunknown] at htristate
              cases htristate
            · exact heq.symm.trans htristate
          exact (hdefinite c hfinal).imp_right (hguard.1 c rfl hc).2
        obtain ⟨hvisibles', htypes', hsub', hsettled⟩ :=
          closeEntries_choice hc list1 fs1 hhides hbelow
        refine ⟨?_, htypes'.trans htypes, List.Subset.trans hsub hsub', ?_⟩
        · rw [Entry.visibles, Entry.visibles, hvisibles', hvisibles]
          rfl
        · intro hhidden
          rw [Entry.Hidden] at hhidden
          rw [Entry.Low]
          refine ⟨fun _ _ _ => hhidden.1, fun _ => ?_⟩
          rw [lowBelow_iff]
          exact fun e he => (hsettled e he).low

theorem finalizeEntries_spec (hdefinite : Definite cf final) :
    ∀ (list : List Entry) (owners : List Owner) (out : List Entry) (fs : Finalizing),
      NoChoice st owners → GuardedBelow cf st list →
      (typesAfterAll st fs.types list).Before final →
      visiblesBelow cf (finalizeEntries st list owners out fs).1 =
          visiblesBelow cf out.reverse ++ openVisibles cf owners ++ visiblesBelow cf list ∧
        (finalizeEntries st list owners out fs).2.types = typesAfterAll st fs.types list ∧
        fs.choiceval ⊆ (finalizeEntries st list owners out fs).2.choiceval ∧
        (HiddenBelow cf st list → Unshown cf fs.choiceval owners out →
          LowBelow cf (finalizeEntries st list owners out fs).2.choiceval
            (finalizeEntries st list owners out fs).1)
  | [], owners, out, fs, hchoice, _, _ => by
      obtain ⟨owners', out', hrun, hsame, _, hnone, hlow⟩ :=
        closeOwners_spec none hchoice cf [] out fs
      obtain rfl := hnone rfl
      rw [finalizeEntries, hrun]
      refine ⟨?_, rfl, List.Subset.refl _, ?_⟩
      · have hempty : openVisibles cf [] = [] := rfl
        rw [hempty, List.append_nil] at hsame
        exact hsame
      · intro _ hopen
        have hlow := hlow fs.choiceval hopen (fun _ he => by cases he)
        rw [lowBelow_iff]
        exact fun e he => hlow.out e (List.mem_reverse.mp he)
  | entry :: rest, owners, out, fs, hchoice, hguard, hafter => by
      rw [GuardedBelow] at hguard
      rw [typesAfterAll] at hafter ⊢
      obtain ⟨owners', out', hrun, hsame, hchoice', _, hlow⟩ :=
        closeOwners_spec (some entry) hchoice cf [] out fs
      have hsame : visiblesBelow cf out'.reverse ++ openVisibles cf owners' =
          visiblesBelow cf out.reverse ++ openVisibles cf owners :=
        hsame.trans (List.append_nil _)
      have hlow := fun hopen => hlow fs.choiceval hopen (fun _ he => by cases he)
      rw [finalizeEntries, hrun]
      dsimp only
      cases howner : entry.owner st fs.types with
      | some owner =>
          obtain ⟨hplain, htypes, hvisibles, hhidden⟩ := owner_spec howner hguard.1
          rw [htypes] at hafter ⊢
          obtain ⟨hvisibles', htypes', hsub, hlow'⟩ := finalizeEntries_spec hdefinite rest
            (owner :: owners') out' fs (List.forall_mem_cons.mpr ⟨hplain, hchoice'⟩) hguard.2
            hafter
          refine ⟨?_, htypes', hsub, ?_⟩
          · rw [hvisibles', openVisibles_cons, ← List.append_assoc, hsame, hvisibles,
              List.append_assoc, visiblesBelow]
          · intro hlist hopen
            rw [HiddenBelow] at hlist
            have hopen' := hlow hopen
            refine hlow' hlist.2 ⟨List.forall_mem_cons.mpr ⟨?_, hopen'.owners⟩, hopen'.out⟩
            exact hhidden _ hlist.1
      | none =>
          have hfirst := (before_typesAfterAll st (entry.typesAfter st fs.types) rest).trans hafter
          obtain ⟨hvisibles, htypes, hsub, hentry⟩ :=
            finalizeEntry_spec hdefinite entry fs hguard.1 hfirst
          obtain ⟨hplace, hchoice'', hlow''⟩ :=
            place_spec (finalizeEntry st entry fs).1 out' hchoice' cf
          rw [← htypes] at hafter ⊢
          obtain ⟨hvisibles', htypes', hsub', hlow'⟩ := finalizeEntries_spec hdefinite rest
            (place (finalizeEntry st entry fs).1 owners' out').1
            (place (finalizeEntry st entry fs).1 owners' out').2 (finalizeEntry st entry fs).2
            hchoice'' hguard.2 hafter
          refine ⟨?_, htypes', List.Subset.trans hsub hsub', ?_⟩
          · show visiblesBelow cf (finalizeEntries st rest _ _ _).1 = _
            rw [hvisibles', hplace, hsame, hvisibles, List.append_assoc, visiblesBelow]
          · intro hlist hopen
            rw [HiddenBelow] at hlist
            have hplaced := hlow'' (finalizeEntry st entry fs).2.choiceval
              ((hlow hopen).mono hsub) (hentry hlist.1)
            exact hlow' hlist.2 hplaced

end

end Finalize

/-! ## What has been folded -/

section Folded

variable {cf : Conf} {st : ParseState} {known final : Types} {parentdep : Option Expr}

mutual

/-- Every choice has an entry. -/
def Entry.Filled (st : ParseState) : Entry → Prop
  | .mk sym _ _ _ list => (∀ c ∈ sym, (st.sym c).choice → list ≠ []) ∧ FilledBelow st list

def FilledBelow (st : ParseState) : List Entry → Prop
  | [] => True
  | entry :: rest => Entry.Filled st entry ∧ FilledBelow st rest

end

theorem sym_foldEntry (known : Types) (parentdep : Option Expr) (types : Types) (entry : Entry) :
    (foldEntry st known parentdep types entry).sym = entry.sym := by
  rcases entry with ⟨sym, file, dep, props, list⟩
  rw [foldEntry, Entry.sym, Entry.sym]

theorem filterMap_sym_foldEntries (known : Types) (parentdep : Option Expr) (types : Types)
    (list : List Entry) :
    (foldEntries st known parentdep types list).filterMap Entry.sym = list.filterMap Entry.sym := by
  induction list generalizing types with
  | nil => rfl
  | cons entry rest ih =>
      rw [foldEntries, List.filterMap_cons, List.filterMap_cons, sym_foldEntry, ih]

/-- Folding does not change what a choice sees of its values. -/
theorem choiceTypes_foldEntries (known : Types) (parentdep : Option Expr) (types types' : Types)
    (sym : Option SymId) (list : List Entry) :
    choiceTypes st sym (foldEntries st known parentdep types list) types' =
      choiceTypes st sym list types' := by
  unfold choiceTypes
  rw [filterMap_sym_foldEntries]

mutual

theorem typesAfter_foldEntry : ∀ (entry : Entry) (known : Types) (parentdep : Option Expr)
    (types types' : Types),
    (foldEntry st known parentdep types entry).typesAfter st types' = entry.typesAfter st types'
  | .mk sym file dep props list, known, parentdep, types, types' => by
      rw [foldEntry, Entry.typesAfter, Entry.typesAfter, choiceTypes_foldEntries,
        typesAfterAll_foldEntries list]

theorem typesAfterAll_foldEntries : ∀ (list : List Entry) (known : Types)
    (parentdep : Option Expr) (types types' : Types),
    typesAfterAll st types' (foldEntries st known parentdep types list) =
      typesAfterAll st types' list
  | [], _, _, _, _ => rfl
  | entry :: rest, known, parentdep, types, types' => by
      rw [foldEntries, typesAfterAll, typesAfterAll, typesAfter_foldEntry entry,
        typesAfterAll_foldEntries rest]

end

/-- What refines a conjunction with `n` is `n`. -/
theorem eq_no_of_refines {a b : Tristate} (h : (exprAnd .no b).Refines a) : a = .no := by
  have hno : exprAnd .no b = .no := by cases b <;> rfl
  rw [hno] at h
  rcases h with hmod | heq
  · cases hmod
  · exact heq.symm

theorem ParseState.Keeps.fold_no (h : st.Keeps cf final) (hknown : known.Before final)
    (hparent : exprCalcValue cf parentdep = .no) (dep : Option Expr) :
    exprCalcValue cf (baseDep st known parentdep dep) = .no := by
  have hno : Tristate.no.Refines (exprCalcValue cf parentdep) := .inr hparent.symm
  have hfold := h.fold hknown hno dep
  exact eq_no_of_refines hfold

theorem ParseState.Keeps.visible_no (h : st.Keeps cf final) (hknown : known.Before final)
    {basedep : Option Expr} (hbase : exprCalcValue cf basedep = .no) (sym : Option SymId)
    (props : List Property) :
    ∀ prop ∈ foldProps st known sym basedep props, exprCalcValue cf prop.visible = .no := by
  intro prop hprop
  obtain ⟨prop', _, rfl⟩ := List.mem_map.mp hprop
  have hno : Tristate.no.Refines (exprCalcValue cf basedep) := .inr hbase.symm
  have hvisible := h.visible hknown hno sym prop'
  exact eq_no_of_refines hvisible

mutual

/-- Nothing is shown below what is `n`, up to the values of choices. -/
theorem ParseState.Keeps.hidden_entry (h : st.Keeps cf final) {known : Types}
    (hknown : known.Before final) {parentdep : Option Expr}
    (hparent : exprCalcValue cf parentdep = .no) (types : Types) :
    ∀ entry : Entry, (entry.typesAfter st types).Before final →
      (foldEntry st known parentdep types entry).Hidden cf st
  | .mk sym file dep props list, hafter => by
      rw [Entry.typesAfter] at hafter
      have hlist := (before_typesAfterAll st (choiceTypes st sym list types) list).trans hafter
      have hbase := h.fold_no hknown hparent dep
      rw [foldEntry, Entry.Hidden]
      refine ⟨h.visible_no hknown hbase sym props, ?_⟩
      intro hprompt hchoice
      have hbelow : exprCalcValue cf (parentDep st sym (baseDep st known parentdep dep)
          (foldProps st known sym (baseDep st known parentdep dep) props)) = .no := by
        unfold parentDep
        rw [hprompt]
        cases sym with
        | none => exact hbase
        | some s =>
            dsimp only
            rw [if_neg (by simp [hchoice s rfl])]
            exact hbase
      exact ParseState.Keeps.hidden_entries h hlist hbelow _ list hafter

theorem ParseState.Keeps.hidden_entries (h : st.Keeps cf final) {known : Types}
    (hknown : known.Before final) {parentdep : Option Expr}
    (hparent : exprCalcValue cf parentdep = .no) (types : Types) :
    ∀ list : List Entry, (typesAfterAll st types list).Before final →
      HiddenBelow cf st (foldEntries st known parentdep types list)
  | [], _ => trivial
  | entry :: rest, hafter => by
      rw [typesAfterAll] at hafter
      have hentry := (before_typesAfterAll st (entry.typesAfter st types) rest).trans hafter
      rw [foldEntries, HiddenBelow]
      refine ⟨ParseState.Keeps.hidden_entry h hknown hparent types entry hentry, ?_⟩
      exact ParseState.Keeps.hidden_entries h hknown hparent _ rest hafter

end

mutual

/-- Choices hide what is in them. -/
theorem ParseState.Keeps.guarded_entry (h : st.Keeps cf final) :
    ∀ (entry : Entry) (known : Types) (parentdep : Option Expr) (types : Types),
      entry.Filled st → (entry.typesAfter st types).Before final →
      (foldEntry st known parentdep types entry).Guarded cf st
  | .mk sym file dep props list, known, parentdep, types, hfilled, hafter => by
      rw [Entry.Filled] at hfilled
      rw [Entry.typesAfter] at hafter
      have hlist := (before_typesAfterAll st (choiceTypes st sym list types) list).trans hafter
      rw [foldEntry, Entry.Guarded]
      refine ⟨?_, ParseState.Keeps.guarded_entries h list _ _ _ hfilled.2 hafter⟩
      rintro c rfl hc
      have hparent : parentDep st (some c) (baseDep st known parentdep dep)
          (foldProps st known (some c) (baseDep st known parentdep dep) props) =
            some (.symbol c) := if_pos hc
      constructor
      · have hne := hfilled.1 c rfl hc
        cases list with
        | nil => exact absurd rfl hne
        | cons entry rest =>
            rw [foldEntries]
            exact List.cons_ne_nil _ _
      · intro hno
        exact h.hidden_entries hlist (hparent ▸ hno) _ list hafter

theorem ParseState.Keeps.guarded_entries (h : st.Keeps cf final) :
    ∀ (list : List Entry) (known : Types) (parentdep : Option Expr) (types : Types),
      FilledBelow st list → (typesAfterAll st types list).Before final →
      GuardedBelow cf st (foldEntries st known parentdep types list)
  | [], _, _, _, _, _ => trivial
  | entry :: rest, known, parentdep, types, hfilled, hafter => by
      rw [FilledBelow] at hfilled
      rw [typesAfterAll] at hafter
      have hentry := (before_typesAfterAll st (entry.typesAfter st types) rest).trans hafter
      rw [foldEntries, GuardedBelow]
      refine ⟨ParseState.Keeps.guarded_entry h entry known parentdep types hfilled.1 hentry, ?_⟩
      exact ParseState.Keeps.guarded_entries h rest known parentdep _ hfilled.2 hafter

end

end Folded

theorem WellTyped.definite {const : SymId → Bool} {cf : Conf} {final : Types}
    (h : WellTyped ⟨final, const⟩ cf) (hm : cf.NoModules ⟨final, const⟩) : Definite cf final := by
  intro c hc
  rw [h.value_equal_yes (.inr hc)]
  have hmod := hm c hc
  revert hmod
  cases (cf.curr c).tri <;> simp

/-- What `menu_finalize` does behind its first loop does not change what is shown. -/
theorem visiblesBelow_finalized {const : SymId → Bool} {cf : Conf} {symbols : List SymId}
    {sym : SymId → Symbol} {entries : List Entry}
    (h : WellTyped ((parseState const symbols sym entries).symInfo const) cf)
    (hm : cf.NoModules ((parseState const symbols sym entries).symInfo const))
    (hfilled : FilledBelow (parseState const symbols sym entries) entries) :
    visiblesBelow cf (parseState const symbols sym entries).finalized =
      visiblesBelow cf (parseState const symbols sym entries).folded := by
  have hkeeps := parseState_keeps h hm symbols sym entries
  have hafter : typesAfterAll (parseState const symbols sym entries)
      (parseState const symbols sym entries).parsedTypes
      (parseState const symbols sym entries).folded =
        (parseState const symbols sym entries).types :=
    typesAfterAll_foldEntries entries _ none _ _
  obtain ⟨hvisibles, _, _, _⟩ := finalizeEntries_spec (h.definite hm)
    (parseState const symbols sym entries).folded [] []
    ⟨(parseState const symbols sym entries).parsedTypes, []⟩ (fun _ ho => by cases ho)
    (hkeeps.guarded_entries entries _ _ _ hfilled (.refl _)) (hafter ▸ .refl _)
  have hplain : OfNoChoice (parseState const symbols sym entries) none := fun _ hc => by cases hc
  rw [ParseState.finalized]
  exact (closeEntries_plain hplain cf [] _ _).2.1.trans hvisibles

/-! ## A choice -/

/-- `choice` with the tristate value `T`, and the boolean value `B` in an `if A`. -/
def choiceMenu : List Entry :=
  [.mk (some 3) [] none [⟨.prompt, none, none⟩] [],
    .mk (some 6) [] none [⟨.prompt, none, none⟩]
      [.mk (some 4) [] none [⟨.prompt, none, none⟩] [],
        .mk none [] (some (.symbol 3)) [] [.mk (some 5) [] none [⟨.prompt, none, none⟩] []]]]

/-- `A`, `T`, `B` and the choice, which has the given type. -/
def choiceSymbols (type : SymbolType) : List (Symbol × SymbolValue) :=
  [plainSymbol ['y'] .unknown ⟨['y'], .yes⟩, plainSymbol ['m'] .unknown ⟨['m'], .mod⟩,
    plainSymbol ['n'] .unknown ⟨['n'], .no⟩, plainSymbol ['A'] .boolean ⟨[], .yes⟩,
    plainSymbol ['T'] .tristate ⟨[], .no⟩, plainSymbol ['B'] .boolean ⟨[], .yes⟩,
    (⟨none, type, true, false, false, [], none, none⟩, ⟨[], .yes⟩)]

/-- What the parser knows of them: the choice has no type. -/
def choiceSymbol : SymId → Symbol := (Conf.ofTable (choiceSymbols .unknown) []).sym

/-- After `menu_finalize` it has that of its first value. -/
def choiceConf : Conf := Conf.ofTable (choiceSymbols .tristate) []

theorem types_choiceMenu (s : SymId) :
    (parseState twoSymbols.const [3, 4, 5, 6] choiceSymbol choiceMenu).types s =
      (choiceConf.sym s).type := by
  match s with
  | 0 | 1 | 2 | 3 | 4 | 5 | 6 => rfl
  | s + 7 => rfl

theorem wellTyped_choiceMenu : WellTyped ((parseState twoSymbols.const [3, 4, 5, 6] choiceSymbol
    choiceMenu).symInfo twoSymbols.const) choiceConf where
  type s _ := (types_choiceMenu s).symm
  untyped := by
    intro s hs
    refine (types_choiceMenu s).trans ?_
    rcases hs with rfl | rfl | rfl <;> rfl
  yes := rfl
  mod := rfl
  no := rfl
  yes_string := rfl
  mod_string := rfl
  no_string := rfl
  boolean s hs := by
    have hs := (types_choiceMenu s).symm.trans hs
    match s with
    | 3 | 5 =>
        show Tristate.yes ≠ .mod
        decide
    | 0 | 1 | 2 | 4 | 6 => cases hs
    | s + 7 => cases hs
  const s s' hs hs' heq := by
    have hs : s < 3 := of_decide_eq_true hs
    have hs' : s' < 3 := of_decide_eq_true hs'
    interval_cases s <;> interval_cases s' <;> first | rfl | cases heq

theorem noModules_choiceMenu : choiceConf.NoModules ((parseState twoSymbols.const [3, 4, 5, 6]
    choiceSymbol choiceMenu).symInfo twoSymbols.const) := by
  intro s hs
  have hs := (types_choiceMenu s).symm.trans hs
  match s with
  | 4 =>
      show Tristate.no ≠ .mod
      decide
  | 6 =>
      show Tristate.yes ≠ .mod
      decide
  | 0 | 1 | 2 | 3 | 5 => cases hs
  | s + 7 => cases hs

end Pbs.Kconfig
