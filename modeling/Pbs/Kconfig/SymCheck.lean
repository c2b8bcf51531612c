import Mathlib.Data.List.Count
import Pbs.Kconfig.Symbol

/-!
# The check for recursive dependencies

`conf_parse` runs `sym_check_deps` on every symbol: a depth-first search that
marks the symbols on its stack with `SYMBOL_CHECK` and those it has seen with
`SYMBOL_CHECKED`, and returns the symbol at which it met its own stack. A caller
that gets its own symbol back returns none, so the symbol at the top of a cycle
takes the report off again: `zconfnerrs` counts nothing (`zconfnerrs_eq_zero`).
The messages on the way are not part of the model.
-/

namespace Pbs.Kconfig

/-! ## Flags -/

/-- `SYMBOL_CHECK` and `SYMBOL_CHECKED` of every symbol. -/
structure Flags where
  check : SymId → Bool
  checked : SymId → Bool

/-- The flags the parser leaves. -/
def Flags.clear : Flags where
  check _ := false
  checked _ := false

/-- `flags |= (SYMBOL_CHECK | SYMBOL_CHECKED)` for some symbols. -/
def Flags.mark (fl : Flags) (syms : List SymId) : Flags where
  check s := syms.contains s || fl.check s
  checked s := syms.contains s || fl.checked s

/-- `flags &= ~SYMBOL_CHECK` for some symbols. -/
def Flags.unmark (fl : Flags) (syms : List SymId) : Flags :=
  { fl with check := fun s => fl.check s && !syms.contains s }

theorem Flags.mark_check {fl : Flags} {syms : List SymId} {s : SymId} :
    (fl.mark syms).check s ↔ s ∈ syms ∨ fl.check s := by
  simp [Flags.mark]

theorem Flags.mark_checked {fl : Flags} {syms : List SymId} {s : SymId} :
    (fl.mark syms).checked s ↔ s ∈ syms ∨ fl.checked s := by
  simp [Flags.mark]

theorem Flags.unmark_check {fl : Flags} {syms : List SymId} {s : SymId} :
    (fl.unmark syms).check s ↔ fl.check s ∧ s ∉ syms := by
  simp [Flags.unmark]

/-! ## The functions of `symbol.c` -/

/-- A function that returns a symbol or a null pointer and changes flags. It has
no result where the recursion is not through, or follows a null pointer. -/
abbrev Check := Flags → Option (Option SymId × Flags)

/-- `return NULL`. -/
def Check.pass : Check := fun fl => some (none, fl)

/-- `if (sym) return sym;` in front of another check. -/
def Check.andThen (first next : Check) : Check := fun fl =>
  match first fl with
  | some (none, fl) => next fl
  | r => r

/-- A loop that stops at the first symbol returned. -/
def Check.each {α : Type} (a : α → Check) : List α → Check
  | [] => .pass
  | x :: xs => (a x).andThen (Check.each a xs)

/-- Clear `SYMBOL_CHECK` of some symbols after a check. -/
def Check.unmarking (a : Check) (syms : List SymId) : Check := fun fl =>
  (a fl).map fun r => (r.1, r.2.unmark syms)

/-- `sym_check_expr_deps`, over `sym_check_deps`. -/
def symCheckExprDeps (check : SymId → Check) : Expr → Check
  | .or left right => (symCheckExprDeps check left).andThen (symCheckExprDeps check right)
  | .and left right => (symCheckExprDeps check left).andThen (symCheckExprDeps check right)
  | .not left => symCheckExprDeps check left
  | .equal left right => (check left).andThen (check right)
  | .unequal left right => (check left).andThen (check right)
  | .symbol sym => check sym

/-- The same for a pointer to an expression. -/
def symCheckCondition (check : SymId → Check) : Option Expr → Check
  | none => .pass
  | some e => symCheckExprDeps check e

/-- The same for the expression of a property. -/
def symCheckPropExpr (check : SymId → Check) : Option PropExpr → Check
  | none => .pass
  | some (.expr e) => symCheckExprDeps check e
  -- "Oops! How to check %d?"
  | some (.list _) => .pass

/-- The body of the loop in `sym_check_sym_deps`. -/
def symCheckProperty (check : SymId → Check) (sym : Symbol) (prop : Property) : Check :=
  if prop.type = .choice ∨ prop.type = .select then .pass
  else (symCheckCondition check prop.visible).andThen
    (if prop.type ≠ .default ∨ sym.choice then .pass else symCheckPropExpr check prop.expr)

/-- `sym_check_sym_deps`. -/
def symCheckSymDeps (check : SymId → Check) (sym : Symbol) : Check :=
  (symCheckCondition check sym.revDep).andThen
    (Check.each (symCheckProperty check sym) sym.prop)

/-- `sym_get_choice_prop`. -/
def symGetChoiceProp (sym : Symbol) : Option Property :=
  sym.prop.find? fun prop => prop.type = .choice

/-- `expr_list_for_each_sym` over the expression of a choice property. -/
def choiceValues (prop : Property) : List SymId :=
  match prop.expr with
  | some (.list syms) => syms
  | _ => []

/-- `prop_get_symbol(sym_get_choice_prop(sym))`. -/
def choiceOf (cf : Conf) (sym : SymId) : Option SymId :=
  (symGetChoiceProp (cf.sym sym)).bind propGetSymbol

/-- `sym_check_choice_deps`. -/
def symCheckChoiceDeps (cf : Conf) (check : SymId → Check) (choice : SymId) : Check := fun fl => do
  let prop ← symGetChoiceProp (cf.sym choice)
  let values := choiceValues prop
  let checkChoice := (symCheckSymDeps check (cf.sym choice)).unmarking [choice]
  let checkValues := Check.each (fun sym => symCheckSymDeps check (cf.sym sym)) values
  let (sym2, fl) ← (checkChoice.andThen checkValues).unmarking values
    (fl.mark (values ++ [choice]))
  if sym2.any fun sym2 => (cf.sym sym2).choiceval && choiceOf cf sym2 == some choice then
    some (some choice, fl)
  else some (sym2, fl)

/-- `sym_check_deps`, with a bound on the depth of the recursion. -/
def symCheckDeps (cf : Conf) : ℕ → SymId → Check
  | 0, _, _ => none
  | fuel + 1, sym, fl =>
      if fl.check sym then some (some sym, fl)
      else if fl.checked sym then some (none, fl)
      else do
        let (sym2, fl) ←
          if (cf.sym sym).choiceval then
            (choiceOf cf sym).bind fun choice => symCheckDeps cf fuel choice fl
          else if (cf.sym sym).choice then
            symCheckChoiceDeps cf (symCheckDeps cf fuel) sym fl
          else
            (symCheckSymDeps (symCheckDeps cf fuel) (cf.sym sym)).unmarking [sym] (fl.mark [sym])
        some (if sym2 = some sym then none else sym2, fl)

/-- One round of the loop in `conf_parse`. -/
def confParseCheck (cf : Conf) (fuel : ℕ) (acc : Flags × ℕ) (sym : SymId) :
    Option (Flags × ℕ) :=
  (symCheckDeps cf fuel sym acc.1).map fun (sym2, fl) =>
    (fl, if sym2.isSome then acc.2 + 1 else acc.2)

/-- The number of errors that `conf_parse` counts. -/
def zconfnerrs (cf : Conf) (fuel : ℕ) : Option ℕ :=
  (cf.symbols.foldlM (confParseCheck cf fuel) (Flags.clear, 0)).map (·.2)

/-- `conf_parse` does not exit. -/
def Accepted (cf : Conf) : Prop := ∃ fuel, zconfnerrs cf fuel = some 0

/-! ## What a check can do -/

/-- The symbol returned is one that was on the stack, the stack has not grown,
and what was seen stays seen. -/
structure Settled (fl : Flags) (sym2 : Option SymId) (fl' : Flags) : Prop where
  stack : ∀ s, sym2 = some s → fl.check s
  check : ∀ s, fl'.check s → fl.check s
  checked : ∀ s, fl.checked s → fl'.checked s

theorem Settled.refl (fl : Flags) : Settled fl none fl where
  stack _ h := nomatch h
  check _ h := h
  checked _ h := h

theorem Settled.trans {fl fl' fl'' : Flags} {r r' : Option SymId} (h : Settled fl r fl')
    (h' : Settled fl' r' fl'') : Settled fl r' fl'' where
  stack s hs := h.check s (h'.stack s hs)
  check s hs := h.check s (h'.check s hs)
  checked s hs := h'.checked s (h.checked s hs)

/-- What was marked before a check and taken off the stack by it: the report of a
marked symbol is left, and that of the topmost one comes off. -/
theorem Settled.marked {fl fl' : Flags} {r r' : Option SymId} {syms : List SymId} {top : SymId}
    (h : Settled (fl.mark syms) r fl') (hoff : ∀ s ∈ syms, ¬ fl'.check s)
    (hr : ∀ s, r' = some s → s = top ∨ (r = some s ∧ s ∉ syms)) :
    Settled fl (if r' = some top then none else r') fl' where
  stack s hs := by
    split at hs
    · cases hs
    · rename_i hne
      rcases hr s hs with rfl | ⟨hrs, hmem⟩
      · exact absurd hs hne
      · exact (Flags.mark_check.mp (h.stack s hrs)).resolve_left hmem
  check s hs := (Flags.mark_check.mp (h.check s hs)).resolve_left fun hmem => hoff s hmem hs
  checked s hs := h.checked s (Flags.mark_checked.mpr (Or.inr hs))

/-- How many symbols of a table have not been seen. -/
def unchecked (table : List SymId) (fl : Flags) : ℕ :=
  table.countP fun s => !fl.checked s

theorem unchecked_le {table : List SymId} {fl fl' : Flags}
    (h : ∀ s, fl.checked s → fl'.checked s) : unchecked table fl' ≤ unchecked table fl := by
  refine List.countP_mono_left fun s _ hs => ?_
  cases hseen : fl.checked s with
  | false => rfl
  | true => simp [h s hseen] at hs

/-- Marking a symbol of the table that has not been seen leaves one less. -/
theorem unchecked_lt {table : List SymId} {fl fl' : Flags}
    (h : ∀ s, fl.checked s → fl'.checked s) {sym : SymId} (hmem : sym ∈ table)
    (hfresh : fl.checked sym = false) (hseen : fl'.checked sym) :
    unchecked table fl' < unchecked table fl := by
  rcases List.append_of_mem hmem with ⟨l, r, rfl⟩
  have hl := @unchecked_le l fl fl' h
  have hr := @unchecked_le r fl fl' h
  unfold unchecked at hl hr ⊢
  simp only [List.countP_append, List.countP_cons, hfresh, hseen, Bool.not_false, Bool.not_true]
  simp only [if_true, Bool.false_eq_true, if_false]
  omega

/-- A check that comes to an end with settled flags, as long as no more than
`k` symbols of the table are left, and then has some symbols off the stack. -/
def Settles (table : List SymId) (k : ℕ) (off : List SymId) (a : Check) : Prop :=
  ∀ fl, unchecked table fl ≤ k →
    ∃ r fl', a fl = some (r, fl') ∧ Settled fl r fl' ∧ ∀ s ∈ off, ¬ fl'.check s

section Settles

variable {table : List SymId} {k : ℕ} {off : List SymId}

theorem Settles.pass : Settles table k [] .pass := by
  intro fl _
  exact ⟨none, fl, rfl, Settled.refl fl, by simp⟩

theorem Settles.andThen {a b : Check} (ha : Settles table k off a) (hb : Settles table k [] b) :
    Settles table k off (a.andThen b) := by
  intro fl hk
  rcases ha fl hk with ⟨r, fl', hrun, h, hoff⟩
  cases r with
  -- a report ends the check
  | some s => exact ⟨some s, fl', by simp [Check.andThen, hrun], h, hoff⟩
  | none =>
      rcases hb fl' (Nat.le_trans (unchecked_le h.checked) hk) with ⟨r, fl'', hrun', h', _⟩
      refine ⟨r, fl'', by simp [Check.andThen, hrun, hrun'], h.trans h', ?_⟩
      exact fun s hs hcheck => hoff s hs (h'.check s hcheck)

theorem Settles.each {α : Type} {a : α → Check} (ha : ∀ x, Settles table k [] (a x))
    (l : List α) : Settles table k [] (Check.each a l) := by
  induction l with
  | nil => exact Settles.pass
  | cons x l ih => exact (ha x).andThen ih

theorem Settles.unmarking {a : Check} (ha : Settles table k off a) (syms : List SymId) :
    Settles table k (syms ++ off) (a.unmarking syms) := by
  intro fl hk
  rcases ha fl hk with ⟨r, fl', hrun, h, hoff⟩
  refine ⟨r, fl'.unmark syms, by simp [Check.unmarking, hrun], ?_, ?_⟩
  · exact ⟨h.stack, fun s hs => h.check s (Flags.unmark_check.mp hs).1, h.checked⟩
  · intro s hs hcheck
    rcases List.mem_append.mp hs with hmem | hmem
    · exact (Flags.unmark_check.mp hcheck).2 hmem
    · exact hoff s hmem (Flags.unmark_check.mp hcheck).1

variable {check : SymId → Check} (hcheck : ∀ s, Settles table k [] (check s))

include hcheck

theorem symCheckExprDeps_settles (e : Expr) : Settles table k [] (symCheckExprDeps check e) := by
  induction e with
  | symbol sym => exact hcheck sym
  | not e ih => exact ih
  | and left right ihl ihr => exact ihl.andThen ihr
  | or left right ihl ihr => exact ihl.andThen ihr
  | equal left right => exact (hcheck left).andThen (hcheck right)
  | unequal left right => exact (hcheck left).andThen (hcheck right)

theorem symCheckCondition_settles (e : Option Expr) :
    Settles table k [] (symCheckCondition check e) := by
  cases e with
  | none => exact Settles.pass
  | some e => exact symCheckExprDeps_settles hcheck e

theorem symCheckProperty_settles (sym : Symbol) (prop : Property) :
    Settles table k [] (symCheckProperty check sym prop) := by
  unfold symCheckProperty
  split
  · exact Settles.pass
  · refine (symCheckCondition_settles hcheck prop.visible).andThen ?_
    split
    · exact Settles.pass
    · unfold symCheckPropExpr
      split
      · exact Settles.pass
      · exact symCheckExprDeps_settles hcheck _
      · exact Settles.pass

theorem symCheckSymDeps_settles (sym : Symbol) :
    Settles table k [] (symCheckSymDeps check sym) :=
  (symCheckCondition_settles hcheck sym.revDep).andThen
    (Settles.each (symCheckProperty_settles hcheck sym) sym.prop)

end Settles

/-! ## No error is counted -/

/-- What the parser leaves of the choices, in finitely many symbols: a value
knows its choice, which is not a value itself, and a choice lists its values.
`menu_finalize` adds the property that names the choice to an entry right before
it adds the entry to the list of the choice. -/
structure ChoicesLinked (cf : Conf) (table : List SymId) : Prop where
  choice : ∀ v, (cf.sym v).choiceval →
    ∃ c, choiceOf cf v = some c ∧ (cf.sym c).choiceval = false
  values : ∀ c, (cf.sym c).choice → (cf.sym c).choiceval = false →
    ∃ prop, symGetChoiceProp (cf.sym c) = some prop ∧
      ∀ v ∈ choiceValues prop, (cf.sym v).choiceval ∧ choiceOf cf v = some c
  allocated : ∀ s, s ∉ table →
    (cf.sym s).revDep = none ∧ (cf.sym s).prop = [] ∧ (cf.sym s).choice = false

/-- The check of a symbol without properties and reverse dependencies. -/
theorem symCheckSymDeps_empty {check : SymId → Check} {sym : Symbol} (hrev : sym.revDep = none)
    (hprop : sym.prop = []) : symCheckSymDeps check sym = .pass := by
  rw [symCheckSymDeps, hrev, hprop]
  rfl

/-- The check of a choice. -/
theorem symCheckChoiceDeps_settled {cf : Conf} {table : List SymId} {check : SymId → Check}
    {choice : SymId} {prop : Property} {fl : Flags}
    (hprop : symGetChoiceProp (cf.sym choice) = some prop)
    (hvalues : ∀ v ∈ choiceValues prop, (cf.sym v).choiceval ∧ choiceOf cf v = some choice)
    (hcheck : ∀ s, Settles table
      (unchecked table (fl.mark (choiceValues prop ++ [choice]))) [] (check s)) :
    ∃ r fl', symCheckChoiceDeps cf check choice fl = some (r, fl') ∧
      Settled fl (if r = some choice then none else r) fl' := by
  have hchoice := (symCheckSymDeps_settles hcheck (cf.sym choice)).unmarking [choice]
  have hvals := Settles.each (fun sym => symCheckSymDeps_settles hcheck (cf.sym sym))
    (choiceValues prop)
  rcases (hchoice.andThen hvals).unmarking (choiceValues prop) _ (Nat.le_refl _) with
    ⟨r, fl', hrun, h, hoff⟩
  refine ⟨if r.any fun s => (cf.sym s).choiceval && choiceOf cf s == some choice
    then some choice else r, fl', ?_, h.marked hoff ?_⟩
  · simp only [symCheckChoiceDeps, hprop, Option.bind_eq_bind, Option.bind_some, hrun]
    split <;> rfl
  · intro s hs
    split at hs
    · exact Or.inl (Option.some.inj hs).symm
    · rename_i hblame
      by_cases htop : s = choice
      · exact Or.inl htop
      · refine Or.inr ⟨hs, fun hmem => hblame ?_⟩
        -- a report about a value is one about the choice
        have hmem : s ∈ choiceValues prop := by simpa [htop] using hmem
        simp [hs, hvalues s hmem]

/-- The check of one symbol. A value calls the check of its choice, so it takes
two more calls than there are symbols left for each of them. -/
theorem symCheckDeps_settled {cf : Conf} {table : List SymId} (hcf : ChoicesLinked cf table)
    (fuel : ℕ) (sym : SymId) (fl : Flags)
    (hfuel : 2 * unchecked table fl + (if (cf.sym sym).choiceval then 2 else 1) ≤ fuel) :
    ∃ r fl', symCheckDeps cf fuel sym fl = some (r, fl') ∧ Settled fl r fl' := by
  induction fuel generalizing sym fl with
  | zero => split at hfuel <;> omega
  | succ fuel ih =>
      rw [symCheckDeps]
      by_cases hstack : fl.check sym
      · refine ⟨some sym, fl, if_pos hstack, ?_, fun _ h => h, fun _ h => h⟩
        intro s hs
        exact Option.some.inj hs ▸ hstack
      rw [if_neg hstack]
      by_cases hseen : fl.checked sym
      · exact ⟨none, fl, if_pos hseen, Settled.refl fl⟩
      rw [if_neg hseen]
      cases hval : (cf.sym sym).choiceval with
      | true =>
          rcases hcf.choice sym hval with ⟨choice, hchoice, hnoval⟩
          rw [hval, if_pos rfl] at hfuel
          -- the choice is no value, so its check needs one call less
          rcases ih choice fl (by rw [hnoval]; simp; omega) with ⟨r, fl', hrun, h⟩
          refine ⟨if r = some sym then none else r, fl', by simp [hchoice, hrun], ?_, h.check,
            h.checked⟩
          intro s hs
          split at hs
          · cases hs
          · exact h.stack s hs
      | false =>
          rw [hval] at hfuel
          -- the calls below see at least one symbol less
          have hcheck : sym ∈ table → ∀ syms, sym ∈ syms → ∀ s,
              Settles table (unchecked table (fl.mark syms)) [] (symCheckDeps cf fuel s) := by
            intro hmem syms hsyms s fl' hle
            have hlt : unchecked table (fl.mark syms) < unchecked table fl :=
              unchecked_lt (fun s hs => Flags.mark_checked.mpr (Or.inr hs)) hmem
                (Bool.eq_false_iff.mpr hseen) (Flags.mark_checked.mpr (Or.inl hsyms))
            rcases ih s fl' (by simp at hfuel; split <;> omega) with ⟨r, fl'', hrun, h⟩
            exact ⟨r, fl'', hrun, h, by simp⟩
          cases hch : (cf.sym sym).choice with
          | true =>
              have hmem : sym ∈ table := by
                refine Decidable.by_contra fun hmem => ?_
                simp [(hcf.allocated sym hmem).2.2] at hch
              rcases hcf.values sym hch hval with ⟨prop, hprop, hvalues⟩
              rcases symCheckChoiceDeps_settled hprop hvalues (hcheck hmem _ (by simp)) with
                ⟨r, fl', hrun, h⟩
              exact ⟨_, fl', by simp [hrun], h⟩
          | false =>
              have hsettles : Settles table (unchecked table (fl.mark [sym])) []
                  (symCheckSymDeps (symCheckDeps cf fuel) (cf.sym sym)) := by
                by_cases hmem : sym ∈ table
                · exact symCheckSymDeps_settles (hcheck hmem [sym] (List.mem_singleton.mpr rfl)) _
                · rw [symCheckSymDeps_empty (hcf.allocated sym hmem).1 (hcf.allocated sym hmem).2.1]
                  exact Settles.pass
              rcases hsettles.unmarking [sym] _ (Nat.le_refl _) with ⟨r, fl', hrun, h, hoff⟩
              refine ⟨if r = some sym then none else r, fl', by simp [hrun],
                h.marked hoff fun s hs => ?_⟩
              by_cases htop : s = sym
              · exact Or.inl htop
              · exact Or.inr ⟨hs, by simpa using htop⟩

/-- The loop of `conf_parse` counts nothing: between two checks nothing is on
the stack. -/
theorem foldlM_confParseCheck {cf : Conf} {table : List SymId} (hcf : ChoicesLinked cf table)
    {fuel : ℕ} (hfuel : 2 * table.length + 2 ≤ fuel) (syms : List SymId) (fl : Flags)
    (hstack : ∀ s, ¬ fl.check s) :
    ∃ fl', syms.foldlM (confParseCheck cf fuel) (fl, 0) = some (fl', 0) := by
  induction syms generalizing fl with
  | nil => exact ⟨fl, rfl⟩
  | cons sym syms ih =>
      have hle : unchecked table fl ≤ table.length := List.countP_le_length
      rcases symCheckDeps_settled hcf fuel sym fl (by split <;> omega) with ⟨r, fl', hrun, h⟩
      -- a report names a symbol on the stack, and the stack is empty
      have hnone : r = none := by
        cases r with
        | none => rfl
        | some s => exact absurd (h.stack s rfl) (hstack s)
      subst hnone
      rcases ih fl' fun s hs => hstack s (h.check s hs) with ⟨fl'', hrest⟩
      refine ⟨fl'', ?_⟩
      rw [List.foldlM_cons, confParseCheck, hrun]
      exact hrest

/-- No tree is refused: whatever the symbols depend on, no error is counted. -/
theorem zconfnerrs_eq_zero {cf : Conf} {table : List SymId} (hcf : ChoicesLinked cf table) :
    ∃ n, ∀ fuel, n ≤ fuel → zconfnerrs cf fuel = some 0 := by
  refine ⟨2 * table.length + 2, fun fuel hfuel => ?_⟩
  rcases foldlM_confParseCheck hcf hfuel cf.symbols Flags.clear (by simp [Flags.clear]) with
    ⟨fl, hrun⟩
  rw [zconfnerrs, hrun]
  rfl

end Pbs.Kconfig
