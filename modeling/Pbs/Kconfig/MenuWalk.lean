import Pbs.Kconfig.MenuTree

/-!
# `menu_finalize` and the walk over the menus

`menu_finalize` moves entries below others and out of entries without a prompt,
whatever the dependencies are it looks at. The forest changes, but not the order of
its entries, and `create_package_list` walks over them in this order without a
stack.
-/

namespace Pbs.Kconfig

open TreeLinks

/-! ## `menu_finalize` -/

/-- What `menu_finalize` works on: the links, and how many of its dependency tests
have been made. -/
structure FinalizeState where
  links : Links MenuId
  tested : ℕ

/-- `for (menu = parent->list; menu; menu = menu->next) menu_finalize(menu);`, from
`menu` on. -/
def finalizeLoop (finalize : FinalizeState → MenuId → Option FinalizeState) :
    ℕ → FinalizeState → Option MenuId → Option FinalizeState
  | 0, _, _ => none
  | _ + 1, st, none => some st
  | fuel + 1, st, some menu => do
      let st ← finalize st menu
      finalizeLoop finalize fuel st (st.links.next menu)

/-- The loop over the entries that follow `parent`. Each outcome of `tests` is
whether the dependency of the next one on `parent` has been found; the loop ends
at the first one that has none. Returned is `last_menu`, too. -/
def absorbLoop (finalize : FinalizeState → MenuId → Option FinalizeState) (tests : ℕ → Bool)
    (parent : MenuId) : ℕ → FinalizeState → Option MenuId → Option MenuId →
      Option (FinalizeState × Option MenuId)
  | 0, _, _, _ => none
  | _ + 1, st, none, lastMenu => some (st, lastMenu)
  | fuel + 1, st, some menu, lastMenu =>
      let found := tests st.tested
      let st := { st with tested := st.tested + 1 }
      if found then do
        let st ← finalize st menu
        let st := { st with links := st.links.setParent menu (some parent) }
        absorbLoop finalize tests parent fuel st (st.links.next menu) (some menu)
      else
        some (st, lastMenu)

/-- What follows the loop over the entries behind `parent`. -/
def adopt (links : Links MenuId) (parent : MenuId) : Option MenuId → Links MenuId
  | some lastMenu =>
      let links := links.setList parent (links.next parent)
      let links := links.setNext parent (links.next lastMenu)
      links.setNext lastMenu none
  | none => links

/-- `for (last_menu = menu->list; ; last_menu = last_menu->next)`: the entries get a
new parent. Returned is the last of them, too. -/
def reparentLoop (parent : MenuId) :
    ℕ → Links MenuId → MenuId → Option (Links MenuId × MenuId)
  | 0, _, _ => none
  | fuel + 1, links, lastMenu =>
      let links := links.setParent lastMenu (some parent)
      match links.next lastMenu with
      | none => some (links, lastMenu)
      | some next => reparentLoop parent fuel links next

/-- The last loop: the entries below one without a prompt move behind it. -/
def flattenLoop (prompt : MenuId → Option Text) (parent : MenuId) :
    ℕ → Links MenuId → Option MenuId → Option (Links MenuId)
  | 0, _, _ => none
  | _ + 1, links, none => some links
  | fuel + 1, links, some menu =>
      match links.list menu, prompt menu with
      | some list, none => do
          let (links, lastMenu) ← reparentLoop parent fuel links list
          let links := links.setNext lastMenu (links.next menu)
          let links := links.setNext menu (links.list menu)
          let links := links.setList menu none
          flattenLoop prompt parent fuel links (links.next menu)
      | _, _ => flattenLoop prompt parent fuel links (links.next menu)

/-- `menu_finalize`, where the outcomes of its dependency tests are given. -/
def menuFinalize (sym : MenuId → Option SymId) (prompt : MenuId → Option Text) (tests : ℕ → Bool) :
    ℕ → FinalizeState → MenuId → Option FinalizeState
  | 0, _, _ => none
  | fuel + 1, st, parent => do
      let finalize := menuFinalize sym prompt tests fuel
      let st ←
        if (st.links.list parent).isSome then
          finalizeLoop finalize fuel st (st.links.list parent)
        else if (sym parent).isSome then do
          let (st, lastMenu) ← absorbLoop finalize tests parent fuel st (st.links.next parent) none
          some { st with links := adopt st.links parent lastMenu }
        else
          some st
      let links ← flattenLoop prompt parent fuel st.links (st.links.list parent)
      some { st with links := links }

/-! ## The walk of `create_package_list` -/

/-- `while ((menu = menu->parent))`: the first menu after one of those above. -/
def climb (links : Links MenuId) : ℕ → MenuId → Option (Option MenuId)
  | 0, _ => none
  | fuel + 1, menu =>
      match links.parent menu with
      | none => some none
      | some parent =>
          match links.next parent with
          | some next => some (some next)
          | none => climb links fuel parent

/-- The menu that is visited after `menu`. -/
def nextMenu (links : Links MenuId) (fuel : ℕ) (menu : MenuId) : Option (Option MenuId) :=
  match links.list menu, links.next menu with
  | some list, _ => some (some list)
  | none, some next => some (some next)
  | none, none => climb links fuel menu

/-- The menus the loop of `create_package_list` visits, from `menu` on. -/
def visitedMenus (links : Links MenuId) : ℕ → Option MenuId → Option (List MenuId)
  | 0, _ => none
  | _ + 1, none => some []
  | fuel + 1, some menu => do
      let next ← nextMenu links fuel menu
      let rest ← visitedMenus links fuel next
      some (menu :: rest)

/-! ## Loops that move entries -/

variable {m m' : Links MenuId} {f c r d : Forest MenuId} {a b p : MenuId}
  {up first mid tail : Option MenuId} {finalize : FinalizeState → MenuId → Option FinalizeState}
  {st : FinalizeState} {fuel bound : ℕ}

theorem nodup_children_rest (h : (Forest.node a c r).preorder.Nodup) :
    a ∉ c.preorder ∧ a ∉ r.preorder ∧ c.preorder.Nodup ∧ r.preorder.Nodup ∧
      ∀ x ∈ c.preorder, x ∉ r.preorder := by
  have hcons := List.nodup_cons.mp h
  have happ := List.nodup_append.mp hcons.2
  have hnot := hcons.1
  rw [List.mem_append, not_or] at hnot
  exact ⟨hnot.1, hnot.2, happ.1, happ.2.1, fun x hx hx' => happ.2.2 x hx x hx' rfl⟩

/-- The loop that gives the entries below one without a prompt a new parent. -/
theorem reparentLoop_spec (hl : Linked m c up (some a) none) (hnodup : c.preorder.Nodup)
    (hfuel : c.preorder.length ≤ fuel) :
    ∃ m' l, reparentLoop p fuel m a = some (m', l) ∧ c.last = some l ∧
      Linked m' c (some p) (some a) none ∧ m'.next = m.next ∧ m'.list = m.list ∧
      SameOutside c.preorder m m' := by
  induction c generalizing m a fuel with
  | nil => exact absurd hl (by simp [Linked])
  | node b c r _ ih =>
      rcases hl with ⟨hfirst, _, hlc, hlr⟩
      obtain rfl : a = b := Option.some_inj.mp hfirst
      rcases nodup_children_rest hnodup with ⟨hac, har, _, hr, hdisj⟩
      obtain ⟨fuel, rfl⟩ : ∃ k, fuel = k + 1 := ⟨fuel - 1, by simp at hfuel; omega⟩
      have hstep : SameOutside [a] m (m.setParent a (some p)) := sameOutside_setParent (some p)
      have hlc' : Linked (m.setParent a (some p)) c (some a) (m.list a) none :=
        hlc.outside_cell hstep hac
      have hlr' : Linked (m.setParent a (some p)) r up (m.next a) none :=
        hlr.outside_cell hstep har
      have hout : SameOutside (Forest.node a c r).preorder m (m.setParent a (some p)) :=
        hstep.mono (by simp)
      cases r with
      | nil =>
          have hnext : m.next a = none := hlr
          refine ⟨m.setParent a (some p), a, by simp [reparentLoop, hnext], rfl,
            ⟨rfl, by simp, hlc', hnext⟩, rfl, rfl, hout⟩
      | node b' c' r' =>
          have hnext : m.next a = some b' := hlr.1
          rw [hnext] at hlr'
          have hfuel' : (Forest.node b' c' r').preorder.length ≤ fuel := by
            simp only [Forest.preorder_node, List.length_cons, List.length_append] at hfuel ⊢
            omega
          -- the children of `a` and the rest have no entry in common, so the links of one survive
          -- the other
          rcases ih hlr' hr hfuel' with ⟨m', l, hloop, hlast, hlinked, hmn, hml, hsame⟩
          refine ⟨m', l, ?_, hlast, ⟨rfl, ?_, ?_, ?_⟩, hmn, hml, ?_⟩
          · simpa [reparentLoop, hnext] using hloop
          · rw [(hsame a har).2.2]
            simp
          · rw [hml]
            exact hlc'.outside hsame hdisj
          · rw [hmn]
            exact hnext ▸ hlinked
          · exact hout.trans (hsame.mono fun x hx => by
              rw [Forest.preorder_node]
              exact List.mem_cons_of_mem _ (List.mem_append_right _ hx))

/-- The children of `a`, which have `p` for their parent by now, become its next
siblings. -/
theorem hoist_spec {l : MenuId} (hlc : Linked m c (some p) first none)
    (hlr : Linked m r (some p) (m.next a) none) (hnodup : (Forest.node a c r).preorder.Nodup)
    (hlast : c.last = some l) :
    Linked (((m.setNext l (m.next a)).setNext a first).setList a none) (c.append r) (some p)
        first none ∧
      SameOutside (a :: c.preorder) m
        (((m.setNext l (m.next a)).setNext a first).setList a none) := by
  rcases nodup_children_rest hnodup with ⟨hac, har, hc, _, hdisj⟩
  have hl := Forest.last_mem hlast
  have hout : SameOutside [a] (m.setNext l (m.next a))
      (((m.setNext l (m.next a)).setNext a first).setList a none) :=
    (sameOutside_setNext _).trans (sameOutside_setList _)
  have hlc' := hlc.setNext_last hc hlast (m.next a)
  have hlr' : Linked (m.setNext l (m.next a)) r (some p) (m.next a) none :=
    hlr.outside_cell (sameOutside_setNext _) (hdisj l hl)
  constructor
  · refine (linked_append.mpr ⟨_, hlc', hlr'⟩).outside_cell hout ?_
    rw [Forest.preorder_append, List.mem_append]
    exact fun hmem => hmem.elim hac har
  · refine ((sameOutside_setNext _).mono ?_).trans (hout.mono ?_)
    · simp [hl]
    · simp

/-- The last loop of `menu_finalize`. -/
theorem flattenLoop_spec (prompt : MenuId → Option Text) (hl : Linked m f (some p) first none)
    (hnodup : f.preorder.Nodup) (hfuel : f.preorder.length < fuel) :
    ∃ m' f', flattenLoop prompt p fuel m first = some m' ∧ Linked m' f' (some p) first none ∧
      f'.preorder = f.preorder ∧ SameOutside f.preorder m m' := by
  induction fuel generalizing m f first with
  | zero => omega
  | succ fuel ih =>
      cases f with
      | nil =>
          obtain rfl : first = none := hl
          exact ⟨m, .nil, rfl, rfl, rfl, SameOutside.refl _ m⟩
      | node a c r =>
          rcases hl with ⟨rfl, hparent, hlc, hlr⟩
          rcases nodup_children_rest hnodup with ⟨hac, har, hc, hr, hdisj⟩
          simp only [Forest.preorder_node, List.length_cons, List.length_append] at hfuel
          -- the loop goes on behind the entry, over the forest `g`
          have hrest : ∀ (m₁ : Links MenuId) (c' g : Forest MenuId),
              flattenLoop prompt p (fuel + 1) m (some a) =
                flattenLoop prompt p fuel m₁ (m₁.next a) →
              m₁.parent a = some p → Linked m₁ c' (some a) (m₁.list a) none →
              Linked m₁ g (some p) (m₁.next a) none →
              c'.preorder ++ g.preorder = c.preorder ++ r.preorder →
              SameOutside (Forest.node a c r).preorder m m₁ →
              ∃ m' f', flattenLoop prompt p (fuel + 1) m (some a) = some m' ∧
                Linked m' f' (some p) (some a) none ∧ f'.preorder = (Forest.node a c r).preorder ∧
                SameOutside (Forest.node a c r).preorder m m' := by
            intro m₁ c' g hloop hparent₁ hlc₁ hlg hpre hsame
            have hnodup' : (Forest.node a c' g).preorder.Nodup := by
              rw [Forest.preorder_node, hpre]
              exact hnodup
            rcases nodup_children_rest hnodup' with ⟨_, hag, _, hg, hdisj'⟩
            have hfuel' : g.preorder.length < fuel := by
              have hlen := congrArg List.length hpre
              simp only [List.length_append] at hlen
              omega
            rcases ih hlg hg hfuel' with ⟨m', g', hm', hlg', hpre', hsame'⟩
            rcases hsame' a hag with ⟨hnext', hlist', hparent'⟩
            refine ⟨m', .node a c' g', hloop.trans hm', ⟨rfl, hparent'.trans hparent₁, ?_, ?_⟩,
              ?_, hsame.trans (hsame'.mono fun x hx => ?_)⟩
            · rw [hlist']
              exact hlc₁.outside hsame' hdisj'
            · rw [hnext']
              exact hlg'
            · rw [Forest.preorder_node, hpre', hpre, Forest.preorder_node]
            · rw [Forest.preorder_node, ← hpre]
              exact List.mem_cons_of_mem a (List.mem_append_right _ hx)
          cases hlist : m.list a with
          | none =>
              refine hrest m c r ?_ hparent hlc hlr rfl (SameOutside.refl _ m)
              simp [flattenLoop, hlist]
          | some list =>
              cases hprompt : prompt a with
              | some text =>
                  refine hrest m c r ?_ hparent hlc hlr rfl (SameOutside.refl _ m)
                  simp [flattenLoop, hlist, hprompt]
              | none =>
                  rw [hlist] at hlc
                  have hfuel' : c.preorder.length ≤ fuel := by omega
                  rcases reparentLoop_spec hlc hc hfuel' with
                    ⟨m₁, l, hm₁, hlast, hlc₁, hmn, hml, hsame⟩
                  have hlr₁ : Linked m₁ r (some p) (m₁.next a) none := by
                    rw [hmn]
                    exact hlr.outside hsame fun x hx hx' => hdisj x hx' hx
                  rcases hoist_spec hlc₁ hlr₁ hnodup hlast with ⟨hall, hout⟩
                  refine hrest (((m₁.setNext l (m₁.next a)).setNext a (some list)).setList a none)
                    .nil (c.append r) ?_ ?_ ?_ ?_ (by simp) ?_
                  · simp [flattenLoop, hlist, hprompt, hm₁, hml]
                  · simp [(hsame a hac).2.2, hparent]
                  · simp [Linked]
                  · simpa using hall
                  · refine (hsame.mono fun x hx => ?_).trans (hout.mono fun x hx => ?_)
                    · simp [hx]
                    · rcases List.mem_cons.mp hx with rfl | hx
                      · simp
                      · simp [hx]

/-! ## One call of `menu_finalize` -/

/-- What `menu_finalize` does to the children `c` of `a` and to the siblings `r`
behind it, all of which are below `up`. -/
structure Rearranged (m m' : Links MenuId) (a : MenuId) (up : Option MenuId)
    (c r c' r' : Forest MenuId) : Prop where
  children : Linked m' c' (some a) (m'.list a) none
  siblings : Linked m' r' up (m'.next a) none
  preorder : c'.preorder ++ r'.preorder = c.preorder ++ r.preorder
  outside : SameOutside (Forest.node a c r).preorder m m'
  parent : m'.parent a = m.parent a
  next : m.next a = none → m'.next a = none

/-- `finalize` works as it should for fewer than `bound` entries. -/
def Finalizes (finalize : FinalizeState → MenuId → Option FinalizeState) (bound : ℕ) : Prop :=
  ∀ {st a up c r}, Linked st.links c (some a) (st.links.list a) none →
    Linked st.links r up (st.links.next a) none → (Forest.node a c r).preorder.Nodup →
    c.preorder.length + r.preorder.length < bound →
    ∃ st' c' r', finalize st a = some st' ∧ Rearranged st.links st'.links a up c r c' r'

theorem Rearranged.nodup {c' r' : Forest MenuId} (h : Rearranged m m' a up c r c' r')
    (hnodup : (Forest.node a c r).preorder.Nodup) : (Forest.node a c' r').preorder.Nodup := by
  rw [Forest.preorder_node, h.preorder]
  exact hnodup

theorem Rearranged.rest_subset {c' r' : Forest MenuId} (h : Rearranged m m' a up c r c' r') :
    r'.preorder ⊆ (Forest.node a c r).preorder := by
  intro x hx
  rw [Forest.preorder_node, ← h.preorder]
  exact List.mem_cons_of_mem a (List.mem_append_right _ hx)

theorem Rearranged.length_le {c' r' : Forest MenuId} (h : Rearranged m m' a up c r c' r') :
    r'.preorder.length < (Forest.node a c r).preorder.length := by
  have hlen := congrArg List.length h.preorder
  simp only [List.length_append, Forest.preorder_node, List.length_cons] at hlen ⊢
  omega

/-- All entries below one are finalized. -/
theorem finalizeLoop_spec (hfin : Finalizes finalize bound)
    (hl : Linked st.links f up first none) (hnodup : f.preorder.Nodup)
    (hbound : f.preorder.length ≤ bound) (hfuel : f.preorder.length < fuel) :
    ∃ st' f', finalizeLoop finalize fuel st first = some st' ∧
      Linked st'.links f' up first none ∧ f'.preorder = f.preorder ∧
      SameOutside f.preorder st.links st'.links := by
  induction fuel generalizing st f first with
  | zero => omega
  | succ fuel ih =>
      cases f with
      | nil =>
          obtain rfl : first = none := hl
          exact ⟨st, .nil, rfl, rfl, rfl, SameOutside.refl _ st.links⟩
      | node a c r =>
          rcases hl with ⟨rfl, hparent, hlc, hlr⟩
          have hlen : c.preorder.length + r.preorder.length < bound := by
            simp only [Forest.preorder_node, List.length_cons, List.length_append] at hbound
            omega
          -- `a` may come to own entries that stood behind it, so the loop goes on with what is left
          rcases hfin hlc hlr hnodup hlen with ⟨st₁, c₁, r₁, hst₁, hre⟩
          rcases nodup_children_rest (hre.nodup hnodup) with ⟨_, har, _, hr₁, hdisj⟩
          have hle := hre.length_le
          rcases ih hre.siblings hr₁ (by omega) (by omega) with ⟨st₂, r₂, hst₂, hlr₂, hpre, hsame⟩
          rcases hsame a har with ⟨hnext', hlist', hparent'⟩
          refine ⟨st₂, .node a c₁ r₂, ?_, ⟨rfl, ?_, ?_, ?_⟩, ?_,
            hre.outside.trans (hsame.mono hre.rest_subset)⟩
          · simpa [finalizeLoop, hst₁] using hst₂
          · rw [hparent', hre.parent, hparent]
          · rw [hlist']
            exact hre.children.outside hsame hdisj
          · rw [hnext']
            exact hlr₂
          · rw [Forest.preorder_node, hpre, hre.preorder, Forest.preorder_node]

/-- The entries behind `p` that depend on it are finalized and get `p` for their
parent. -/
theorem absorbLoop_spec (tests : ℕ → Bool) (lastMenu : Option MenuId)
    (hfin : Finalizes finalize bound) (hl : Linked st.links r up first none)
    (hnodup : r.preorder.Nodup) (hbound : r.preorder.length ≤ bound)
    (hfuel : r.preorder.length < fuel) :
    ∃ st' d r' mid, absorbLoop finalize tests p fuel st first lastMenu =
        some (st', d.last.or lastMenu) ∧
      Linked st'.links d (some p) first mid ∧ Linked st'.links r' up mid none ∧
      d.preorder ++ r'.preorder = r.preorder ∧ SameOutside r.preorder st.links st'.links := by
  induction fuel generalizing st r first lastMenu with
  | zero => omega
  | succ fuel ih =>
      cases r with
      | nil =>
          obtain rfl : first = none := hl
          exact ⟨st, .nil, .nil, none, rfl, rfl, rfl, rfl, SameOutside.refl _ st.links⟩
      | node a c r =>
          cases htest : tests st.tested with
          | false =>
              have hloop : absorbLoop finalize tests p (fuel + 1) st first lastMenu =
                  some ({ st with tested := st.tested + 1 }, lastMenu) := by
                simp [absorbLoop, hl.1, htest]
              exact ⟨{ st with tested := st.tested + 1 }, .nil, .node a c r, first, hloop, rfl, hl,
                rfl, SameOutside.refl _ st.links⟩
          | true =>
              rcases hl with ⟨rfl, _, hlc, hlr⟩
              have hlen : c.preorder.length + r.preorder.length < bound := by
                simp only [Forest.preorder_node, List.length_cons, List.length_append] at hbound
                omega
              let st₀ := { st with tested := st.tested + 1 }
              have hlc₀ : Linked st₀.links c (some a) (st₀.links.list a) none := hlc
              -- the entry is finalized first, and may take some of those behind it
              rcases hfin hlc₀ hlr hnodup hlen with ⟨st₁, c₁, r₁, hst₁, hre⟩
              rcases nodup_children_rest (hre.nodup hnodup) with ⟨hac, har, _, hr₁, hdisj⟩
              let st₂ := { st₁ with links := st₁.links.setParent a (some p) }
              have hset : SameOutside [a] st₁.links st₂.links := sameOutside_setParent (some p)
              have hlr₂ : Linked st₂.links r₁ up (st₂.links.next a) none :=
                hre.siblings.outside_cell hset har
              have hlc₂ : Linked st₂.links c₁ (some a) (st₂.links.list a) none :=
                hre.children.outside_cell hset hac
              have hle := hre.length_le
              rcases ih (some a) hlr₂ hr₁ (by omega) (by omega) with
                ⟨st₃, d, r', mid, hst₃, hld, hlr', hpre, hsame⟩
              rcases hsame a har with ⟨hnext', hlist', hparent'⟩
              refine ⟨st₃, .node a c₁ d, r', mid, ?_, ⟨rfl, ?_, ?_, ?_⟩, hlr', ?_, ?_⟩
              · have hst₁' : finalize { st with tested := st.tested + 1 } a = some st₁ := hst₁
                rw [Forest.last_node, Option.or_assoc, Option.some_or, ← hst₃]
                simp [absorbLoop, htest, hst₁', st₂]
              · rw [hparent']
                simp [st₂]
              · rw [hlist']
                exact hlc₂.outside hsame hdisj
              · rw [hnext']
                exact hld
              · rw [Forest.preorder_node, List.cons_append, List.append_assoc, hpre, hre.preorder,
                  Forest.preorder_node]
              · refine (hre.outside.trans (hset.mono ?_)).trans (hsame.mono hre.rest_subset)
                simp

/-- The entries that have been found become the children of `a`. -/
theorem adopt_spec (hl : Linked m d (some a) (m.next a) mid) (hlr : Linked m r up mid none)
    (hlist : m.list a = none) (hnodup : (Forest.node a d r).preorder.Nodup) :
    Linked (adopt m a d.last) d (some a) ((adopt m a d.last).list a) none ∧
      Linked (adopt m a d.last) r up ((adopt m a d.last).next a) none ∧
      SameOutside (a :: d.preorder) m (adopt m a d.last) ∧
      (adopt m a d.last).parent = m.parent := by
  rcases nodup_children_rest hnodup with ⟨had, har, hd, _, hdisj⟩
  cases hlast : d.last with
  | none =>
      rw [Forest.last_eq_none_iff] at hlast
      subst hlast
      obtain rfl : m.next a = mid := hl
      exact ⟨hlist, hlr, SameOutside.refl _ m, rfl⟩
  | some l =>
      have hl' := Forest.last_mem hlast
      -- the list is cut behind `l`, and `a` goes on where it ended
      have hla : a ≠ l := fun heq => had (heq ▸ hl')
      have hmid : m.next l = mid := hl.next_last hlast
      have hadopt : adopt m a (some l) =
          ((m.setList a (m.next a)).setNext a mid).setNext l none := by
        simp [adopt, hmid]
      have hout : SameOutside [a] m ((m.setList a (m.next a)).setNext a mid) :=
        (sameOutside_setList _).trans (sameOutside_setNext _)
      have hld := hl.outside_cell hout had
      have hlr' := hlr.outside_cell hout har
      rw [hadopt]
      refine ⟨?_, ?_, ?_, rfl⟩
      · simpa using hld.setNext_last hd hlast none
      · have hnext : ((((m.setList a (m.next a)).setNext a mid).setNext l none).next a) = mid := by
          simp [hla]
        rw [hnext]
        exact hlr'.outside_cell (sameOutside_setNext _) (hdisj l hl')
      · refine (hout.mono ?_).trans ((sameOutside_setNext _).mono ?_)
        · simp
        · simp [hl']

theorem Rearranged.flatten {m₂ : Links MenuId} {c₁ r₁ c₂ : Forest MenuId}
    (h : Rearranged m m' a up c r c₁ r₁) (hnodup : (Forest.node a c r).preorder.Nodup)
    (hlc : Linked m₂ c₂ (some a) (m'.list a) none) (hpre : c₂.preorder = c₁.preorder)
    (hsame : SameOutside c₁.preorder m' m₂) : Rearranged m m₂ a up c r c₂ r₁ := by
  rcases nodup_children_rest (h.nodup hnodup) with ⟨hac, _, _, _, hdisj⟩
  rcases hsame a hac with ⟨hnext, hlist, hparent⟩
  constructor
  · rw [hlist]
    exact hlc
  · rw [hnext]
    exact h.siblings.outside hsame fun x hx hx' => hdisj x hx' hx
  · rw [hpre, h.preorder]
  · refine h.outside.trans (hsame.mono fun x hx => ?_)
    rw [Forest.preorder_node, ← h.preorder]
    exact List.mem_cons_of_mem a (List.mem_append_left _ hx)
  · rw [hparent, h.parent]
  · intro hnone
    rw [hnext, h.next hnone]

/-- Whatever the outcomes of its tests are, `menu_finalize` comes to an end and
leaves the entries in their order. -/
theorem menuFinalize_spec (sym : MenuId → Option SymId) (prompt : MenuId → Option Text)
    (tests : ℕ → Bool) (fuel : ℕ) :
    ∀ bound, bound < fuel → Finalizes (menuFinalize sym prompt tests fuel) bound := by
  induction fuel with
  | zero =>
      intro bound hbound
      omega
  | succ fuel ih =>
      intro bound hbound st a up c r hlc hlr hnodup hlen
      rcases nodup_children_rest hnodup with ⟨hac, har, hc, hr, hdisj⟩
      have hfin : Finalizes (menuFinalize sym prompt tests fuel)
          (c.preorder.length + r.preorder.length) := ih _ (by omega)
      -- what precedes the last loop rearranges the entries, and so does that loop
      have hlast : ∀ (st₁ : FinalizeState) (c₁ r₁ : Forest MenuId),
          menuFinalize sym prompt tests (fuel + 1) st a =
            (flattenLoop prompt a fuel st₁.links (st₁.links.list a)).bind
              (fun links => some { st₁ with links := links }) →
          Rearranged st.links st₁.links a up c r c₁ r₁ →
          ∃ st' c' r', menuFinalize sym prompt tests (fuel + 1) st a = some st' ∧
            Rearranged st.links st'.links a up c r c' r' := by
        intro st₁ c₁ r₁ heq hre
        have hnodup₁ := (nodup_children_rest (hre.nodup hnodup)).2.2.1
        have hfuel : c₁.preorder.length < fuel := by
          have hlen₁ := congrArg List.length hre.preorder
          simp only [List.length_append] at hlen₁
          omega
        rcases flattenLoop_spec prompt hre.children hnodup₁ hfuel with
          ⟨m₂, c₂, hm₂, hlc₂, hpre, hsame⟩
        refine ⟨{ st₁ with links := m₂ }, c₂, r₁, ?_, hre.flatten hnodup hlc₂ hpre hsame⟩
        rw [heq, hm₂]
        rfl
      cases hlist : st.links.list a with
      | some list =>
          rcases finalizeLoop_spec hfin hlc hc (by omega) (by omega : c.preorder.length < fuel) with
            ⟨st₁, c₁, hst₁, hlc₁, hpre, hsame⟩
          rcases hsame a hac with ⟨hnext', hlist', hparent'⟩
          refine hlast st₁ c₁ r ?_ ⟨?_, ?_, by rw [hpre], ?_, hparent', ?_⟩
          · rw [hlist] at hst₁
            simp [menuFinalize, hlist, hst₁]
          · rw [hlist']
            exact hlc₁
          · rw [hnext']
            exact hlr.outside hsame fun x hx hx' => hdisj x hx' hx
          · exact hsame.mono fun x hx => by simp [hx]
          · intro hnone
            rw [hnext', hnone]
      | none =>
          have hnil : c = .nil := (hlc.first_eq_none_iff).mp hlist
          subst hnil
          cases hsym : sym a with
          | none =>
              refine hlast st .nil r ?_
                ⟨hlc, hlr, rfl, SameOutside.refl _ _, rfl, id⟩
              simp [menuFinalize, hlist, hsym]
          | some s =>
              rcases absorbLoop_spec (p := a) tests none hfin hlr hr (by simp)
                  (by simp at hlen; omega : r.preorder.length < fuel) with
                ⟨st₁, d, r₁, mid, hst₁, hld, hlr₁, hpre, hsame⟩
              rcases hsame a har with ⟨hnext', hlist', hparent'⟩
              have hnodup₁ : (Forest.node a d r₁).preorder.Nodup := by
                rw [Forest.preorder_node, hpre]
                simpa using hnodup
              rw [Option.or_none] at hst₁
              rw [← hnext'] at hld
              rcases adopt_spec hld hlr₁ (hlist'.trans hlist) hnodup₁ with
                ⟨hld₂, hlr₂, hsame₂, hparent₂⟩
              have hsub : a :: d.preorder ⊆ (Forest.node a Forest.nil r).preorder := by
                intro x hx
                rw [Forest.preorder_node, ← hpre]
                rcases List.mem_cons.mp hx with rfl | hx
                · exact List.mem_cons_self ..
                · simp [hx]
              refine hlast { st₁ with links := adopt st₁.links a d.last } d r₁ ?_
                ⟨hld₂, hlr₂, by simpa using hpre, ?_, ?_, ?_⟩
              · simp [menuFinalize, hlist, hsym, hst₁]
              · exact (hsame.mono fun x hx => by simp [hx]).trans (hsame₂.mono hsub)
              · show (adopt st₁.links a d.last).parent a = _
                rw [hparent₂, hparent']
              · -- nothing follows the entry, so nothing has been found
                intro hnone
                have hnil : r = .nil := (hlr.first_eq_none_iff).mp hnone
                subst hnil
                have happ : d.preorder = [] ∧ r₁.preorder = [] := by simpa using hpre
                have hd : d = .nil := Forest.preorder_eq_nil.mp happ.1
                subst hd
                show (adopt st₁.links a none).next a = none
                exact hnext'.trans hnone

/-! ## The walk -/

/-- Where the walk goes on when it is done with everything below `p`. -/
def Follows (m : Links MenuId) (p : MenuId) (x : Option MenuId) : Prop :=
  match m.next p with
  | some next => x = some next
  | none => ∃ n, ∀ fuel, n ≤ fuel → climb m fuel p = some x

theorem Follows.climb {x : Option MenuId} (h : Follows m p x) (hparent : m.parent a = some p) :
    ∃ n, ∀ fuel, n ≤ fuel → climb m fuel a = some x := by
  unfold Follows at h
  cases hnext : m.next p with
  | some next =>
      rw [hnext] at h
      refine ⟨1, fun fuel hfuel => ?_⟩
      obtain ⟨fuel, rfl⟩ : ∃ k, fuel = k + 1 := ⟨fuel - 1, by omega⟩
      simp [Kconfig.climb, hparent, hnext, h]
  | none =>
      rw [hnext] at h
      rcases h with ⟨n, hn⟩
      refine ⟨n + 1, fun fuel hfuel => ?_⟩
      obtain ⟨fuel, rfl⟩ : ∃ k, fuel = k + 1 := ⟨fuel - 1, by omega⟩
      simpa [Kconfig.climb, hparent, hnext] using hn fuel (by omega)

theorem visitedMenus_cons {x : Option MenuId} {ids : List MenuId}
    (hnext : ∃ n, ∀ fuel, n ≤ fuel → nextMenu m fuel a = some x)
    (hrest : ∃ n, ∀ fuel, n ≤ fuel → visitedMenus m fuel x = some ids) :
    ∃ n, ∀ fuel, n ≤ fuel → visitedMenus m fuel (some a) = some (a :: ids) := by
  rcases hnext with ⟨n₁, hn₁⟩
  rcases hrest with ⟨n₂, hn₂⟩
  refine ⟨n₁ + n₂ + 1, fun fuel hfuel => ?_⟩
  obtain ⟨fuel, rfl⟩ : ∃ k, fuel = k + 1 := ⟨fuel - 1, by omega⟩
  simp [visitedMenus, hn₁ fuel (by omega), hn₂ fuel (by omega)]

/-- The walk visits the entries of a forest in their order, and then what follows
the entry above them. -/
theorem visitedMenus_spec {x : Option MenuId} {ids : List MenuId}
    (hl : Linked m f (some p) first none) (hne : f ≠ .nil) (hfollows : Follows m p x)
    (hrest : ∃ n, ∀ fuel, n ≤ fuel → visitedMenus m fuel x = some ids) :
    ∃ n, ∀ fuel, n ≤ fuel → visitedMenus m fuel first = some (f.preorder ++ ids) := by
  induction f generalizing p first x ids with
  | nil => exact absurd rfl hne
  | node a c r ihc ihr =>
      rcases hl with ⟨rfl, hparent, hlc, hlr⟩
      -- behind `a` come its siblings, if it has any
      have hbehind : ∃ y, Follows m a y ∧
          ∃ n, ∀ fuel, n ≤ fuel → visitedMenus m fuel y = some (r.preorder ++ ids) := by
        by_cases hr : r = .nil
        · subst hr
          have hnext : m.next a = none := hlr
          refine ⟨x, ?_, hrest⟩
          unfold Follows
          rw [hnext]
          exact hfollows.climb hparent
        · refine ⟨m.next a, ?_, ihr hlr hr hfollows hrest⟩
          cases hnext : m.next a with
          | none => exact absurd ((hlr.first_eq_none_iff).mp hnext) hr
          | some next =>
              unfold Follows
              rw [hnext]
      rcases hbehind with ⟨y, hy, hvisit⟩
      rw [Forest.preorder_node, List.cons_append, List.append_assoc]
      by_cases hc : c = .nil
      · subst hc
        have hlist : m.list a = none := hlc
        refine visitedMenus_cons ?_ hvisit
        unfold Follows at hy
        cases hnext : m.next a with
        | some next =>
            rw [hnext] at hy
            exact ⟨0, fun fuel _ => by simp [nextMenu, hlist, hnext, hy]⟩
        | none =>
            rw [hnext] at hy
            rcases hy with ⟨n, hn⟩
            exact ⟨n, fun fuel hfuel => by simp [nextMenu, hlist, hnext, hn fuel hfuel]⟩
      · refine visitedMenus_cons ⟨0, fun fuel _ => ?_⟩ (ihc hlc hc hy hvisit)
        cases hlist : m.list a with
        | none => exact absurd ((hlc.first_eq_none_iff).mp hlist) hc
        | some list => simp [nextMenu, hlist]

/-- Whatever entries have been read, and whatever the dependency tests of
`menu_finalize` find: the loop of `create_package_list` comes to an end and visits
every entry below `rootmenu` exactly once, in the order in which they were read. -/
theorem visitedMenus_complete (mainmenu : Text) (actions : List Action) (tests : ℕ → Bool)
    (hnested : wellNested 0 actions) :
    ∃ st, parse (parserStart mainmenu) actions = some st ∧ ∃ n, ∀ fuel, n ≤ fuel →
      ∃ st', menuFinalize st.sym st.prompt tests fuel ⟨st.links, 0⟩ rootmenu = some st' ∧
        ∃ k ids, (∀ fuel, k ≤ fuel →
            visitedMenus st'.links fuel (st'.links.list rootmenu) = some ids) ∧
          ids = List.range' 1 st.allocated ∧
          ids.map st.sym = actions.filterMap Action.sym := by
  rcases parse_spec actions (parsed_start mainmenu) hnested with ⟨st, f, depth, hst, hparsed, hsyms⟩
  refine ⟨st, hst, f.preorder.length + 2, fun fuel hfuel => ?_⟩
  have hnodup : (Forest.node rootmenu f .nil).preorder.Nodup := by
    simpa using ⟨hparsed.root_not_mem, hparsed.nodup⟩
  have hsiblings : Linked st.links .nil none (st.links.next rootmenu) none := hparsed.root_next
  have hlen : f.preorder.length + (Forest.nil : Forest MenuId).preorder.length <
      f.preorder.length + 1 := by simp
  have hlinked : Linked (FinalizeState.links ⟨st.links, 0⟩) f (some rootmenu)
      (st.links.list rootmenu) none := hparsed.linked
  rcases menuFinalize_spec st.sym st.prompt tests fuel _ (by omega) hlinked hsiblings hnodup hlen
    with ⟨st', c, r, hst', hre⟩
  -- nothing follows `rootmenu`, and nothing is above it
  have hnext : st'.links.next rootmenu = none := hre.next hparsed.root_next
  have hparent : st'.links.parent rootmenu = none := hre.parent.trans hparsed.root_parent
  have hr : r = .nil := (hre.siblings.first_eq_none_iff).mp hnext
  subst hr
  have hpre : c.preorder = f.preorder := by simpa using hre.preorder
  have hend : Follows st'.links rootmenu none := by
    unfold Follows
    rw [hnext]
    refine ⟨1, fun fuel hfuel => ?_⟩
    obtain ⟨fuel, rfl⟩ : ∃ k, fuel = k + 1 := ⟨fuel - 1, by omega⟩
    simp [climb, hparent]
  have hdone : ∃ n, ∀ fuel, n ≤ fuel → visitedMenus st'.links fuel none = some [] := by
    refine ⟨1, fun fuel hfuel => ?_⟩
    obtain ⟨fuel, rfl⟩ : ∃ k, fuel = k + 1 := ⟨fuel - 1, by omega⟩
    rfl
  have hvisit : ∃ n, ∀ fuel, n ≤ fuel →
      visitedMenus st'.links fuel (st'.links.list rootmenu) = some f.preorder := by
    by_cases hc : c = .nil
    · subst hc
      have hlist : st'.links.list rootmenu = none := hre.children
      rw [hlist, ← hpre]
      exact hdone
    · rcases visitedMenus_spec hre.children hc hend hdone with ⟨n, hn⟩
      exact ⟨n, fun fuel hfuel => by rw [hn fuel hfuel, hpre, List.append_nil]⟩
  rcases hvisit with ⟨k, hk⟩
  exact ⟨st', hst', k, f.preorder, hk, hparsed.preorder, by simpa using hsyms⟩

/-- An option, two that depend on it and the entry of a choice without a prompt with
two values in it. -/
def sampleActions : List Action :=
  [.entry (some 1) (some (text "A")), .entry (some 2) (some (text "B")), .entry (some 3) none,
    .block none none, .entry (some 4) (some (text "C")), .entry (some 5) (some (text "D")),
    .endBlock, .entry (some 6) (some (text "E"))]

theorem visitedMenus_complete_sample :
    ∃ st, parse (parserStart (text "M")) sampleActions = some st ∧ ∃ n, ∀ fuel, n ≤ fuel →
      ∃ st', menuFinalize st.sym st.prompt (· ∈ [0, 2]) fuel ⟨st.links, 0⟩ rootmenu = some st' ∧
        ∃ k ids, (∀ fuel, k ≤ fuel →
            visitedMenus st'.links fuel (st'.links.list rootmenu) = some ids) ∧
          ids = List.range' 1 st.allocated ∧
          ids.map st.sym = sampleActions.filterMap Action.sym :=
  visitedMenus_complete (text "M") sampleActions (· ∈ [0, 2]) (by decide)

/-- The second and the third entry move below the first one, and the two values out
of the entry around them. -/
example : ((parse (parserStart (text "M")) sampleActions).bind fun st =>
    menuFinalize st.sym st.prompt (· ∈ [0, 2]) 20 ⟨st.links, 0⟩ rootmenu).map
      (fun st => ([1, 2, 3, 4, 5, 6, 7].map st.links.list, [1, 2, 3, 4, 5, 6, 7].map st.links.next,
        [1, 2, 3, 4, 5, 6, 7].map st.links.parent)) =
    some ([some 2, none, none, none, none, none, none],
      [some 4, some 3, none, some 5, some 6, some 7, none],
      [some 0, some 1, some 1, some 0, some 0, some 0, some 0]) := by decide

end Pbs.Kconfig
