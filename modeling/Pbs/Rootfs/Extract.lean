import Pbs.Lib.MakeText
import Pbs.Lib.Schedule

/-!
# The order in which packages are extracted

`scripts/Makefile.fs` extracts packages into the root file system. Their rules are
independent of each other; that one package is extracted after the other comes from
rules that `add-order-deps` generates. It is called with the list reversed, and makes
every word of it depend on the next one.
-/

namespace Pbs.Rootfs

open MakeSyntax MakeText Relation StableSort Schedules

/-! ## Makefile.fs -/

/-- `$(wordlist 2,$(words $(1)),$(1))` -/
def restwords (text : Text) : Text := wordlist 2 (words text).length text

@[simp] theorem words_restwords (text : Text) : words (restwords text) = (words text).tail :=
  words_wordlist_two text

theorem restwords_eq_nil {text : Text} : restwords text = [] ↔ (words text).tail = [] := by
  constructor
  · intro h
    rw [← words_restwords, h, words_nil]
  · intro h
    unfold restwords wordlist
    rw [List.take_length, List.drop_one, h]
    rfl

theorem length_restwords_lt {text : Text} (h : restwords text ≠ []) :
    (words (restwords text)).length < (words text).length := by
  rw [Ne, restwords_eq_nil] at h
  have := List.length_pos_iff.mpr h
  rw [words_restwords]
  rw [List.length_tail] at this ⊢
  omega

/-- `reverse` -/
def reverse (text : Text) : Text :=
  (if restwords text ≠ [] then reverse (restwords text) ++ [' '] else []) ++ firstword text
termination_by (words text).length
decreasing_by exact length_restwords_lt ‹_›

/-- `add-order-deps`: the text that is evaluated. -/
def addOrderDeps (text : Text) : Text :=
  firstword text ++ [':', ' '] ++ word 2 text ++ ['\n'] ++
    if restwords text ≠ [] then addOrderDeps (restwords text) else []
termination_by (words text).length
decreasing_by exact length_restwords_lt ‹_›

/-- The file name of a package. It has no characters with a meaning in make. -/
structure PackageFile where
  name : Text
  word : Word name
deriving DecidableEq

/-- `extract := $(addprefix extract-,$(filenames))` -/
def extract (filenames : Text) : Text :=
  addprefix ['e', 'x', 't', 'r', 'a', 'c', 't', '-'] filenames

/-- The rules that come from `$(eval $(call add-order-deps,$(call reverse,$(extract))))`. -/
def orderRules (env : Text → Text) (files : List PackageFile) : List Rule :=
  rules (parse env (addOrderDeps (reverse (extract (unwords (files.map PackageFile.name))))))

/-- One of the rules names the prerequisite for the target. -/
def OrderPrereq (env : Text → Text) (files : List PackageFile) (target prereq : Text) : Prop :=
  ∃ r ∈ orderRules env files, target ∈ r.targets ∧ prereq ∈ r.normal ++ r.orderOnly

/-- The target that extracts a package. -/
def PackageFile.target (f : PackageFile) : Text :=
  ['e', 'x', 't', 'r', 'a', 'c', 't', '-'] ++ f.name

/-! ## The two recursions -/

theorem words_firstword {text w : Text} {ws : List Text} (h : words text = w :: ws) :
    words (firstword text) = [w] := by
  rw [firstword, h]
  exact (isWord_of_mem_words (h ▸ List.mem_cons_self ..)).words_eq

theorem words_reverse (text : Text) : words (reverse text) = (words text).reverse := by
  induction hlength : (words text).length generalizing text with
  | zero =>
      have hnil : words text = [] := List.length_eq_zero_iff.mp hlength
      have hrest : restwords text = [] := restwords_eq_nil.mpr (by rw [hnil]; rfl)
      rw [reverse, if_neg (not_not_intro hrest), firstword, hnil]
      exact words_nil
  | succ n ih =>
      rcases List.exists_of_length_succ _ hlength with ⟨w, ws, hwords⟩
      have htail : words (restwords text) = ws := by rw [words_restwords, hwords, List.tail_cons]
      rw [reverse, hwords, List.reverse_cons]
      by_cases hrest : restwords text = []
      · have hws : ws = [] := by rw [← htail, hrest, words_nil]
        rw [if_neg (not_not_intro hrest), List.nil_append, words_firstword hwords, hws]
        rfl
      · have hcount : ws.length = n := by
          rw [hwords, List.length_cons] at hlength
          omega
        rw [if_pos hrest, List.append_assoc, List.singleton_append, words_append (by decide),
          ih _ (by rw [htail, hcount]), htail, words_firstword hwords]

/-- Every word depends on the next one. -/
def chainRules : List Text → List Item
  | [] => []
  | [w] => [.rule ⟨[w], [], []⟩]
  | w :: v :: ws => .rule ⟨[w], [v], []⟩ :: chainRules (v :: ws)

variable (env : Text → Text)

/-- A line of `add-order-deps`. -/
theorem reads_orderLine {w prereq : Text} (hw : Word w) (hprereq : Plain prereq) :
    Reads env (w ++ [':', ' '] ++ prereq ++ ['\n']) [.rule ⟨[w], words prereq, []⟩] := by
  have hline : IsLine (w ++ [':', ' '] ++ prereq ++ ['\n']) (w ++ ':' :: ' ' :: prereq) := by
    have hmem : ∀ c ∈ w ++ ':' :: ' ' :: prereq, c ≠ '\\' ∧ c ≠ '\n' ∧ c ≠ '\t' := by
      intro c hc
      have hplain : ∀ x, Plain x → c ∈ x → c ≠ '\\' ∧ c ≠ '\n' ∧ c ≠ '\t' := by
        intro x hx hcx
        refine ⟨?_, ?_, ?_⟩
        all_goals
          rintro rfl
          exact hx.not_mem (by decide) hcx
      rcases List.mem_append.mp hc with hc | hc
      · exact hplain w hw.plain hc
      · rcases List.mem_cons.mp hc with rfl | hc
        · decide
        · rcases List.mem_cons.mp hc with rfl | hc
          · decide
          · exact hplain prereq hprereq hc
    have hassoc : w ++ [':', ' '] ++ prereq ++ ['\n'] = (w ++ ':' :: ' ' :: prereq) ++ ['\n'] := by
      simp
    rw [hassoc]
    refine IsLine.of_not_mem (fun h => (hmem _ h).1 rfl) (fun h => (hmem _ h).2.1 rfl) ?_
    exact fun h => (hmem _ (List.mem_of_mem_head? (Option.mem_def.mpr h))).2.2 rfl
  refine hline.reads_item ?_
  have hcomment : '#' ∉ ' ' :: prereq := by
    rw [List.mem_cons, not_or]
    exact ⟨by decide, hprereq.not_mem (by decide)⟩
  rw [parseStatement_rule hw hcomment (Or.inr ⟨' ', prereq, rfl, by decide⟩),
    parseRule_normal hw, words_cons (by decide)]
  intro c hc
  rcases List.mem_cons.mp hc with rfl | hc
  · decide
  · refine ⟨?_, ?_, ?_⟩
    all_goals
      rintro rfl
      exact hprereq.not_mem (by decide) hc

theorem reads_addOrderDeps {text : Text} (hne : words text ≠ [])
    (hwords : ∀ w ∈ words text, Word w) :
    Reads env (addOrderDeps text) (chainRules (words text)) := by
  induction hlength : (words text).length generalizing text with
  | zero => exact absurd (List.length_eq_zero_iff.mp hlength) hne
  | succ n ih =>
      rcases List.exists_of_length_succ _ hlength with ⟨w, ws, hsplit⟩
      have hw : Word w := hwords w (hsplit ▸ List.mem_cons_self ..)
      have htail : words (restwords text) = ws := by rw [words_restwords, hsplit, List.tail_cons]
      have hfirst : firstword text = w := by rw [firstword, hsplit, List.headD_cons]
      have hsecond : word 2 text = ws.headD [] := by
        rw [word, hsplit]
        cases ws <;> rfl
      rw [addOrderDeps, hfirst, hsecond, hsplit]
      cases ws with
      | nil =>
          have hrest : restwords text = [] := by rw [restwords_eq_nil, hsplit, List.tail_cons]
          have hplain : Plain [] := by simp [Plain]
          have hline := reads_orderLine env hw hplain
          rw [words_nil] at hline
          rw [if_neg (not_not_intro hrest)]
          exact hline.append .nil
      | cons v ws =>
          have hv : Word v := hwords v (by rw [hsplit]; simp)
          have hrest : restwords text ≠ [] := by
            rw [Ne, restwords_eq_nil, hsplit]
            exact List.cons_ne_nil v ws
          have hline := reads_orderLine env hw hv.plain
          rw [hv.words_eq] at hline
          have htailWords : ∀ u ∈ words (restwords text), Word u := by
            intro u hu
            refine hwords u ?_
            rw [htail] at hu
            rw [hsplit]
            exact List.mem_cons_of_mem w hu
          have htailLength : (words (restwords text)).length = n := by
            rw [hsplit, List.length_cons] at hlength
            rw [htail]
            omega
          have hchain := ih (by simp [htail]) htailWords htailLength
          rw [htail] at hchain
          rw [if_pos hrest]
          exact hline.append hchain

/-! ## The order -/

theorem mem_chainRules {target prereq : Text} {ws : List Text} :
    (∃ r ∈ rules (chainRules ws), target ∈ r.targets ∧ prereq ∈ r.normal ++ r.orderOnly) ↔
      Next ws target prereq := by
  induction ws with
  | nil => simp [chainRules, rules, Next]
  | cons w ws ih =>
      cases ws with
      | nil => simp [chainRules, rules, Item.rule?, not_next_singleton]
      | cons v ws =>
          have hcons : rules (chainRules (w :: v :: ws)) =
              ⟨[w], [v], []⟩ :: rules (chainRules (v :: ws)) := rfl
          rw [hcons, next_cons_cons, ← ih]
          simp

theorem words_extract (files : List PackageFile) :
    words (extract (unwords (files.map PackageFile.name))) = files.map PackageFile.target := by
  have hwords : ∀ w ∈ files.map PackageFile.name, IsWord w := by
    intro w hw
    rcases List.mem_map.mp hw with ⟨f, _, rfl⟩
    exact ⟨fun c hc => (f.word.plain c hc).1, f.word.nonempty⟩
  rw [extract, words_addprefix (List.all_iff_forall_prop.mp (by decide)), words_unwords hwords,
    List.map_map]
  rfl

theorem PackageFile.target_injective : Function.Injective PackageFile.target := by
  intro f g h
  have hname : f.name = g.name := List.append_cancel_left h
  cases f
  cases g
  simp_all

/-- The prerequisite of a target is the one in front of it. -/
theorem orderPrereq_iff (files : List PackageFile) {target prereq : Text} :
    OrderPrereq env files target prereq ↔ Next (files.map PackageFile.target) prereq target := by
  have hwords := words_reverse (extract (unwords (files.map PackageFile.name)))
  rw [words_extract] at hwords
  by_cases hfiles : files = []
  · -- a line without a target
    subst hfiles
    have hparse : orderRules env [] = [⟨[], [], []⟩] := by
      have hempty : reverse (extract (unwords ([].map PackageFile.name))) = [] := by
        rw [reverse]
        rfl
      unfold orderRules
      rw [hempty, addOrderDeps]
      rfl
    rw [OrderPrereq, hparse]
    simp [Next]
  · have hword : ∀ w ∈ (files.map PackageFile.target).reverse, Word w := by
      intro w hw
      rcases List.mem_map.mp (List.mem_reverse.mp hw) with ⟨f, _, rfl⟩
      exact f.word.append_left (by decide)
    have hreads := reads_addOrderDeps env (by simp [hwords, hfiles]) (hwords ▸ hword)
    rw [OrderPrereq, orderRules, hreads.parse, hwords, mem_chainRules, next_reverse]

/-- The rules order the packages as they are listed: their transitive closure is that
order, and every schedule extracts one package after the other. -/
theorem extract_inOrder (env : Text → Text) {files : List PackageFile} (hnd : files.Nodup) :
    (∀ target prereq, TransGen (OrderPrereq env files) target prereq ↔
      ∃ f g, Precedes files g f ∧ target = f.target ∧ prereq = g.target) ∧
    ∀ {τ : Type} [Preorder τ] (s : Schedule Text τ), s.Respects (OrderPrereq env files) →
      ∀ f g, Precedes files f g → s.finish f.target ≤ s.start g.target := by
  have hclosure : ∀ target prereq, TransGen (OrderPrereq env files) target prereq ↔
      ∃ f g, Precedes files g f ∧ target = f.target ∧ prereq = g.target := by
    intro target prereq
    have hswap : OrderPrereq env files = Function.swap (Next (files.map PackageFile.target)) := by
      funext t p
      exact propext (orderPrereq_iff env files)
    rw [hswap, transGen_swap, transGen_next_iff (hnd.map PackageFile.target_injective)]
    rw [precedes_map_iff, exists_comm]
    exact exists_congr fun f => exists_congr fun g => and_congr_right fun _ => and_comm
  refine ⟨hclosure, fun s hs f g hfg => ?_⟩
  exact hs.transGen _ _ ((hclosure _ _).mpr ⟨g, f, hfg, rfl, rfl⟩)

/-- A library, a program, and the platform. -/
def threePackages : List PackageFile :=
  [⟨"libs/zlib.tar.bz2".toList, by decide⟩, ⟨"utils/file.tar.bz2".toList, by decide⟩,
    ⟨"platforms/x.tar.bz2".toList, by decide⟩]

theorem extract_inOrder_threePackages : TransGen (OrderPrereq id threePackages)
    "extract-platforms/x.tar.bz2".toList "extract-libs/zlib.tar.bz2".toList :=
  ((extract_inOrder id (by decide +kernel)).1 _ _).mpr
    ⟨threePackages[2], threePackages[0], by decide +kernel, by decide, by decide⟩

end Pbs.Rootfs
