import Mathlib.Data.List.DropRight
import Mathlib.Logic.Relation
import Pbs.Kconfig.Symbol
import Pbs.Lib.FileSystem

/-!
# The lock of a download

`cmd_wget` of `scripts/Makefile.package` runs `scripts/download`, and several calls
of make may do so for one destination. Every process writes its name to a file
of its own and takes the lock by linking this file to a common name.

The processes are shells that execute the commands of the script one at a time,
in any order among each other. A shell handles a signal between two commands: it
removes the trap, calls `on_exit`, and sends the signal to itself, so what has
been interrupted is never gone on with. A shell that is killed may leave the command
behind that it has started.
-/

namespace Pbs.Download

open Kconfig Files Relation

/-! ## Files -/

/-- The files next to the destination; `ours` belongs to the process of that name. -/
inductive Name where
  | lock
  | ours (locker : Text)
  | part
  | dst
deriving DecidableEq, Repr

/-- `$(hostname).$$`. -/
def locker (host : Text) (pid : ℕ) : Text := host ++ '.' :: Nat.toDigits 10 pid

/-- What `echo` writes. -/
def echo (line : Text) : Text := line ++ ['\n']

/-- `$(cat file 2> /dev/null)`. -/
def substitute (contents : Option Text) : Text :=
  (contents.getD []).rdropWhile (· = '\n')

/-- The files, and what each `wget` that ended with status 0 has fetched. -/
structure World where
  files : FileSystem Name Text
  results : List Text

/-! ## The script -/

inductive Signal where
  | int
  | quit
  | term
deriving DecidableEq, Repr

/-- What follows `on_exit`: the end of the script, or `kill -$sig $$`. -/
inductive After where
  | exit
  | kill (sig : Signal)
deriving DecidableEq, Repr

/-- The commands of the script. `fetch` is `wget` while it runs, with the file
that it has open and what it has fetched so far. -/
inductive Command where
  | trapExit
  | trapSignal (sig : Signal)
  | echoLocker
  | ln
  | warn
  | sleep
  | testDst
  | wget
  | fetch (file : ℕ) (received : Text)
  | testRet
  | mv
  | rmPart
  | exit
  | untrap (sig : Signal)
  | cat (after : After)
  | compare (after : After)
  | rmLock (after : After)
  | rmOurs (after : After)
  | kill (sig : Signal)
deriving DecidableEq, Repr

/-- The command after `on_exit`. -/
def After.next : After → Option Command
  | .exit => none
  | .kill sig => some (.kill sig)

/-- The commands that are processes of their own. -/
def Command.external : Command → Bool
  | .ln | .sleep | .wget | .fetch .. | .mv | .rmPart | .cat _ | .rmLock _ | .rmOurs _ => true
  | _ => false

def Command.isFetch : Command → Bool
  | .fetch .. => true
  | _ => false

/-- The traps and the variables of a shell. `locked` is not among them: it says
that the `ln` of the process has succeeded, and that it has not removed the lock
file since. -/
structure Shell where
  trapped : Signal → Bool
  exitTrap : Bool
  warned : Bool
  ret : ℕ
  locker : Text
  locked : Bool

/-- What a running `wget` does next. -/
inductive Fetch where
  | write (chunk : Text)
  | restart
  | done (status : ℕ)
deriving DecidableEq, Repr

/-- What the script has no say in: whether `ln`, `mv`, `rm` and the opening of a
file work, what `wget` does, and whether the shell calls the exit trap when a
signal ends it. -/
structure Outcome where
  works : Bool
  fetch : Fetch
  exitTrap : Bool

/-- A shell gets a signal. -/
def deliver (sig : Signal) (exitTrap : Bool) (sh : Shell) : Option Command × Shell :=
  if sh.trapped sig then (some (.untrap sig), sh)
  else if exitTrap && sh.exitTrap then (some (.cat .exit), { sh with exitTrap := false })
  else (none, sh)

/-- Write at a position up to the end. -/
def overwrite (contents : Text) (position : ℕ) (chunk : Text) : Text :=
  contents.take position ++ chunk ++ contents.drop (position + chunk.length)

/-- Execute a command: the next one, and what has become of the files and of the
shell. -/
def exec (me : Text) (o : Outcome) (w : World) (sh : Shell) :
    Command → Option Command × World × Shell
  | .trapExit => (some (.trapSignal .int), w, { sh with exitTrap := true })
  | .trapSignal sig =>
      let next := match sig with
        | .int => .trapSignal .quit
        | .quit => .trapSignal .term
        | .term => .echoLocker
      (some next, w, { sh with trapped := Function.update sh.trapped sig true })
  | .echoLocker =>
      (some .ln, { w with files := w.files.create (.ours me) (echo me) },
        { sh with warned := false })
  | .ln =>
      match w.files.link (.ours me) .lock, o.works with
      | some files, true => (some .testDst, { w with files }, { sh with locked := true })
      | _, _ => (some (if sh.warned then .sleep else .warn), w, sh)
  | .warn => (some .sleep, w, { sh with warned := true })
  | .sleep => (some .ln, w, sh)
  | .testDst => (some (if (w.files.inode .dst).isSome then .exit else .wget), w, sh)
  | .wget =>
      if o.works then
        (some (.fetch (w.files.slot .part) []), { w with files := w.files.create .part [] }, sh)
      -- it does not come to open the file
      else (some .testRet, w, { sh with ret := 1 })
  | .fetch file received =>
      match o.fetch with
      | .write chunk =>
          let contents := overwrite (w.files.data file) received.length chunk
          (some (.fetch file (received ++ chunk)),
            { w with files := w.files.write file contents }, sh)
      | .restart => (some (.fetch file []), { w with files := w.files.write file [] }, sh)
      | .done 0 =>
        (some .testRet, { w with results := received :: w.results }, { sh with ret := 0 })
      | .done status => (some .testRet, w, { sh with ret := status })
  | .testRet => (some (if sh.ret = 0 then .mv else .rmPart), w, sh)
  | .mv =>
      match w.files.rename .part .dst, o.works with
      | some files, true => (some .exit, { w with files }, sh)
      | _, _ => (some .exit, w, sh)
  | .rmPart =>
      (some .exit, if o.works then { w with files := w.files.unlink .part } else w, sh)
  | .exit =>
      if sh.exitTrap then (some (.cat .exit), w, { sh with exitTrap := false }) else (none, w, sh)
  | .untrap sig =>
      (some (.cat (.kill sig)), w, { sh with trapped := Function.update sh.trapped sig false })
  | .cat after => (some (.compare after), w, { sh with locker := substitute (w.files.read .lock) })
  | .compare after => (some (if sh.locker = me then .rmLock after else .rmOurs after), w, sh)
  | .rmLock after =>
      if o.works && (w.files.inode .lock).isSome then
        (some (.rmOurs after), { w with files := w.files.unlink .lock },
          { sh with locked := false })
      else (some (.rmOurs after), w, sh)
  | .rmOurs after =>
      (after.next, if o.works then { w with files := w.files.unlink (.ours me) } else w, sh)
  | .kill sig =>
      let (next, sh) := deliver sig o.exitTrap sh
      (next, w, sh)

/-! ## Processes -/

/-- A process: the command that comes next or runs, and the shell. If the shell
has been killed, the command is what it has left behind. -/
structure Process where
  control : Option Command
  alive : Bool
  shell : Shell

structure State (P : Type*) where
  world : World
  proc : P → Process

inductive Event where
  | command (o : Outcome)
  | signal (sig : Signal) (exitTrap : Bool)
  | sigkill (orphan : Bool)

variable {P : Type*}

def State.set [DecidableEq P] (s : State P) (p : P) (w : World) (proc : Process) : State P :=
  ⟨w, Function.update s.proc p proc⟩

/-- A process does something, or something happens to it. -/
def State.act [DecidableEq P] (identity : P → Text) (p : P) (event : Event) (s : State P) :
    Option (State P) :=
  let proc := s.proc p
  proc.control.bind fun c =>
    match event with
    | .command o =>
        let (next, w, shell) := exec (identity p) o s.world proc.shell c
        -- what a killed shell has left behind ends with its command
        let next := next.filter fun c => proc.alive || c.isFetch
        some (s.set p w { proc with control := next, shell })
    | .signal sig exitTrap =>
        if proc.alive && !c.isFetch then
          let (next, shell) := deliver sig exitTrap proc.shell
          some (s.set p s.world { proc with control := next, shell })
        else none
    | .sigkill orphan =>
        if proc.alive then
          let next := (some c).filter fun c => orphan && c.external
          some (s.set p s.world { proc with control := next, alive := false })
        else none

def Step [DecidableEq P] (identity : P → Text) (p : P) (s s' : State P) : Prop :=
  ∃ event, s.act identity p event = some s'

/-- Some processes do something, one after the other. -/
def Steps [DecidableEq P] (identity : P → Text) : State P → State P → Prop :=
  ReflTransGen fun s s' => ∃ p, Step identity p s s'

/-- Nothing has been set up. -/
def Shell.start : Shell where
  trapped _ := false
  exitTrap := false
  warned := false
  ret := 0
  locker := []
  locked := false

/-- All processes are at the start of the script. There is neither a lock nor the
destination, and none of the other files has two names. -/
structure Initial (s : State P) : Prop where
  start : ∀ p, s.proc p = ⟨some .trapExit, true, .start⟩
  no_lock : s.world.files.inode .lock = none
  no_dst : s.world.files.inode .dst = none
  apart : ∀ a b, a ≠ b → s.world.files.Apart a b

/-! ## The invariant -/

/-- What holds while a command comes next or runs. -/
def Holds (me : Text) (w : World) (sh : Shell) : Command → Prop
  | .trapExit | .trapSignal _ | .echoLocker => sh.locked = false
  | .ln | .warn | .sleep => sh.locked = false ∧ w.files.read (.ours me) = some (echo me)
  | .testDst | .rmPart | .rmLock _ => sh.locked = true
  | .wget => sh.locked = true ∧ w.files.inode .dst = none
  | .fetch file received => sh.locked = true ∧ w.files.inode .dst = none ∧
      w.files.inode .part = some file ∧ w.files.data file = received
  | .testRet => sh.locked = true ∧ w.files.inode .dst = none ∧
      (sh.ret = 0 → ∃ d ∈ w.results, w.files.read .part = some d)
  | .mv => sh.locked = true ∧ w.files.inode .dst = none ∧
      ∃ d ∈ w.results, w.files.read .part = some d
  | .compare _ => sh.locker = me → sh.locked = true
  | .exit | .untrap _ | .cat _ | .rmOurs _ | .kill _ => True

structure Inv (identity : P → Text) (s : State P) : Prop where
  control : ∀ p c, (s.proc p).control = some c →
    Holds (identity p) s.world (s.proc p).shell c
  /-- the lock file bears the name of the process that has it -/
  held : ∀ p, (s.proc p).shell.locked = true →
    s.world.files.read .lock = some (echo (identity p))
  holder : s.world.files.read .lock ≠ none → ∃ p, (s.proc p).shell.locked = true
  apart : ∀ a b, a ≠ b → a ≠ .lock → b ≠ .lock → s.world.files.Apart a b
  /-- the lock file has no other name but the file it was linked from -/
  apart_lock : ∀ a, a ≠ .lock → (∀ p, (s.proc p).shell.locked = true → a ≠ .ours (identity p)) →
    s.world.files.Apart a .lock
  result : ∀ d, s.world.files.read .dst = some d → d ∈ s.world.results

/-- What the process with the lock relies on. -/
structure Same (w w' : World) : Prop where
  dst : w'.files.inode .dst = w.files.inode .dst
  part : w'.files.inode .part = w.files.inode .part
  read : w'.files.read .part = w.files.read .part
  results : w.results ⊆ w'.results

theorem Same.refl (w : World) : Same w w := ⟨rfl, rfl, rfl, fun _ h => h⟩

/-- A process relies on its own file, and on more only while it has the lock. -/
theorem Holds.frame {me : Text} {w w' : World} {sh : Shell} {c : Command} (h : Holds me w sh c)
    (hours : w'.files.read (.ours me) = w.files.read (.ours me))
    (hsame : sh.locked = true → Same w w') : Holds me w' sh c := by
  cases c with
  | ln => exact ⟨h.1, hours.trans h.2⟩
  | warn => exact ⟨h.1, hours.trans h.2⟩
  | sleep => exact ⟨h.1, hours.trans h.2⟩
  | wget => exact ⟨h.1, (hsame h.1).dst.trans h.2⟩
  | fetch file received =>
      obtain ⟨hlocked, hdst, hpart, hdata⟩ := h
      have hsame := hsame hlocked
      have hpart' := hsame.part.trans hpart
      refine ⟨hlocked, hsame.dst.trans hdst, hpart', ?_⟩
      have hread := hsame.read
      rw [FileSystem.read_of_inode hpart, FileSystem.read_of_inode hpart', hdata] at hread
      exact Option.some.inj hread
  | testRet =>
      obtain ⟨hlocked, hdst, hpart⟩ := h
      have hsame := hsame hlocked
      refine ⟨hlocked, hsame.dst.trans hdst, fun hret => ?_⟩
      obtain ⟨d, hd, hread⟩ := hpart hret
      exact ⟨d, hsame.results hd, hsame.read.trans hread⟩
  | mv =>
      obtain ⟨hlocked, hdst, d, hd, hread⟩ := h
      have hsame := hsame hlocked
      exact ⟨hlocked, hsame.dst.trans hdst, d, hsame.results hd, hsame.read.trans hread⟩
  | _ => exact h

/-! ## Identities -/

/-- The names of the processes: all different, and read back as they are written. -/
structure Identities (identity : P → Text) : Prop where
  injective : Function.Injective identity
  ne_nil : ∀ p, identity p ≠ []
  substitute_echo : ∀ p, substitute (some (echo (identity p))) = identity p

theorem substitute_echo (host : Text) (pid : ℕ) :
    substitute (some (echo (locker host pid))) = locker host pid := by
  unfold substitute echo
  rw [Option.getD_some, List.rdropWhile_concat_pos _ _ _ (by simp), List.rdropWhile_eq_self_iff]
  intro hne hlast
  -- the last character is a digit
  have hdigits : Nat.toDigits 10 pid ≠ [] := Nat.toDigits_ne_nil
  have heq : (locker host pid).getLast hne = (Nat.toDigits 10 pid).getLast hdigits := by
    simp [locker, List.getLast_cons hdigits]
  have hdigit := Nat.isDigit_of_mem_toDigits (by omega) (by omega) (List.getLast_mem hdigits)
  rw [heq, decide_eq_true_eq] at hlast
  rw [hlast] at hdigit
  cases hdigit

theorem identities_locker {host : P → Text} {pid : P → ℕ}
    (h : Function.Injective fun p => locker (host p) (pid p)) :
    Identities fun p => locker (host p) (pid p) where
  injective := h
  ne_nil p := by simp [locker]
  substitute_echo p := substitute_echo (host p) (pid p)

/-! ## Steps -/

section Steps

variable {identity : P → Text} (hid : Identities identity) {s : State P} {p : P}

theorem Inv.initial (h : Initial s) : Inv identity s where
  control p c hc := by
    rw [h.start p] at hc ⊢
    cases hc
    rfl
  held p hlocked := by
    rw [h.start p] at hlocked
    cases hlocked
  holder hlock := absurd (FileSystem.read_eq_none.mpr h.no_lock) hlock
  apart a b hab _ _ := h.apart a b hab
  apart_lock a ha _ := h.apart a .lock ha
  result d hd := by
    rw [FileSystem.read_eq_none.mpr h.no_dst] at hd
    cases hd

include hid in
theorem Inv.owner_unique (h : Inv identity s) {q : P} (hp : (s.proc p).shell.locked = true)
    (hq : s.world.files.read .lock = some (echo (identity q))) : p = q := by
  have heq := (h.held p hp).symm.trans hq
  rw [Option.some.injEq, echo, echo, List.append_cancel_right_eq] at heq
  exact hid.injective heq

include hid in
/-- Only one process has the lock. -/
theorem Inv.locked_unique (h : Inv identity s) {q : P} (hp : (s.proc p).shell.locked = true)
    (hq : (s.proc q).shell.locked = true) : p = q :=
  h.owner_unique hid hp (h.held q hq)

include hid in
/-- The process whose name is in the lock file has the lock. -/
theorem Inv.locked_of_read (h : Inv identity s)
    (hread : substitute (s.world.files.read .lock) = identity p) :
    (s.proc p).shell.locked = true := by
  by_cases hnone : s.world.files.read .lock = none
  · rw [hnone] at hread
    exact absurd hread.symm (hid.ne_nil p)
  · obtain ⟨q, hq⟩ := h.holder hnone
    rw [h.held q hq, hid.substitute_echo] at hread
    exact hid.injective hread ▸ hq

theorem Inv.apart_part (h : Inv identity s) {a : Name} (ha : a ≠ .part) :
    s.world.files.Apart .part a := by
  by_cases hlock : a = .lock
  · subst hlock
    exact h.apart_lock .part (by simp) fun _ _ => by simp
  · exact h.apart .part a ha.symm (by simp) hlock

include hid in
theorem ours_ne {q : P} (hq : q ≠ p) :
    Name.ours (identity q) ≠ .ours (identity p) := by
  intro heq
  exact hq (hid.injective (Name.ours.inj heq))

variable [DecidableEq P]

@[simp] theorem State.set_world (w : World) (proc : Process) : (s.set p w proc).world = w := rfl

@[simp] theorem State.set_proc (w : World) (proc : Process) : (s.set p w proc).proc p = proc :=
  Function.update_self ..

theorem State.set_proc_of_ne {q : P} (hq : q ≠ p) (w : World) (proc : Process) :
    (s.set p w proc).proc q = s.proc q :=
  Function.update_of_ne hq ..

/-- After a step that leaves this world and this shell, the invariant holds, with
the next command or with none. -/
def Preserved (identity : P → Text) (s : State P) (p : P)
    (result : Option Command × World × Shell) : Prop :=
  ∀ (control : Option Command) (alive : Bool), (∀ c, control = some c → result.1 = some c) →
    Inv identity (s.set p result.2.1 ⟨control, alive, result.2.2⟩)

variable {w : World} {sh : Shell} {next : Option Command}

include hid in
/-- A step that neither takes nor releases the lock. -/
theorem Inv.change (h : Inv identity s) (hlocked : sh.locked = (s.proc p).shell.locked)
    (hnext : ∀ c, next = some c → Holds (identity p) w sh c)
    (hours : ∀ q ≠ p, w.files.read (.ours (identity q)) =
      s.world.files.read (.ours (identity q)))
    (hsame : (s.proc p).shell.locked = false → Same s.world w)
    (hlock : w.files.read .lock = s.world.files.read .lock)
    (hapart : ∀ a b, a ≠ b → a ≠ .lock → b ≠ .lock → w.files.Apart a b)
    (hapart_lock : ∀ a, a ≠ .lock → s.world.files.Apart a .lock → w.files.Apart a .lock)
    (hresult : ∀ d, w.files.read .dst = some d → d ∈ w.results) :
    Preserved identity s p (next, w, sh) := by
  intro control alive hcontrol
  have hshell : ∀ q, ((s.set p w ⟨control, alive, sh⟩).proc q).shell.locked =
      (s.proc q).shell.locked := by
    intro q
    by_cases hq : q = p
    · subst hq
      rw [State.set_proc, hlocked]
    · rw [State.set_proc_of_ne hq]
  refine ⟨fun q c hc => ?_, fun q hq => ?_, fun hlock' => ?_, hapart, fun a ha hnot => ?_, hresult⟩
  · by_cases hq : q = p
    · subst hq
      rw [State.set_proc] at hc ⊢
      exact hnext c (hcontrol c hc)
    · rw [State.set_proc_of_ne hq] at hc ⊢
      -- if `q` relies on more than its own file, `p` has not got the lock
      refine (h.control q c hc).frame (hours q hq) fun hqlocked => hsame ?_
      rw [Bool.eq_false_iff]
      intro hplocked
      exact hq (h.locked_unique hid hqlocked hplocked)
  · rw [hshell] at hq
    exact hlock.trans (h.held q hq)
  · rw [State.set_world, hlock] at hlock'
    obtain ⟨q, hq⟩ := h.holder hlock'
    exact ⟨q, (hshell q).trans hq⟩
  · refine hapart_lock a ha (h.apart_lock a ha fun q hq => hnot q ?_)
    rw [hshell, hq]

include hid in
/-- A step that leaves the files alone. -/
theorem Inv.quiet (h : Inv identity s) (hlocked : sh.locked = (s.proc p).shell.locked)
    (hnext : ∀ c, next = some c → Holds (identity p) s.world sh c) :
    Preserved identity s p (next, s.world, sh) :=
  h.change hid hlocked hnext (fun _ _ => rfl) (fun _ => Same.refl _) rfl h.apart
    (fun _ _ => id) h.result

include hid in
theorem Inv.echoLocker (h : Inv identity s) (hlocked : (s.proc p).shell.locked = false)
    (hsh : sh.locked = false) :
    Preserved identity s p (some .ln,
      { s.world with files := s.world.files.create (.ours (identity p)) (echo (identity p)) },
      sh) := by
  have hapart : ∀ a, a ≠ .lock → a ≠ .ours (identity p) →
      s.world.files.Apart (.ours (identity p)) a :=
    fun a ha hne => h.apart _ a hne.symm (by simp) ha
  -- the lock file may be the file of a process that has the lock, but not of `p`
  have hapart_lock : s.world.files.Apart (.ours (identity p)) .lock := by
    refine h.apart_lock _ (by simp) fun q hq heq => ?_
    have hpq := hid.injective (Name.ours.inj heq)
    rw [← hpq, hlocked] at hq
    cases hq
  have hread : ∀ a, a ≠ .ours (identity p) → (s.world.files.create (.ours (identity p))
      (echo (identity p))).read a = s.world.files.read a := by
    intro a ha
    by_cases hlock : a = .lock
    · subst hlock
      exact FileSystem.read_create_of_apart ha hapart_lock
    · exact FileSystem.read_create_of_apart ha (hapart a hlock ha)
  refine h.change hid (hsh.trans hlocked.symm) ?_ (fun q hq => hread _ (ours_ne hid hq))
    (fun _ => ?_) (hread _ (by simp)) (fun a b hab ha hb => (h.apart a b hab ha hb).create hab)
    (fun a ha hlock => hlock.create ha) (fun d hd => ?_)
  · rintro c ⟨⟩
    exact ⟨hsh, FileSystem.read_create⟩
  · exact ⟨FileSystem.inode_create_of_ne (by simp), FileSystem.inode_create_of_ne (by simp),
      hread _ (by simp), fun _ => id⟩
  · exact h.result d ((hread .dst (by simp)).symm.trans hd)

theorem Inv.ln (h : Inv identity s) {files : Files.FileSystem Name Text}
    (hours : s.world.files.read (.ours (identity p)) = some (echo (identity p)))
    (hlink : s.world.files.link (.ours (identity p)) .lock = some files)
    (hsh : sh.locked = true) :
    Preserved identity s p (some .testDst, { s.world with files }, sh) := by
  obtain ⟨⟨_, hfree⟩, rfl⟩ := FileSystem.link_eq_some.mp hlink
  -- as the lock file is new, no process has had the lock
  have hidle : ∀ q, (s.proc q).shell.locked ≠ true := by
    intro q hq
    have hlock := h.held q hq
    rw [FileSystem.read_eq_none.mpr hfree] at hlock
    cases hlock
  intro control alive hcontrol
  refine ⟨fun q c hc => ?_, fun q hq => ?_, fun _ => ⟨p, ?_⟩, fun a b hab ha hb => ?_,
    fun a ha hnot => ?_, fun d hd => ?_⟩
  · by_cases hq : q = p
    · subst hq
      rw [State.set_proc] at hc ⊢
      cases hcontrol c hc
      exact hsh
    · rw [State.set_proc_of_ne hq] at hc ⊢
      exact (h.control q c hc).frame (FileSystem.read_setLink_of_ne (by simp))
        fun hlocked => absurd hlocked (hidle q)
  · by_cases hqp : q = p
    · -- the lock file is the file of `p`
      subst hqp
      exact FileSystem.read_setLink.trans hours
    · rw [State.set_proc_of_ne hqp] at hq
      exact absurd hq (hidle q)
  · rw [State.set_proc]
    exact hsh
  · exact FileSystem.apart_setLink hab (fun _ _ => h.apart a b hab ha hb)
      (fun heq => absurd heq ha) (fun heq => absurd heq hb)
  · refine FileSystem.apart_setLink ha (fun _ hne => absurd rfl hne) (fun heq => absurd heq ha)
      fun _ => h.apart a _ (hnot p ?_) ha (by simp)
    rw [State.set_proc]
    exact hsh
  · exact h.result d ((FileSystem.read_setLink_of_ne (by simp)).symm.trans hd)

include hid in
theorem Inv.wget (h : Inv identity s) (hlocked : (s.proc p).shell.locked = true)
    (hdst : s.world.files.inode .dst = none) :
    Preserved identity s p (some (.fetch (s.world.files.slot .part) []),
      { s.world with files := s.world.files.create .part [] }, (s.proc p).shell) := by
  have hread : ∀ a, a ≠ .part →
      (s.world.files.create .part []).read a = s.world.files.read a :=
    fun a ha => FileSystem.read_create_of_apart ha (h.apart_part ha)
  refine h.change hid rfl ?_ (fun q _ => hread _ (by simp)) (fun hfree => ?_) (hread _ (by simp))
    (fun a b hab ha hb => (h.apart a b hab ha hb).create hab) (fun a ha hlock => hlock.create ha)
    (fun d hd => h.result d ((hread .dst (by simp)).symm.trans hd))
  · rintro c ⟨⟩
    exact ⟨hlocked, (FileSystem.inode_create_of_ne (by simp)).trans hdst,
      FileSystem.inode_create .., FileSystem.data_create⟩
  · simp [hlocked] at hfree

include hid in
/-- While `wget` has the partial file open, nobody else has it. -/
theorem Inv.write (h : Inv identity s) (hlocked : (s.proc p).shell.locked = true)
    (hdst : s.world.files.inode .dst = none) {file : ℕ}
    (hpart : s.world.files.inode .part = some file) (contents : Text) :
    Preserved identity s p (some (.fetch file contents),
      { s.world with files := s.world.files.write file contents }, (s.proc p).shell) := by
  have hread : ∀ a, a ≠ .part →
      (s.world.files.write file contents).read a = s.world.files.read a :=
    fun a ha => FileSystem.read_write_of_ne (h.apart_part ha file hpart)
  refine h.change hid rfl ?_ (fun q _ => hread _ (by simp)) (fun hfree => ?_) (hread _ (by simp))
    h.apart (fun _ _ => id) (fun d hd => h.result d ((hread .dst (by simp)).symm.trans hd))
  · rintro c ⟨⟩
    exact ⟨hlocked, hdst, hpart, FileSystem.data_write⟩
  · simp [hlocked] at hfree

include hid in
theorem Inv.done (h : Inv identity s) (hlocked : (s.proc p).shell.locked = true)
    (hdst : s.world.files.inode .dst = none) {file : ℕ}
    (hpart : s.world.files.inode .part = some file) :
    Preserved identity s p (some .testRet,
      { s.world with results := s.world.files.data file :: s.world.results },
      { (s.proc p).shell with ret := 0 }) := by
  refine h.change hid rfl ?_ (fun _ _ => rfl) (fun hfree => ?_) rfl h.apart (fun _ _ => id)
    (fun d hd => List.mem_cons_of_mem _ (h.result d hd))
  · rintro c ⟨⟩
    exact ⟨hlocked, hdst, fun _ =>
      ⟨_, List.mem_cons_self, FileSystem.read_of_inode hpart⟩⟩
  · simp [hlocked] at hfree

include hid in
theorem Inv.mv (h : Inv identity s) (hlocked : (s.proc p).shell.locked = true) {d : Text}
    (hd : d ∈ s.world.results) (hpart : s.world.files.read .part = some d)
    {files : Files.FileSystem Name Text}
    (hrename : s.world.files.rename .part .dst = some files) :
    Preserved identity s p (some .exit, { s.world with files }, (s.proc p).shell) := by
  obtain ⟨_, rfl⟩ := FileSystem.rename_eq_some.mp hrename
  have hread : ∀ a, a ≠ .part → a ≠ .dst →
      ((s.world.files.setLink .part .dst).unlink .part).read a = s.world.files.read a :=
    fun a ha ha' => (FileSystem.read_unlink_of_ne ha).trans (FileSystem.read_setLink_of_ne ha')
  -- the destination takes the place of the partial file
  have hapart : ∀ a b, a ≠ b → (a ≠ .dst → b ≠ .dst → s.world.files.Apart a b) →
      ((s.world.files.setLink .part .dst).unlink .part).Apart a b := by
    intro a b hab hold
    by_cases ha : a = .part
    · subst ha
      exact FileSystem.apart_of_none (FileSystem.inode_unlink ..)
    by_cases hb : b = .part
    · subst hb
      exact (FileSystem.apart_of_none (FileSystem.inode_unlink ..)).symm
    exact (FileSystem.apart_setLink hab hold (fun _ => h.apart_part hb)
      (fun _ => (h.apart_part ha).symm)).unlink
  refine h.change hid rfl ?_ (fun q _ => hread _ (by simp) (by simp)) (fun hfree => ?_)
    (hread _ (by simp) (by simp))
    (fun a b hab ha hb => hapart a b hab fun _ _ => h.apart a b hab ha hb)
    (fun a ha hlock => hapart a .lock ha fun _ _ => hlock) (fun d' hd' => ?_)
  · rintro c ⟨⟩
    trivial
  · simp [hlocked] at hfree
  · have hdst : ((s.world.files.setLink .part .dst).unlink .part).read .dst = some d :=
      ((FileSystem.read_unlink_of_ne (by simp)).trans FileSystem.read_setLink).trans hpart
    rw [hdst, Option.some.injEq] at hd'
    exact hd' ▸ hd

include hid in
/-- Removing the partial file, with the lock, or the own file. -/
theorem Inv.rm (h : Inv identity s) {n : Name}
    (hn : n = .part ∧ (s.proc p).shell.locked = true ∨ n = .ours (identity p))
    (hnext : ∀ c, next = some c →
      Holds (identity p) { s.world with files := s.world.files.unlink n } (s.proc p).shell c) :
    Preserved identity s p (next, { s.world with files := s.world.files.unlink n },
      (s.proc p).shell) := by
  have hlock : Name.lock ≠ n := by
    rcases hn with ⟨rfl, _⟩ | rfl <;> simp
  have hdst : Name.dst ≠ n := by
    rcases hn with ⟨rfl, _⟩ | rfl <;> simp
  refine h.change hid rfl hnext (fun q hq => FileSystem.read_unlink_of_ne ?_) (fun hfree => ?_)
    (FileSystem.read_unlink_of_ne hlock) (fun a b hab ha hb => (h.apart a b hab ha hb).unlink)
    (fun a _ hapart => hapart.unlink)
    (fun d hd => h.result d ((FileSystem.read_unlink_of_ne hdst).symm.trans hd))
  · rcases hn with ⟨rfl, _⟩ | rfl
    · simp
    · exact ours_ne hid hq
  · have hpart : Name.part ≠ n := by
      rcases hn with ⟨_, hlocked⟩ | rfl
      · simp [hlocked] at hfree
      · simp
    exact ⟨FileSystem.inode_unlink_of_ne hdst, FileSystem.inode_unlink_of_ne hpart,
      FileSystem.read_unlink_of_ne hpart, fun _ => id⟩

include hid in
theorem Inv.rmLock (h : Inv identity s) (hlocked : (s.proc p).shell.locked = true)
    (hsh : sh.locked = false) (after : After) :
    Preserved identity s p (some (.rmOurs after),
      { s.world with files := s.world.files.unlink .lock }, sh) := by
  -- `p` had the lock, so nobody else has it afterwards
  have hidle : ∀ q, q ≠ p → (s.proc q).shell.locked ≠ true :=
    fun q hq hlocked' => hq (h.locked_unique hid hlocked' hlocked)
  intro control alive hcontrol
  have hnone : ∀ q, ((s.set p { s.world with files := s.world.files.unlink .lock }
      ⟨control, alive, sh⟩).proc q).shell.locked ≠ true := by
    intro q
    by_cases hq : q = p
    · subst hq
      rw [State.set_proc]
      simp [hsh]
    · rw [State.set_proc_of_ne hq]
      exact hidle q hq
  refine ⟨fun q c hc => ?_, fun q hq => absurd hq (hnone q), fun hlock => ?_,
    fun a b hab ha hb => (h.apart a b hab ha hb).unlink, fun a _ _ => ?_, fun d hd => ?_⟩
  · by_cases hq : q = p
    · subst hq
      rw [State.set_proc] at hc ⊢
      cases hcontrol c hc
      trivial
    · rw [State.set_proc_of_ne hq] at hc ⊢
      exact (h.control q c hc).frame (FileSystem.read_unlink_of_ne (by simp))
        fun hlocked' => absurd hlocked' (hidle q hq)
  · exact absurd FileSystem.read_unlink hlock
  · exact (FileSystem.apart_of_none (FileSystem.inode_unlink ..)).symm
  · exact h.result d ((FileSystem.read_unlink_of_ne (by simp)).symm.trans hd)

/-! ## The script -/

theorem overwrite_end (contents chunk : Text) :
    overwrite contents contents.length chunk = contents ++ chunk := by
  simp [overwrite]

theorem holds_of_deliver {me : Text} {sig : Signal} {exitTrap : Bool} {c : Command}
    (h : (deliver sig exitTrap sh).1 = some c) : Holds me w (deliver sig exitTrap sh).2 c := by
  unfold deliver at h ⊢
  split at h
  · cases h
    trivial
  · split at h
    · cases h
      trivial
    · cases h

theorem locked_deliver (sig : Signal) (exitTrap : Bool) (sh : Shell) :
    (deliver sig exitTrap sh).2.locked = sh.locked := by
  unfold deliver
  split
  · rfl
  · split <;> rfl

include hid in
theorem exec_preserved (h : Inv identity s) {c : Command} (hc : (s.proc p).control = some c)
    (o : Outcome) :
    Preserved identity s p (exec (identity p) o s.world (s.proc p).shell c) := by
  have hholds := h.control p c hc
  cases c with
  -- before it has the lock, a process writes nothing but the file with its own name
  | trapExit => exact h.quiet hid rfl (by rintro _ ⟨⟩; exact hholds)
  | trapSignal sig =>
      refine h.quiet hid rfl ?_
      rintro _ ⟨⟩
      cases sig <;> exact hholds
  | echoLocker => exact h.echoLocker hid hholds hholds
  | ln =>
      simp only [exec]
      split
      · rename_i files _ hlink _
        exact h.ln hholds.2 hlink rfl
      · refine h.quiet hid rfl ?_
        rintro _ ⟨⟩
        split <;> exact hholds
  | warn => exact h.quiet hid rfl (by rintro _ ⟨⟩; exact hholds)
  | sleep => exact h.quiet hid rfl (by rintro _ ⟨⟩; exact hholds)
  | testDst =>
      refine h.quiet hid rfl ?_
      rintro _ ⟨⟩
      split
      · trivial
      · rename_i hdst
        exact ⟨hholds, Option.not_isSome_iff_eq_none.mp hdst⟩
  | wget =>
      simp only [exec]
      split
      · exact h.wget hid hholds.1 hholds.2
      · refine h.quiet hid rfl ?_
        rintro _ ⟨⟩
        exact ⟨hholds.1, hholds.2, fun hret => absurd hret Nat.one_ne_zero⟩
  | fetch file received =>
      obtain ⟨hlocked, hdst, hpart, hdata⟩ := hholds
      simp only [exec]
      split
      · rename_i chunk _
        -- the part is what has been received so far, so the chunk goes to its end
        rw [hdata, overwrite_end]
        exact h.write hid hlocked hdst hpart _
      · exact h.write hid hlocked hdst hpart _
      · rw [← hdata]
        exact h.done hid hlocked hdst hpart
      · rename_i status hne _
        refine h.quiet hid rfl ?_
        rintro _ ⟨⟩
        exact ⟨hlocked, hdst, fun hret => absurd hret hne⟩
  | testRet =>
      refine h.quiet hid rfl ?_
      rintro _ ⟨⟩
      split
      · rename_i hret
        exact ⟨hholds.1, hholds.2.1, hholds.2.2 hret⟩
      · exact hholds.1
  | mv =>
      obtain ⟨hlocked, _, d, hd, hread⟩ := hholds
      simp only [exec]
      split
      · rename_i files _ hrename _
        exact h.mv hid hlocked hd hread hrename
      · exact h.quiet hid rfl (by rintro _ ⟨⟩; trivial)
  | rmPart =>
      simp only [exec]
      split
      · exact h.rm hid (Or.inl ⟨rfl, hholds⟩) (by rintro _ ⟨⟩; trivial)
      · exact h.quiet hid rfl (by rintro _ ⟨⟩; trivial)
  | exit =>
      simp only [exec]
      split
      · exact h.quiet hid rfl (by rintro _ ⟨⟩; trivial)
      · exact h.quiet hid rfl (by rintro _ ⟨⟩)
  | untrap sig => exact h.quiet hid rfl (by rintro _ ⟨⟩; trivial)
  | cat after =>
      refine h.quiet hid rfl ?_
      rintro _ ⟨⟩
      exact h.locked_of_read hid
  | compare after =>
      refine h.quiet hid rfl ?_
      rintro _ ⟨⟩
      split
      · rename_i heq
        exact hholds heq
      · trivial
  | rmLock after =>
      simp only [exec]
      split
      · exact h.rmLock hid hholds rfl after
      · exact h.quiet hid rfl (by rintro _ ⟨⟩; trivial)
  | rmOurs after =>
      -- behind the handler there is nothing but a signal, which may be sent at any time
      have hnext : ∀ w sh c, after.next = some c → Holds (identity p) w sh c := by
        intro w sh c hc
        cases after with
        | exit => cases hc
        | kill sig =>
            cases hc
            trivial
      simp only [exec]
      split
      · exact h.rm hid (Or.inr rfl) (hnext _ _)
      · exact h.quiet hid rfl (hnext _ _)
  | kill sig => exact h.quiet hid (locked_deliver ..) fun _ => holds_of_deliver

include hid in
theorem Inv.step (h : Inv identity s) {s' : State P} (hstep : Step identity p s s') :
    Inv identity s' := by
  obtain ⟨event, hact⟩ := hstep
  unfold State.act at hact
  obtain ⟨c, hc, hact⟩ := Option.bind_eq_some_iff.mp hact
  cases event with
  | command o =>
      cases hact
      exact exec_preserved hid h hc o _ _ fun c' hc' => (Option.filter_eq_some_iff.mp hc').1
  | signal sig exitTrap =>
      simp only [Option.ite_none_right_eq_some, Option.some.injEq] at hact
      obtain ⟨_, rfl⟩ := hact
      exact h.quiet hid (locked_deliver sig exitTrap _) (fun _ => holds_of_deliver) _ _ fun _ => id
  | sigkill orphan =>
      simp only [Option.ite_none_right_eq_some, Option.some.injEq] at hact
      obtain ⟨_, rfl⟩ := hact
      have hsame : Preserved identity s p (some c, s.world, (s.proc p).shell) := by
        refine h.quiet hid rfl ?_
        rintro _ ⟨⟩
        exact h.control p c hc
      exact hsame _ _ fun c' hc' => (Option.filter_eq_some_iff.mp hc').1

include hid in
theorem Inv.steps {s' : State P} (h : Inv identity s) (hsteps : Steps identity s s') :
    Inv identity s' := by
  induction hsteps with
  | refl => exact h
  | tail _ hstep ih =>
      obtain ⟨p, hstep⟩ := hstep
      exact ih.step hid hstep

/-! ## What the lock is good for -/

theorem proc_of_step {s' : State P} (hstep : Step identity p s s') {q : P} (hq : q ≠ p) :
    s'.proc q = s.proc q := by
  obtain ⟨event, hact⟩ := hstep
  obtain ⟨c, _, hact⟩ := Option.bind_eq_some_iff.mp hact
  cases event with
  | command o =>
      cases hact
      exact State.set_proc_of_ne hq ..
  | signal sig exitTrap =>
      simp only [Option.ite_none_right_eq_some, Option.some.injEq] at hact
      obtain ⟨_, rfl⟩ := hact
      exact State.set_proc_of_ne hq ..
  | sigkill orphan =>
      simp only [Option.ite_none_right_eq_some, Option.some.injEq] at hact
      obtain ⟨_, rfl⟩ := hact
      exact State.set_proc_of_ne hq ..

include hid in
/-- Only the process that has the lock can make the lock file go away. -/
theorem Inv.read_of_removed (h : Inv identity s) {s' : State P} (hstep : Step identity p s s')
    (hlock : s.world.files.inode .lock ≠ none) (hlock' : s'.world.files.inode .lock = none) :
    s.world.files.read .lock = some (echo (identity p)) := by
  obtain ⟨q, hq⟩ := h.holder fun hnone => hlock (FileSystem.read_eq_none.mp hnone)
  by_cases hqp : q = p
  · subst hqp
    exact h.held q hq
  · -- it would still have the lock
    have hheld := (h.step hid hstep).held q (by rw [proc_of_step hstep hqp, hq])
    rw [FileSystem.read_eq_none.mpr hlock'] at hheld
    cases hheld

/-- The destination is still the same file, and unchanged. -/
def Kept (w w' : World) : Prop :=
  w'.files.inode .dst = w.files.inode .dst ∧ w'.files.read .dst = w.files.read .dst

omit [DecidableEq P] in
theorem exec_kept (h : Inv identity s) {c : Command} (hc : (s.proc p).control = some c)
    (o : Outcome) (hdst : s.world.files.inode .dst ≠ none) :
    Kept s.world (exec (identity p) o s.world (s.proc p).shell c).2.1 := by
  have hholds := h.control p c hc
  cases c with
  -- whoever fetches has seen that the file is not there
  | wget => exact absurd hholds.2 hdst
  | fetch file received => exact absurd hholds.2.1 hdst
  | mv => exact absurd hholds.2.1 hdst
  | echoLocker =>
      exact ⟨FileSystem.inode_create_of_ne (by simp), FileSystem.read_create_of_apart (by simp)
        (h.apart _ _ (by simp) (by simp) (by simp))⟩
  | ln =>
      simp only [exec]
      split
      · rename_i files _ hlink _
        obtain ⟨_, rfl⟩ := FileSystem.link_eq_some.mp hlink
        exact ⟨FileSystem.inode_setLink_of_ne (by simp), FileSystem.read_setLink_of_ne (by simp)⟩
      · exact ⟨rfl, rfl⟩
  | rmPart =>
      simp only [exec]
      split
      · exact ⟨FileSystem.inode_unlink_of_ne (by simp), FileSystem.read_unlink_of_ne (by simp)⟩
      · exact ⟨rfl, rfl⟩
  | rmLock after =>
      simp only [exec]
      split
      · exact ⟨FileSystem.inode_unlink_of_ne (by simp), FileSystem.read_unlink_of_ne (by simp)⟩
      · exact ⟨rfl, rfl⟩
  | rmOurs after =>
      simp only [exec]
      split
      · exact ⟨FileSystem.inode_unlink_of_ne (by simp), FileSystem.read_unlink_of_ne (by simp)⟩
      · exact ⟨rfl, rfl⟩
  | exit =>
      simp only [exec]
      split <;> exact ⟨rfl, rfl⟩
  | _ => exact ⟨rfl, rfl⟩

theorem Inv.kept_step (h : Inv identity s) {s' : State P} (hstep : Step identity p s s')
    (hdst : s.world.files.inode .dst ≠ none) : Kept s.world s'.world := by
  obtain ⟨event, hact⟩ := hstep
  obtain ⟨c, hc, hact⟩ := Option.bind_eq_some_iff.mp hact
  cases event with
  | command o =>
      cases hact
      exact exec_kept h hc o hdst
  | signal sig exitTrap =>
      simp only [Option.ite_none_right_eq_some, Option.some.injEq] at hact
      obtain ⟨_, rfl⟩ := hact
      exact ⟨rfl, rfl⟩
  | sigkill orphan =>
      simp only [Option.ite_none_right_eq_some, Option.some.injEq] at hact
      obtain ⟨_, rfl⟩ := hact
      exact ⟨rfl, rfl⟩

include hid in
theorem Inv.kept (h : Inv identity s) {s' : State P} (hsteps : Steps identity s s')
    (hdst : s.world.files.inode .dst ≠ none) : Kept s.world s'.world := by
  induction hsteps with
  | refl => exact ⟨rfl, rfl⟩
  | tail hinit hstep ih =>
      obtain ⟨p, hstep⟩ := hstep
      have hkept := (h.steps hid hinit).kept_step hstep (ih.1 ▸ hdst)
      exact ⟨hkept.1.trans ih.1, hkept.2.trans ih.2⟩

/-- Whatever the processes do and whatever happens to them, only one of them has the
lock; nobody removes the lock file of another process; and a destination that
is there is what one successful `wget` has fetched, and stays. -/
theorem download_safe {host : P → Text} {pid : P → ℕ}
    (hdistinct : Function.Injective fun p => locker (host p) (pid p)) {s₀ s : State P}
    (hinitial : Initial s₀) (hsteps : Steps (fun p => locker (host p) (pid p)) s₀ s) :
    (∀ p q, (s.proc p).shell.locked = true → (s.proc q).shell.locked = true → p = q) ∧
    (∀ p s', Step (fun p => locker (host p) (pid p)) p s s' →
      s.world.files.inode .lock ≠ none → s'.world.files.inode .lock = none →
      s.world.files.read .lock = some (echo (locker (host p) (pid p)))) ∧
    ∀ d, s.world.files.read .dst = some d → d ∈ s.world.results ∧
      ∀ s', Steps (fun p => locker (host p) (pid p)) s s' →
        s'.world.files.inode .dst = s.world.files.inode .dst ∧
        s'.world.files.read .dst = some d := by
  have hid := identities_locker hdistinct
  have hinv := (Inv.initial hinitial).steps hid hsteps
  refine ⟨fun p q => hinv.locked_unique hid, fun p s' => hinv.read_of_removed hid,
    fun d hd => ⟨hinv.result d hd, fun s' hsteps' => ?_⟩⟩
  have hdst : s.world.files.inode .dst ≠ none := by
    intro hnone
    rw [FileSystem.read_eq_none.mpr hnone] at hd
    cases hd
  have hkept := hinv.kept hid hsteps' hdst
  exact ⟨hkept.1, hkept.2.trans hd⟩

end Steps

/-! ## A run -/

section Run

variable [DecidableEq P]

/-- Let the events of a list happen. -/
def State.run (identity : P → Text) (schedule : List (P × Event)) (s : State P) :
    Option (State P) :=
  schedule.foldlM (fun s pe => s.act identity pe.1 pe.2) s

theorem steps_of_run {identity : P → Text} {schedule : List (P × Event)} {s s' : State P}
    (h : s.run identity schedule = some s') : Steps identity s s' := by
  induction schedule generalizing s with
  | nil => exact Option.some.inj h ▸ ReflTransGen.refl
  | cons pe schedule ih =>
      rw [State.run, List.foldlM_cons] at h
      obtain ⟨s₁, hact, hrest⟩ := Option.bind_eq_some_iff.mp h
      exact ReflTransGen.head ⟨pe.1, pe.2, hact⟩ (ih hrest)

end Run

/-- Two processes of one host. -/
def twoPids (p : Bool) : ℕ := if p then 1 else 2

def twoLockers (p : Bool) : Text := locker (text "host") (twoPids p)

/-- An empty directory. -/
def twoProcesses : State Bool where
  world := ⟨⟨fun _ => none, fun _ => [], 0, nofun⟩, []⟩
  proc _ := ⟨some .trapExit, true, .start⟩

/-- A command that works. -/
def works (fetch : Fetch) : Event := .command ⟨true, fetch, false⟩

/-- The first process downloads while the second one waits; the second one gets a
signal at its end, and is killed while it removes the lock file. -/
def twoSchedule : List (Bool × Event) :=
  List.replicate 6 (true, works .restart) ++ List.replicate 8 (false, works .restart) ++
    List.replicate 2 (true, works .restart) ++
    [(true, works (.write (text "tar"))), (true, works (.write (text "ball"))),
      (true, works (.done 0))] ++
    List.replicate 7 (true, works .restart) ++ List.replicate 2 (false, works .restart) ++
    [(false, .signal .term false)] ++ List.replicate 3 (false, works .restart) ++
    [(false, .sigkill true), (false, works .restart)]

def twoDone : State Bool := (twoProcesses.run twoLockers twoSchedule).getD twoProcesses

theorem download_safe_two : twoDone.world.files.read .dst = some (text "tarball") ∧
    (∀ p q, (twoDone.proc p).shell.locked = true → (twoDone.proc q).shell.locked = true → p = q) ∧
    (∀ p s', Step twoLockers p twoDone s' →
      twoDone.world.files.inode .lock ≠ none → s'.world.files.inode .lock = none →
      twoDone.world.files.read .lock = some (echo (twoLockers p))) ∧
    ∀ d, twoDone.world.files.read .dst = some d → d ∈ twoDone.world.results ∧
      ∀ s', Steps twoLockers twoDone s' →
        s'.world.files.inode .dst = twoDone.world.files.inode .dst ∧
        s'.world.files.read .dst = some d := by
  have hrun : (twoProcesses.run twoLockers twoSchedule).isSome := by decide +kernel
  have hsteps : Steps twoLockers twoProcesses twoDone := by
    obtain ⟨s, hs⟩ := Option.isSome_iff_exists.mp hrun
    have hdone : twoDone = s := by rw [twoDone, hs, Option.getD_some]
    exact hdone ▸ steps_of_run hs
  have hdistinct : Function.Injective fun p => locker (text "host") (twoPids p) := by
    unfold Function.Injective
    decide +kernel
  have hinitial : Initial twoProcesses :=
    ⟨fun _ => rfl, rfl, rfl, fun _ _ _ => FileSystem.apart_of_none rfl⟩
  exact ⟨by decide +kernel, download_safe hdistinct hinitial hsteps⟩

end Pbs.Download
