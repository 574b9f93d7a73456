import LinuxServer.Counting.Basic
import LinuxServer.Ipc.UndoSemaphore
import LinuxServer.LTS.Basic

/-!
# Two processes and a semaphore

The program `ipc_private.cc`: a process makes a semaphore of one unit, and takes turns with a child
that has it by inheritance.

* `Pc`, `System`: where the processes are, and the semaphore while there is one.
* `next`, `ipcLTS`: one step of one process.  A process may be killed at any time, a call that waits
  may be interrupted, and `semget` and `fork` may fail; the program looks at no result but that of
  `fork`.
* `Starting s`: the child is not there.  `Running s`: it is, and the unit is accounted for.
* `Clean s`: the unit is with the process that is inside.

`exclusive_of_run`: at most one process is between `pv(sem_id, -1)` and `pv(sem_id, 1)`.
`completes_of_run`: no deadlock, whoever is killed, and the semaphore is removed unless the parent
is killed or `fork` fails.
-/

namespace LinuxServer

namespace IpcPrivate

open Counting

inductive Proc where
  | parent
  | child
  deriving DecidableEq, Repr

instance : Fintype Proc := ⟨{.parent, .child}, fun p => by cases p <;> decide⟩

/-- Where a process is. -/
inductive Pc where
  /-- Before `fork`. -/
  | unborn
  /-- At `semget(IPC_PRIVATE, 1, 0666)`. -/
  | getting
  /-- At `semctl(sem_id, 0, SETVAL, sem_un)`. -/
  | setting
  /-- At `fork()`. -/
  | forking
  /-- At `pv(sem_id, -1)`. -/
  | acquiring
  /-- At `sleep(5)`. -/
  | sleeping
  /-- At `pv(sem_id, 1)`. -/
  | releasing
  /-- At `waitpid(id, nullptr, 0)`. -/
  | waiting
  /-- At `semctl(sem_id, 0, IPC_RMID, sem_un)` and `return 0`. -/
  | removing
  /-- At `exit(0)`. -/
  | leaving
  | exited
  deriving DecidableEq, Repr

/-- The semaphore and the processes. -/
structure System where
  /-- What `sem_id` names: nothing until `semget` has made it, when that has failed, and when the
  semaphore is removed. -/
  sem : Option (UndoSemaphore Proc)
  pc : Proc → Pc

/-- The steps. -/
inductive Action where
  /-- `semget` makes a semaphore or fails. -/
  | get (ok : Bool)
  | setVal
  /-- `fork` succeeds or not. -/
  | fork (ok : Bool)
  /-- `semop` with `-1`. -/
  | acquire (p : Proc)
  /-- `semop` with `-1` fails with `EINTR`. -/
  | interrupt (p : Proc)
  /-- `sleep` returns. -/
  | wake (p : Proc)
  /-- `semop` with `1`. -/
  | release (p : Proc)
  /-- `waitpid` returns, as the child has ended. -/
  | wait
  /-- `waitpid` fails with `EINTR`. -/
  | interruptWait
  | remove
  | exit
  | kill (p : Proc)
  deriving DecidableEq, Repr

/-- At the beginning of `main`. -/
def System.init : System where
  sem := none
  pc
    | .parent => .getting
    | .child => .unborn

/-- The process `p` goes to `pc`. -/
def System.move (s : System) (p : Proc) (pc : Pc) : System :=
  { s with pc := Function.update s.pc p pc }

/-- The process `p` ends, and the kernel undoes its operations. -/
def System.finish (s : System) (p : Proc) : System :=
  { s.move p .exited with sem := s.sem.map fun sem => sem.undo p }

/-- There is no such process. -/
def Pc.isOver : Pc → Bool
  | .unborn | .exited => true
  | _ => false

/-- Where a process goes from `pv(sem_id, 1)`. -/
def Pc.afterRelease : Proc → Pc
  | .parent => .waiting
  | .child => .leaving

/-- One step, if it is possible. -/
def next (s : System) : Action → Option System
  -- a new semaphore has no unit
  | .get ok =>
    if s.pc .parent = .getting then
      some { s.move .parent .setting with sem := if ok then some (.new Proc 0) else none }
    else none
  -- it fails only when there is no semaphore: it is the process's own, and 1 is in its range
  | .setVal =>
    if s.pc .parent = .setting then
      some { s.move .parent .forking with sem := s.sem.map fun _ => .new Proc 1 }
    else none
  -- when it fails `main` returns 1
  | .fork ok =>
    if s.pc .parent = .forking then
      some (if ok then { s with pc := fun _ => .acquiring } else s.finish .parent)
    else none
  | .acquire p =>
    if s.pc p = .acquiring then
      match s.sem with
      | some sem => (sem.take p).map fun sem => { s.move p .sleeping with sem := some sem }
      -- `semop` fails when there is no semaphore
      | none => some (s.move p .sleeping)
    else none
  -- the result of `semop` is not looked at
  | .interrupt p => if s.pc p = .acquiring then some (s.move p .sleeping) else none
  | .wake p => if s.pc p = .sleeping then some (s.move p .releasing) else none
  | .release p =>
    if s.pc p = .releasing then
      some { s.move p (.afterRelease p) with sem := s.sem.map fun sem => sem.give p }
    else none
  | .wait =>
    if s.pc .parent = .waiting ∧ s.pc .child = .exited then some (s.move .parent .removing)
    else none
  | .interruptWait => if s.pc .parent = .waiting then some (s.move .parent .removing) else none
  | .remove =>
    if s.pc .parent = .removing then some { s.move .parent .exited with sem := none } else none
  | .exit => if s.pc .child = .leaving then some (s.finish .child) else none
  | .kill p => if (s.pc p).isOver = false then some (s.finish p) else none

/-- The steps of both processes. -/
def ipcLTS : LTS System Action := .ofNext next

variable {s s' : System} {l : Action} {ls : List Action}

theorem pc_move_self (s : System) (p : Proc) (pc : Pc) : (s.move p pc).pc p = pc :=
  Function.update_self ..

theorem pc_finish_self (s : System) (p : Proc) : (s.finish p).pc p = .exited :=
  Function.update_self ..

/-- What a step can do. -/
inductive Moves (s : System) : Action → System → Prop where
  | get : s.pc .parent = .getting →
      Moves s (.get true) { s.move .parent .setting with sem := some (.new Proc 0) }
  | getFailed : s.pc .parent = .getting →
      Moves s (.get false) { s.move .parent .setting with sem := none }
  | setVal : s.pc .parent = .setting →
      Moves s .setVal { s.move .parent .forking with sem := s.sem.map fun _ => .new Proc 1 }
  | fork : s.pc .parent = .forking → Moves s (.fork true) { s with pc := fun _ => .acquiring }
  | forkFailed : s.pc .parent = .forking → Moves s (.fork false) (s.finish .parent)
  | acquire {p sem sem'} : s.pc p = .acquiring → s.sem = some sem → sem.take p = some sem' →
      Moves s (.acquire p) { s.move p .sleeping with sem := some sem' }
  | acquireRemoved {p} : s.pc p = .acquiring → s.sem = none →
      Moves s (.acquire p) (s.move p .sleeping)
  | interrupt {p} : s.pc p = .acquiring → Moves s (.interrupt p) (s.move p .sleeping)
  | wake {p} : s.pc p = .sleeping → Moves s (.wake p) (s.move p .releasing)
  | release {p} : s.pc p = .releasing →
      Moves s (.release p)
        { s.move p (.afterRelease p) with sem := s.sem.map fun sem => sem.give p }
  | wait : s.pc .parent = .waiting → s.pc .child = .exited →
      Moves s .wait (s.move .parent .removing)
  | interruptWait : s.pc .parent = .waiting → Moves s .interruptWait (s.move .parent .removing)
  | remove : s.pc .parent = .removing →
      Moves s .remove { s.move .parent .exited with sem := none }
  | exit : s.pc .child = .leaving → Moves s .exit (s.finish .child)
  | kill {p} : (s.pc p).isOver = false → Moves s (.kill p) (s.finish p)

theorem moves_of_next (h : next s l = some s') : Moves s l s' := by
  cases l with
  | acquire p =>
    simp only [next] at h
    split_ifs at h with hpc
    cases hsem : s.sem with
    | none =>
      rw [hsem] at h
      obtain rfl := Option.some.inj h
      exact .acquireRemoved hpc hsem
    | some sem =>
      rw [hsem] at h
      obtain ⟨sem', htake, rfl⟩ := Option.map_eq_some_iff.1 h
      exact .acquire hpc hsem htake
  | fork ok =>
    simp only [next] at h
    split_ifs at h with hpc hok
    · obtain rfl := Option.some.inj h
      obtain rfl := hok
      exact .fork hpc
    · obtain rfl := Option.some.inj h
      obtain rfl := Bool.eq_false_iff.2 hok
      exact .forkFailed hpc
  | get ok =>
    simp only [next] at h
    split_ifs at h with hpc hok
    · obtain rfl := Option.some.inj h
      obtain rfl := hok
      exact .get hpc
    · obtain rfl := Option.some.inj h
      obtain rfl := Bool.eq_false_iff.2 hok
      exact .getFailed hpc
  | wait =>
    simp only [next] at h
    split_ifs at h with hpc
    obtain rfl := Option.some.inj h
    exact .wait hpc.1 hpc.2
  | _ =>
    simp only [next] at h
    split_ifs at h with hpc
    obtain rfl := Option.some.inj h
    constructor
    exact hpc

/-! ### The unit -/

/-- What the kernel would undo for a process: it may have got a unit, or have gone on without one
and given one. -/
def Owes : Pc → ℤ → Prop
  | .sleeping, a | .releasing, a => a = 0 ∨ a = 1
  | .waiting, a | .removing, a | .leaving, a => a = 0 ∨ a = -1
  | .unborn, a | .getting, a | .setting, a | .forking, a | .acquiring, a | .exited, a => a = 0

/-- The places of the two processes behind `fork`: the parent has no `exit(0)`, the child no
`waitpid`. -/
def Fits : Proc → Pc → Prop
  | _, .unborn | _, .getting | _, .setting | _, .forking => False
  | .parent, .leaving | .child, .waiting | .child, .removing => False
  | _, _ => True

/-- The process is between `pv(sem_id, -1)` and `pv(sem_id, 1)`. -/
def Inside : Pc → Prop
  | .sleeping | .releasing => True
  | _ => False

instance : DecidablePred Inside := fun pc =>
  match pc with
  | .sleeping | .releasing => .isTrue trivial
  | .unborn | .getting | .setting | .forking | .acquiring | .waiting | .removing | .leaving
  | .exited => .isFalse id

/-- The places of the parent without a child. -/
def Pc.IsStarting : Pc → Prop
  | .getting | .setting | .forking | .exited => True
  | _ => False

/-- The child is not there, and no process has touched the semaphore. -/
structure Starting (s : System) : Prop where
  child : s.pc .child = .unborn
  parent : (s.pc .parent).IsStarting
  sem : ∀ sem, s.sem = some sem → sem.adj = fun _ => 0
  ready : s.pc .parent = .forking → ∀ sem, s.sem = some sem → sem = .new Proc 1

/-- The unit is in the semaphore or with a process. -/
structure Running (s : System) : Prop where
  units : ∀ sem, s.sem = some sem → sem.Units 1
  owes : ∀ sem, s.sem = some sem → ∀ p, Owes (s.pc p) (sem.adj p)
  fits : ∀ p, Fits p (s.pc p)

theorem starting_init : Starting .init := ⟨rfl, trivial, by rintro _ ⟨⟩, by rintro ⟨⟩⟩

theorem Starting.move {pc : Pc} (h : Starting s) (hpc : s'.pc = Function.update s.pc .parent pc)
    (hstarting : pc.IsStarting) (hsem : ∀ sem, s'.sem = some sem → sem.adj = fun _ => 0)
    (hready : pc = .forking → ∀ sem, s'.sem = some sem → sem = .new Proc 1) : Starting s' := by
  have hparent : s'.pc .parent = pc := by rw [hpc, Function.update_self]
  have hchild : s'.pc .child = s.pc .child := by rw [hpc, Function.update_of_ne (by decide)]
  refine ⟨hchild.trans h.child, ?_, hsem, fun hforking => hready (hparent.symm.trans hforking)⟩
  rw [hparent]
  exact hstarting

theorem Starting.finish (h : Starting s) : Starting (s.finish .parent) := by
  refine h.move rfl trivial (fun sem hsem => ?_) nofun
  obtain ⟨before, hbefore, rfl⟩ := Option.map_eq_some_iff.1 hsem
  show Function.update before.adj .parent 0 = fun _ => 0
  rw [h.sem before hbefore]
  exact Function.update_eq_self (f := fun _ : Proc => (0 : ℤ)) .parent

theorem Starting.fork (h : Starting s) (hpc : s.pc .parent = .forking) :
    Running { s with pc := fun _ => .acquiring } := by
  refine ⟨fun sem hsem => ?_, fun sem hsem p => ?_, fun p => by cases p <;> trivial⟩
  · rw [h.ready hpc sem hsem]
    exact UndoSemaphore.units_new
  · exact congrFun (h.sem sem hsem) p

theorem Starting.not_inside (h : Starting s) (p : Proc) : ¬ Inside (s.pc p) := by
  cases p with
  | child =>
    rw [h.child]
    exact id
  | parent =>
    have hparent := h.parent
    cases hpc : s.pc .parent <;> rw [hpc] at hparent <;> first | exact id | exact hparent.elim

/-- Without a child only the parent moves, until there is one. -/
theorem Starting.step (h : Starting s) (hm : Moves s l s') :
    Starting s' ∨ s.pc .parent = .forking ∧ s' = { s with pc := fun _ => .acquiring } := by
  have hparent := h.parent
  have hchild := h.child
  cases hm with
  | get =>
    refine .inl (h.move rfl trivial (fun sem hsem => ?_) nofun)
    obtain rfl := Option.some.inj hsem
    rfl
  | getFailed => exact .inl (h.move rfl trivial (by rintro _ ⟨⟩) nofun)
  | setVal hpc =>
    have hnew : ∀ sem, s.sem.map (fun _ => UndoSemaphore.new Proc 1) = some sem →
        sem = .new Proc 1 := by
      intro sem hsem
      obtain ⟨-, -, rfl⟩ := Option.map_eq_some_iff.1 hsem
      rfl
    exact .inl (h.move rfl trivial (fun sem hsem => by rw [hnew sem hsem]; rfl) fun _ => hnew)
  | fork hpc => exact .inr ⟨hpc, rfl⟩
  | forkFailed => exact .inl h.finish
  | @kill p hp =>
    cases p with
    | parent => exact .inl h.finish
    | child =>
      rw [hchild] at hp
      cases hp
  | @acquire p _ _ hpc | @acquireRemoved p hpc | @interrupt p hpc | @wake p hpc | @release p hpc =>
    cases p with
    | parent =>
      rw [hpc] at hparent
      exact hparent.elim
    | child => cases hchild.symm.trans hpc
  | wait hpc | interruptWait hpc | remove hpc =>
    rw [hpc] at hparent
    exact hparent.elim
  | exit hpc => cases hchild.symm.trans hpc

theorem Owes.le {pc : Pc} {a : ℤ} (h : Owes pc a) : -1 ≤ a ∧ a ≤ 1 := by
  cases pc <;> simp only [Owes] at h <;> omega

theorem sum_proc {M : Type*} [AddCommMonoid M] (f : Proc → M) :
    ∑ p, f p = f .parent + f .child :=
  Finset.sum_pair (by decide)

theorem Running.move {p : Proc} {pc : Pc} (h : Running s)
    (hpc : s'.pc = Function.update s.pc p pc)
    (hsem : ∀ after, s'.sem = some after → ∃ before a, s.sem = some before ∧ after.Units 1 ∧
      after.adj = Function.update before.adj p a ∧ Owes pc a)
    (hfits : Fits p pc) : Running s' := by
  have hself : s'.pc p = pc := by rw [hpc, Function.update_self]
  have hother : ∀ q ≠ p, s'.pc q = s.pc q := fun q hq => by rw [hpc, Function.update_of_ne hq]
  refine ⟨fun after hafter => ?_, fun after hafter q => ?_, fun q => ?_⟩
  · obtain ⟨before, a, -, hunits, -⟩ := hsem after hafter
    exact hunits
  · obtain ⟨before, a, hbefore, -, hadj, howes⟩ := hsem after hafter
    rcases eq_or_ne q p with rfl | hq
    · rw [hself, hadj, Function.update_self]
      exact howes
    · rw [hother q hq, hadj, Function.update_of_ne hq]
      exact h.owes before hbefore q
  · rcases eq_or_ne q p with rfl | hq
    · rw [hself]
      exact hfits
    · rw [hother q hq]
      exact h.fits q

theorem Running.stay {p : Proc} {pc : Pc} (h : Running s)
    (howes : ∀ a, Owes (s.pc p) a → Owes pc a) (hfits : Fits p pc) : Running (s.move p pc) :=
  h.move rfl (fun sem hsem => ⟨sem, sem.adj p, hsem, h.units sem hsem,
    (Function.update_eq_self ..).symm, howes _ (h.owes sem hsem p)⟩) hfits

theorem Running.finish {p : Proc} (h : Running s) : Running (s.finish p) := by
  refine h.move rfl (fun after hafter => ?_) (by cases p <;> trivial)
  obtain ⟨before, hbefore, rfl⟩ := Option.map_eq_some_iff.1 hafter
  refine ⟨before, 0, hbefore, (h.units before hbefore).undo ?_, rfl, rfl⟩
  -- the other process has at most one unit
  have hunits := h.units before hbefore
  rw [UndoSemaphore.Units, sum_proc] at hunits
  have hparent := (h.owes before hbefore .parent).le
  have hchild := (h.owes before hbefore .child).le
  cases p <;> omega

theorem Running.step (h : Running s) (hm : Moves s l s') : Running s' := by
  have hparent := h.fits .parent
  cases hm with
  | get hpc | getFailed hpc | setVal hpc | fork hpc | forkFailed hpc =>
    rw [hpc] at hparent
    exact hparent.elim
  | @acquire p sem sem' hpc hsem htake =>
    refine h.move rfl (fun after hafter => ?_) (by cases p <;> trivial)
    obtain rfl := Option.some.inj hafter
    have howes : sem.adj p = 0 := by simpa [hpc, Owes] using h.owes sem hsem p
    refine ⟨sem, 1, hsem, (h.units sem hsem).take htake, ?_, .inr rfl⟩
    unfold UndoSemaphore.take at htake
    split_ifs at htake
    obtain rfl := Option.some.inj htake
    rw [howes]
    rfl
  | @acquireRemoved p hpc | @interrupt p hpc =>
    exact h.stay (fun a ha => .inl (by simpa [hpc, Owes] using ha)) (by cases p <;> trivial)
  | @wake p hpc =>
    exact h.stay (fun a ha => by simpa [hpc, Owes] using ha) (by cases p <;> trivial)
  | @release p hpc =>
    refine h.move rfl (fun after hafter => ?_) (by cases p <;> trivial)
    obtain ⟨before, hbefore, rfl⟩ := Option.map_eq_some_iff.1 hafter
    have howes : before.adj p = 0 ∨ before.adj p = 1 := by
      simpa [hpc, Owes] using h.owes before hbefore p
    refine ⟨before, before.adj p - 1, hbefore, (h.units before hbefore).give, rfl, ?_⟩
    cases p <;> simp only [Pc.afterRelease, Owes] <;> omega
  | wait hpc | interruptWait hpc =>
    exact h.stay (fun a ha => by simpa [hpc, Owes] using ha) trivial
  | remove hpc => exact h.move rfl (by rintro _ ⟨⟩) trivial
  | exit | kill => exact h.finish

/-- The child is not there, or the unit is accounted for. -/
def Sound (s : System) : Prop := Starting s ∨ Running s

theorem Sound.step (h : Sound s) (hm : Moves s l s') : Sound s' := by
  rcases h with h | h
  · rcases h.step hm with h' | ⟨hpc, rfl⟩
    · exact .inl h'
    · exact .inr (h.fork hpc)
  · exact .inr (h.step hm)

theorem sound_of_run (hrun : ipcLTS.Run .init ls s) : Sound s :=
  hrun.invariant (.inl starting_init) fun _ _ _ hu hs => hu.step (moves_of_next hs)

/-! ### Mutual exclusion -/

/-- A process that is inside has the unit, and no other process has it. -/
def Clean (s : System) : Prop :=
  ∀ sem, s.sem = some sem → ∀ p, sem.adj p = if Inside (s.pc p) then 1 else 0

theorem Clean.move {p : Proc} {pc : Pc} (h : Clean s) (hpc : s'.pc = Function.update s.pc p pc)
    (hsem : ∀ after, s'.sem = some after → ∃ before, s.sem = some before ∧
      after.adj = Function.update before.adj p (if Inside pc then 1 else 0)) : Clean s' := by
  intro after hafter q
  obtain ⟨before, hbefore, hadj⟩ := hsem after hafter
  rw [hadj, hpc]
  rcases eq_or_ne q p with rfl | hq
  · rw [Function.update_self, Function.update_self]
  · rw [Function.update_of_ne hq, Function.update_of_ne hq]
    exact h before hbefore q

/-- A process that does not touch the semaphore stays inside, or outside. -/
theorem Clean.stay {p : Proc} {pc : Pc} (h : Clean s) (hpc : Inside (s.pc p) ↔ Inside pc) :
    Clean (s.move p pc) := by
  refine h.move rfl fun sem hsem => ⟨sem, hsem, ?_⟩
  rw [← if_congr hpc rfl rfl, ← h sem hsem p, Function.update_eq_self]

theorem Clean.finish {p : Proc} (h : Clean s) : Clean (s.finish p) := by
  refine h.move rfl fun after hafter => ?_
  obtain ⟨before, hbefore, rfl⟩ := Option.map_eq_some_iff.1 hafter
  exact ⟨before, hbefore, rfl⟩

/-- Nobody is inside before there is a child. -/
theorem Starting.clean (h : Starting s) : Clean s := by
  intro sem hsem p
  rw [h.sem sem hsem, if_neg (h.not_inside p)]

theorem Clean.step (h : Clean s) (hs : Running s) (hm : Moves s l s')
    (hl : ∀ p, l ≠ .interrupt p) : Clean s' := by
  have hparent := hs.fits .parent
  cases hm with
  | get hpc | getFailed hpc | setVal hpc | fork hpc | forkFailed hpc =>
    rw [hpc] at hparent
    exact hparent.elim
  | @acquire p sem sem' hpc hsem htake =>
    refine h.move rfl fun after hafter => ⟨sem, hsem, ?_⟩
    obtain rfl := Option.some.inj hafter
    have hadj : sem.adj p = 0 := by simpa [hpc, Inside] using h sem hsem p
    unfold UndoSemaphore.take at htake
    split_ifs at htake
    obtain rfl := Option.some.inj htake
    rw [hadj]
    rfl
  | acquireRemoved hpc hnone =>
    refine h.move rfl fun after hafter => ?_
    cases hnone.symm.trans hafter
  | @interrupt p => exact absurd rfl (hl p)
  | wake hpc => exact h.stay (by simp [hpc, Inside])
  | @release p hpc =>
    refine h.move rfl fun after hafter => ?_
    obtain ⟨before, hbefore, rfl⟩ := Option.map_eq_some_iff.1 hafter
    have hadj : before.adj p = 1 := by simpa [hpc, Inside] using h before hbefore p
    refine ⟨before, hbefore, ?_⟩
    rw [UndoSemaphore.give, hadj]
    cases p <;> rfl
  | wait hpc | interruptWait hpc => exact h.stay (by simp [hpc, Inside])
  | remove => exact h.move rfl (by rintro _ ⟨⟩)
  | exit => exact h.finish
  | kill => exact h.finish

theorem clean_of_run (hrun : ipcLTS.Run .init ls s) (hint : ∀ p, .interrupt p ∉ ls) :
    Clean s := by
  induction hrun with
  | nil => exact starting_init.clean
  | @snoc ls l u w hrun hs ih =>
    have hclean := ih fun p hp => hint p (List.mem_append_left _ hp)
    have hm := moves_of_next hs
    rcases sound_of_run hrun with hstarting | hrunning
    · rcases hstarting.step hm with h | ⟨-, rfl⟩
      · exact h.clean
      · exact fun sem hsem p => congrFun (hstarting.sem sem hsem) p
    · refine hclean.step hrunning hm ?_
      rintro p rfl
      exact hint p (by simp)

/-- The semaphore is there from `semget` until the parent has ended. -/
theorem pc_of_sem_eq_none (hrun : ipcLTS.Run .init ls s) (hget : .get false ∉ ls)
    (hsem : s.sem = none) : s.pc .parent = .getting ∨ s.pc .parent = .exited := by
  induction hrun with
  | nil => exact .inl rfl
  | @snoc ls l u w hrun hs ih =>
    have ih := ih fun hmem => hget (List.mem_append_left _ hmem)
    -- a process that is between `semget` and its end is not the parent, or there is a semaphore
    have hstay : ∀ {p pc pc'}, u.pc p = pc → pc ≠ .getting → pc ≠ .exited → u.sem = none →
        Function.update u.pc p pc' .parent = .getting ∨
          Function.update u.pc p pc' .parent = .exited := by
      rintro p _ pc' rfl hne hne' hnone
      have hp : .parent ≠ p := by
        rintro rfl
        exact (ih hnone).elim hne hne'
      rw [Function.update_of_ne hp]
      exact ih hnone
    have hfinish : ∀ {p}, (u.finish p).sem = none →
        (u.finish p).pc .parent = .getting ∨ (u.finish p).pc .parent = .exited := by
      intro p hnone
      by_cases hp : .parent = p
      · subst hp
        exact .inr (pc_finish_self _ _)
      · rw [show (u.finish p).pc .parent = u.pc .parent from Function.update_of_ne hp ..]
        exact ih (Option.map_eq_none_iff.1 hnone)
    cases moves_of_next hs with
    | get => cases hsem
    | getFailed => exact absurd (by simp) hget
    | setVal hpc => exact hstay hpc nofun nofun (Option.map_eq_none_iff.1 hsem)
    | fork hpc => exact absurd (ih hsem) (by simp [hpc])
    | acquire => cases hsem
    | acquireRemoved hpc | interrupt hpc | wake hpc | wait hpc | interruptWait hpc =>
      exact hstay hpc nofun nofun hsem
    | release hpc => exact hstay hpc nofun nofun (Option.map_eq_none_iff.1 hsem)
    | remove => exact .inr (pc_move_self u .parent .exited)
    | forkFailed | exit | kill => exact hfinish hsem

/-- **Mutual exclusion.**  When `semget` makes the semaphore, then in every interleaving of the two
processes, whoever of them is killed and even if the parent does not wait for the child, at most one
of them is between `pv(sem_id, -1)` and `pv(sem_id, 1)`, as long as no `semop` that waits is
interrupted. -/
theorem exclusive_of_run (hrun : ipcLTS.Run .init ls s) (hget : .get false ∉ ls)
    (hint : ∀ p, .interrupt p ∉ ls) : ¬ (Inside (s.pc .parent) ∧ Inside (s.pc .child)) := by
  rintro ⟨hparent, hchild⟩
  rcases sound_of_run hrun with hstarting | hrunning
  · exact hstarting.not_inside _ hparent
  · cases hsem : s.sem with
    | none =>
      rcases pc_of_sem_eq_none hrun hget hsem with hpc | hpc <;> rw [hpc] at hparent <;>
        exact hparent
    | some sem =>
      have hadj := clean_of_run hrun hint sem hsem
      have hnonneg : ∀ p, 0 ≤ sem.adj p := fun p => by
        rw [hadj]
        split_ifs <;> decide
      have hsame := (hrunning.units sem hsem).unique_of_holds hnonneg
        (by rw [hadj, if_pos hparent]) (by rw [hadj, if_pos hchild])
      cases hsame

theorem exclusive_of_run_kill : ∃ s, ipcLTS.Run .init
    [.get true, .setVal, .fork true, .acquire .child, .kill .child, .acquire .parent,
      .wake .parent] s ∧ Inside (s.pc .parent) ∧
        ¬ (Inside (s.pc .parent) ∧ Inside (s.pc .child)) := by
  have hrun : ipcLTS.Run .init [.get true, .setVal, .fork true, .acquire .child, .kill .child,
    .acquire .parent, .wake .parent] _ := LTS.run_of_foldlM rfl
  exact ⟨_, hrun, trivial, exclusive_of_run hrun (by simp) (by simp)⟩

/-- A `semop` that is interrupted lets the second process in. -/
example : ([.get true, .setVal, .fork true, .acquire .parent, .interrupt .child].foldlM next
    .init).map (fun s => (s.pc .parent, s.pc .child)) = some (.sleeping, .sleeping) := rfl

/-- Without a semaphore nobody waits. -/
example : ([.get false, .setVal, .fork true, .acquire .parent, .acquire .child].foldlM next
    .init).map (fun s => (s.pc .parent, s.pc .child)) = some (.sleeping, .sleeping) := rfl

/-! ### Completion -/

/-- The steps that a process makes at most, and those of the child that it creates. -/
def Pc.rank : Pc → ℕ
  | .getting => 15
  | .setting => 14
  | .forking => 13
  | .acquiring => 6
  | .sleeping => 5
  | .releasing => 4
  | .waiting => 3
  | .removing => 2
  | .leaving => 1
  | .exited | .unborn => 0

/-- The steps still to be made at most. -/
def System.work (s : System) : ℕ := total Pc.rank s.pc

theorem work_of_move {p : Proc} {pc : Pc} (hpc : s'.pc = Function.update s.pc p pc)
    (hrank : pc.rank < (s.pc p).rank) : s'.work < s.work := by
  have htotal := total_update Pc.rank s.pc p pc
  rw [System.work, System.work, hpc]
  omega

theorem Moves.work (hm : Moves s l s') : s'.work < s.work := by
  cases hm with
  | fork hpc =>
    have hbefore : s.work = Pc.forking.rank + (s.pc .child).rank := by
      rw [System.work, total, sum_proc, hpc]
    have hafter : System.work { s with pc := fun _ => .acquiring } = 12 := rfl
    rw [hbefore, hafter]
    exact Nat.lt_add_right _ (by decide)
  | @release p hpc =>
    refine work_of_move rfl ?_
    rw [hpc]
    cases p <;> decide
  | @kill p hpc =>
    refine work_of_move rfl ?_
    cases hp : s.pc p with
    | exited | unborn =>
      rw [hp] at hpc
      cases hpc
    | _ => decide
  | get hpc | getFailed hpc | setVal hpc | forkFailed hpc | acquire hpc | acquireRemoved hpc
  | interrupt hpc | wake hpc | wait hpc | interruptWait hpc | remove hpc | exit hpc =>
    refine work_of_move rfl ?_
    rw [hpc]
    decide

/-- A step that the processes make by themselves, with calls that succeed. -/
def Action.isOwn : Action → Bool
  | .get ok | .fork ok => ok
  | .interrupt _ | .interruptWait | .kill _ => false
  | _ => true

/-- A process that has not ended can make a step, unless it waits for the other one. -/
theorem Running.exited_of_stuck (hstuck : ∀ l : Action, l.isOwn → next s l = none) (h : Running s)
    (p : Proc) : s.pc p = .exited := by
  -- neither process is inside, so that nobody has to wait for the unit
  have houtside : ∀ q, ¬ Inside (s.pc q) := by
    intro q hq
    cases hpc : s.pc q with
    | sleeping =>
      have hnext := hstuck (.wake q) rfl
      simp [next, hpc] at hnext
    | releasing =>
      have hnext := hstuck (.release q) rfl
      simp [next, hpc] at hnext
    | _ => simp [hpc, Inside] at hq
  have hacquiring : ∀ q, s.pc q ≠ .acquiring := by
    intro q hpc
    have hnext := hstuck (.acquire q) rfl
    cases hsem : s.sem with
    | none => simp [next, hpc, hsem] at hnext
    | some sem =>
      simp only [next, hpc, hsem, if_pos, Option.map_eq_none_iff, UndoSemaphore.take] at hnext
      split_ifs at hnext with hpos
      obtain ⟨r, hr⟩ := (h.units sem hsem).exists_holder Nat.one_pos (Nat.eq_zero_of_not_pos hpos)
      have howes := h.owes sem hsem r
      have hr' := houtside r
      cases hrpc : s.pc r <;> simp only [hrpc, Owes, Inside, not_true_eq_false] at howes hr' <;>
        omega
  have hchild : s.pc .child = .exited := by
    have hfits := h.fits .child
    cases hpc : s.pc .child with
    | exited => rfl
    | acquiring => exact absurd hpc (hacquiring _)
    | sleeping | releasing => exact absurd (by rw [hpc]; trivial) (houtside .child)
    | leaving =>
      have hnext := hstuck .exit rfl
      simp [next, hpc] at hnext
    | unborn | getting | setting | forking | waiting | removing =>
      rw [hpc] at hfits
      exact hfits.elim
  cases p with
  | child => exact hchild
  | parent =>
    have hfits := h.fits .parent
    cases hpc : s.pc .parent with
    | exited => rfl
    | acquiring => exact absurd hpc (hacquiring _)
    | sleeping | releasing => exact absurd (by rw [hpc]; trivial) (houtside .parent)
    | waiting =>
      have hnext := hstuck .wait rfl
      simp [next, hpc, hchild] at hnext
    | removing =>
      have hnext := hstuck .remove rfl
      simp [next, hpc] at hnext
    | unborn | getting | setting | forking | leaving =>
      rw [hpc] at hfits
      exact hfits.elim

theorem Starting.exited_of_stuck (hstuck : ∀ l : Action, l.isOwn → next s l = none)
    (h : Starting s) : s.pc .parent = .exited := by
  have hparent := h.parent
  cases hpc : s.pc .parent with
  | exited => rfl
  | getting =>
    have hnext := hstuck (.get true) rfl
    simp [next, hpc] at hnext
  | setting =>
    have hnext := hstuck .setVal rfl
    simp [next, hpc] at hnext
  | forking =>
    have hnext := hstuck (.fork true) rfl
    simp [next, hpc] at hnext
  | unborn | acquiring | sleeping | releasing | waiting | removing | leaving =>
    rw [hpc] at hparent
    exact hparent.elim

/-- The parent ends by removing the semaphore, by being killed, or without a child. -/
theorem removed_of_run (hrun : ipcLTS.Run .init ls s) (hkill : .kill .parent ∉ ls)
    (hfork : .fork false ∉ ls) (hparent : s.pc .parent = .exited) : s.sem = none := by
  induction hrun with
  | nil => cases hparent
  | @snoc ls l u w hrun hs ih =>
    have ih := ih (fun hmem => hkill (List.mem_append_left _ hmem))
      fun hmem => hfork (List.mem_append_left _ hmem)
    have hstay : ∀ p pc, Function.update u.pc p pc .parent = .exited → pc ≠ .exited →
        u.sem = none := by
      intro p pc hpc hne
      rcases eq_or_ne .parent p with rfl | hp
      · rw [Function.update_self] at hpc
        exact absurd hpc hne
      · rw [Function.update_of_ne hp] at hpc
        exact ih hpc
    have hchild : Function.update u.pc .child .exited .parent = .exited →
        (u.finish .child).sem = none := by
      intro hpc
      rw [Function.update_of_ne (by decide)] at hpc
      exact Option.map_eq_none_iff.2 (ih hpc)
    cases moves_of_next hs with
    | get | getFailed | setVal => cases (pc_move_self u .parent _).symm.trans hparent
    | fork => cases hparent
    | forkFailed => exact absurd (by simp) hfork
    | acquire _ hsem => cases (hstay _ _ hparent nofun).symm.trans hsem
    | acquireRemoved | interrupt | wake => exact hstay _ _ hparent nofun
    | wait | interruptWait => exact hstay .parent .removing hparent nofun
    | @release p =>
      exact Option.map_eq_none_iff.2 (hstay _ _ hparent (by cases p <;> exact nofun))
    | remove => rfl
    | exit => exact hchild hparent
    | @kill p =>
      cases p with
      | parent => exact absurd (List.mem_append_right _ (List.mem_singleton_self _)) hkill
      | child => exact hchild hparent

/-- **The program ends.**  No run makes more than 15 steps; and where neither process can make
another step by itself, the parent has ended, and so has the child if there was one, whoever of them
was killed, whatever was interrupted and whichever call failed; and there is no semaphore, unless
the parent was killed or `fork` failed. -/
theorem completes_of_run (hrun : ipcLTS.Run .init ls s) :
    ls.length ≤ 15 ∧ ((∀ l : Action, l.isOwn → next s l = none) →
      s.pc .parent = .exited ∧ (s.pc .child = .exited ∨ s.pc .child = .unborn) ∧
        (.kill .parent ∉ ls → .fork false ∉ ls → s.sem = none)) := by
  have hle := hrun.length_le_rank System.work fun _ _ _ hs => (moves_of_next hs).work
  have hinit : System.init.work = 15 := rfl
  refine ⟨by omega, fun hstuck => ?_⟩
  rcases sound_of_run hrun with hstarting | hrunning
  · have hparent := hstarting.exited_of_stuck hstuck
    exact ⟨hparent, .inr hstarting.child,
      fun hkill hfork => removed_of_run hrun hkill hfork hparent⟩
  · have hexited := hrunning.exited_of_stuck hstuck
    exact ⟨hexited _, .inl (hexited _),
      fun hkill hfork => removed_of_run hrun hkill hfork (hexited .parent)⟩

theorem completes_of_run_kill : ∃ ls s, ipcLTS.Run .init ls s ∧ ls.length = 10 ∧
    ls.length ≤ 15 ∧ s.sem = none := by
  have hrun : ipcLTS.Run .init [.get true, .setVal, .fork true, .acquire .child, .kill .child,
    .acquire .parent, .wake .parent, .release .parent, .wait, .remove] _ := LTS.run_of_foldlM rfl
  obtain ⟨hle, hstuck⟩ := completes_of_run hrun
  refine ⟨_, _, hrun, rfl, hle, (hstuck fun l hl => ?_).2.2 (by simp) (by simp)⟩
  cases l with
  | interrupt | interruptWait | kill => cases hl
  | get ok | fork ok => cases ok <;> rfl
  | acquire p | wake p | release p => cases p <;> rfl
  | setVal | wait | remove | exit => rfl

end IpcPrivate

end LinuxServer
