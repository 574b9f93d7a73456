import LinuxServer.ThreadPool.Accounts

/-!
# The life of a thread pool

The constructor and the destructor of `thread_pool`, interleaved with the workers that the
constructor starts and with calls of `append`.  The constructor throws when `pthread_create` fails
and when `pthread_detach` succeeds; neither it nor the destructor waits for the workers.

* `Life`: the pool, `m_stop`, where the owner of the pool is and how many workers are started.
  Recorded are the workers that used a member of the pool after its end.
* `lifeStep`, `lifeLTS`: one step of the owner, of a worker or of `append`.
* `Tested s a`: the constructor throws, and the destructor sets `m_stop`, only when each worker that
  was started has tested `m_stop` before.
* `none_late_of_tested`: as long as the steps meet this no worker uses the pool after its end; a
  step that does not can be followed by such a use.
-/

namespace LinuxServer

namespace ThreadPool

variable {A T : Type*}

/-- Where the thread is that owns the pool. -/
inductive OwnerPc where
  /-- In the constructor, at the test of its arguments. -/
  | checking
  /-- At `new pthread_t[m_thread_number]`. -/
  | allocating
  /-- At `pthread_create`. -/
  | creating (i : ℕ)
  /-- At `pthread_detach`. -/
  | detaching (i : ℕ)
  /-- The constructor has returned. -/
  | opened
  /-- In the destructor, at `m_stop = true`. -/
  | stopping
  /-- In the destructor, at the destructors of the members. -/
  | finishing
  /-- The constructor has thrown. -/
  | thrown
  /-- The destructor has finished. -/
  | destroyed
  deriving DecidableEq, Repr

/-- The pool's life is over. -/
def OwnerPc.ended : OwnerPc → Bool
  | .thrown | .destroyed => true
  | .checking | .allocating | .creating _ | .detaching _ | .opened | .stopping | .finishing => false

/-- `append` may be called: the constructor has returned, the destructor has not. -/
def OwnerPc.appends : OwnerPc → Bool
  | .opened | .stopping | .finishing => true
  | .checking | .allocating | .creating _ | .detaching _ | .thrown | .destroyed => false

/-- A pool with its owner. -/
structure Life (A T : Type*) where
  threadNumber : ℤ
  maxRequests : ℤ
  /-- The workers are numbered as the constructor starts them. -/
  pool : Pool ℕ A T
  /-- `m_stop` -/
  stop : Bool
  owner : OwnerPc
  /-- The number of workers started. -/
  started : ℕ
  /-- The workers that used a member after the end of the pool. -/
  late : List ℕ

/-- The steps. -/
inductive LifeAction (A T : Type*) where
  /-- The test of the constructor's arguments. -/
  | check
  | allocate (ok : Bool)
  | create (ok : Bool)
  /-- `pthread_detach` returns zero or not. -/
  | detach (zero : Bool)
  /-- The destructor is called and frees `m_threads`. -/
  | destroy
  /-- `m_stop = true` -/
  | stop
  /-- The members are destroyed. -/
  | finish
  /-- A step of a worker or of `append`. -/
  | thread (l : Action ℕ A T)
  deriving DecidableEq, Repr

/-- At the start of the constructor's body. -/
def Life.init (A T : Type*) (threadNumber maxRequests : ℤ) : Life A T where
  threadNumber := threadNumber
  maxRequests := maxRequests
  pool := .init ℕ A T maxRequests.toNat
  stop := false
  owner := .checking
  started := 0
  late := []

/-- The worker whose step it is. -/
def Action.worker? {W : Type*} : Action W A T → Option W
  | .lock (.inl w) | .unlock (.inl w) | .test w _ | .wait w | .interrupt w | .take w
  | .process w => some w
  | .call _ _ | .lock (.inr _) | .push _ | .unlock (.inr _) | .post _ => none

/-- The worker, when its step reads or writes a member of the pool. -/
def Action.user? {W : Type*} : Action W A T → Option W
  | .lock (.inl w) | .unlock (.inl w) | .test w _ | .wait w | .interrupt w | .take w => some w
  | .process _ | .call _ _ | .lock (.inr _) | .push _ | .unlock (.inr _) | .post _ => none

/-- The worker is started and reads `m_stop` as it is; `append` is called while the pool is open. -/
def Life.MayRun (s : Life A T) (l : Action ℕ A T) : Prop :=
  match l with
  | .test w stop => w < s.started ∧ stop = s.stop
  | .lock (.inl w) | .unlock (.inl w) | .wait w | .interrupt w | .take w | .process w =>
    w < s.started
  | .call _ _ | .lock (.inr _) | .push _ | .unlock (.inr _) | .post _ => s.owner.appends = true

instance (s : Life A T) (l : Action ℕ A T) : Decidable (s.MayRun l) :=
  match l with
  | .test w stop => inferInstanceAs (Decidable (w < s.started ∧ stop = s.stop))
  | .lock (.inl w) | .unlock (.inl w) | .wait w | .interrupt w | .take w | .process w =>
    inferInstanceAs (Decidable (w < s.started))
  | .call _ _ | .lock (.inr _) | .push _ | .unlock (.inr _) | .post _ =>
    inferInstanceAs (Decidable (s.owner.appends = true))

theorem user_of_append {W : Type*} {l : Action W A T} (hl : l.worker? = none) :
    l.user? = none := by
  cases l with
  | call | push | post | process => rfl
  | lock t | unlock t =>
    obtain w | a := t
    · cases hl
    · rfl
  | test | wait | interrupt | take => cases hl

theorem Life.MayRun.started {s : Life A T} {l : Action ℕ A T} {w : ℕ} (h : s.MayRun l)
    (hl : l.worker? = some w) : w < s.started := by
  cases l with
  | test v stop =>
    obtain rfl := Option.some.inj hl
    exact h.1
  | wait | interrupt | take | process =>
    obtain rfl := Option.some.inj hl
    exact h
  | lock t | unlock t =>
    obtain v | a := t
    · obtain rfl := Option.some.inj hl
      exact h
    · cases hl
  | call | push | post => cases hl

section Step

variable [DecidableEq A]

/-- One step, if it is possible. -/
def lifeStep (s : Life A T) : LifeAction A T → Option (Life A T)
  | .check => match s.owner with
    | .checking =>
      if s.threadNumber ≤ 0 ∨ s.maxRequests ≤ 0 then some { s with owner := .thrown }
      else some { s with owner := .allocating }
    | _ => none
  | .allocate ok => match s.owner with
    | .allocating => some { s with owner := if ok then .creating 0 else .thrown }
    | _ => none
  | .create ok => match s.owner with
    | .creating i =>
      if ok then some { s with owner := .detaching i, started := s.started + 1 }
      else some { s with owner := .thrown }
    | _ => none
  -- `pthread_detach(m_threads[i]) == 0`: the constructor throws when the thread was detached
  | .detach zero => match s.owner with
    | .detaching i =>
      if zero then some { s with owner := .thrown }
      else some { s with
        owner := if (i + 1 : ℤ) < s.threadNumber then .creating (i + 1) else .opened }
    | _ => none
  | .destroy => match s.owner with
    | .opened => some { s with owner := .stopping }
    | _ => none
  | .stop => match s.owner with
    | .stopping => some { s with stop := true, owner := .finishing }
    | _ => none
  | .finish => match s.owner with
    | .finishing => some { s with owner := .destroyed }
    | _ => none
  | .thread l =>
    if s.MayRun l then
      (next s.pool l).map fun pool => { s with
        pool := pool
        late := if s.owner.ended then s.late ++ l.user?.toList else s.late }
    else none

/-- The runs of a pool with its owner. -/
def lifeLTS (A T : Type*) [DecidableEq A] : LTS (Life A T) (LifeAction A T) := .ofNext lifeStep

/-- The worker has not tested `m_stop`. -/
def WorkerPc.isTesting : WorkerPc T → Bool
  | .testing => true
  | .waiting | .locking | .taking | .unlocking _ | .processing _ | .done => false

/-- Before the constructor throws and before `m_stop` is set, each worker that was started has
tested `m_stop`. -/
def Tested (s : Life A T) : LifeAction A T → Prop
  | .create false | .detach true | .stop =>
    ∀ w < s.started, (s.pool.worker w).isTesting = false
  | _ => True

instance (s : Life A T) (a : LifeAction A T) : Decidable (Tested s a) :=
  match a with
  | .create false | .detach true | .stop =>
    inferInstanceAs (Decidable (∀ w < s.started, (s.pool.worker w).isTesting = false))
  | .check | .allocate _ | .create true | .detach false | .destroy | .finish | .thread _ =>
    .isTrue trivial

/-! ### Steps of the workers -/

section Workers

variable {W : Type*} [DecidableEq W] {s s' : Pool W A T} {l : Action W A T} {w : W}

theorem live_of_worker (hm : Moves s l s') (hl : l.worker? = some w) : s.worker w ≠ .done := by
  cases hm with
  | call | lockAppender | refuse | accept | unlockAppender | post => cases hl
  | lockWorker hpc | unlockWorker hpc | test hpc | wait hpc | interrupt hpc | takeNone hpc
  | takeSome hpc | process hpc =>
    obtain rfl := Option.some.inj hl
    simp [hpc]

theorem worker_of_append (hm : Moves s l s') (hl : l.worker? = none) : s'.worker = s.worker := by
  cases hm with
  | call | lockAppender | refuse | accept | unlockAppender | post => rfl
  | lockWorker | unlockWorker | test | wait | interrupt | takeNone | takeSome | process => cases hl

/-- The first step of a worker is a test of `m_stop`. -/
theorem test_of_testing (hm : Moves s l s') (hl : l.worker? = some w)
    (hw : s.worker w = .testing) : ∃ stop, l = .test w stop ∧
      s'.worker = Function.update s.worker w (if stop ≠ false then .waiting else .done) := by
  cases hm with
  | call | lockAppender | refuse | accept | unlockAppender | post => cases hl
  | test =>
    obtain rfl := Option.some.inj hl
    exact ⟨_, rfl, rfl⟩
  | lockWorker hpc | unlockWorker hpc | wait hpc | interrupt hpc | takeNone hpc | takeSome hpc
  | process hpc =>
    obtain rfl := Option.some.inj hl
    rw [hpc] at hw
    cases hw

end Workers

variable {s s' : Life A T} {a : LifeAction A T} {l : Action ℕ A T} {w : ℕ}
  {threadNumber maxRequests : ℤ} {ops : List (LifeAction A T)}

/-- What a step can do. -/
inductive LifeMoves (s : Life A T) : LifeAction A T → Life A T → Prop where
  | reject : s.owner = .checking → s.threadNumber ≤ 0 ∨ s.maxRequests ≤ 0 →
      LifeMoves s .check { s with owner := .thrown }
  | check : s.owner = .checking → ¬ (s.threadNumber ≤ 0 ∨ s.maxRequests ≤ 0) →
      LifeMoves s .check { s with owner := .allocating }
  | allocate {ok} : s.owner = .allocating →
      LifeMoves s (.allocate ok) { s with owner := if ok then .creating 0 else .thrown }
  | createFailed {i} : s.owner = .creating i →
      LifeMoves s (.create false) { s with owner := .thrown }
  | create {i} : s.owner = .creating i →
      LifeMoves s (.create true) { s with owner := .detaching i, started := s.started + 1 }
  | detached {i} : s.owner = .detaching i → LifeMoves s (.detach true) { s with owner := .thrown }
  | detach {i} : s.owner = .detaching i → LifeMoves s (.detach false)
      { s with owner := if (i + 1 : ℤ) < s.threadNumber then .creating (i + 1) else .opened }
  | destroy : s.owner = .opened → LifeMoves s .destroy { s with owner := .stopping }
  | stop : s.owner = .stopping → LifeMoves s .stop { s with stop := true, owner := .finishing }
  | finish : s.owner = .finishing → LifeMoves s .finish { s with owner := .destroyed }
  | thread {l pool} : s.MayRun l → Moves s.pool l pool → LifeMoves s (.thread l)
      { s with
        pool := pool
        late := if s.owner.ended = true then s.late ++ l.user?.toList else s.late }

theorem lifeMoves_of_step (h : lifeStep s a = some s') : LifeMoves s a s' := by
  cases a with
  | check =>
    simp only [lifeStep] at h
    split at h
    · rename_i howner
      split_ifs at h with hbad
      · obtain rfl := Option.some.inj h
        exact .reject howner hbad
      · obtain rfl := Option.some.inj h
        exact .check howner hbad
    · cases h
  | create ok =>
    simp only [lifeStep] at h
    split at h
    · rename_i howner
      cases ok with
      | false =>
        obtain rfl := Option.some.inj h
        exact .createFailed howner
      | true =>
        obtain rfl := Option.some.inj h
        exact .create howner
    · cases h
  | detach zero =>
    simp only [lifeStep] at h
    split at h
    · rename_i howner
      cases zero with
      | true =>
        obtain rfl := Option.some.inj h
        exact .detached howner
      | false =>
        obtain rfl := Option.some.inj h
        exact .detach howner
    · cases h
  | allocate | destroy | stop | finish =>
    simp only [lifeStep] at h
    split at h
    · rename_i howner
      obtain rfl := Option.some.inj h
      constructor
      exact howner
    · cases h
  | thread l =>
    rw [lifeStep] at h
    split at h
    · rename_i hl
      obtain ⟨pool, hpool, rfl⟩ := Option.map_eq_some_iff.1 h
      exact .thread hl (moves_of_next hpool)
    · cases h

/-- What the object's life and the workers have to do with each other, as long as the steps are
`Tested`: the workers return at their first test of `m_stop`, and all have made it in time. -/
structure Timely (s : Life A T) : Prop where
  fresh : s.owner = .checking ∨ s.owner = .allocating → s.started = 0
  stopped : s.stop = true ↔ s.owner = .finishing ∨ s.owner = .destroyed
  tested : s.stop = false → ∀ w, s.pool.worker w = .testing ∨ s.pool.worker w = .done
  gone : s.stop = true ∨ s.owner = .thrown → ∀ w < s.started, s.pool.worker w = .done
  late : s.late = []

omit [DecidableEq A] in
theorem timely_init : Timely (.init A T threadNumber maxRequests) where
  fresh _ := rfl
  stopped := by simp [Life.init]
  tested _ _ := .inl rfl
  gone := by simp [Life.init]
  late := rfl

omit [DecidableEq A] in
theorem Timely.stop_eq (hs : Timely s) (howner : s.owner ≠ .finishing ∧ s.owner ≠ .destroyed) :
    s.stop = false := by
  rw [← Bool.not_eq_true, hs.stopped, not_or]
  exact howner

omit [DecidableEq A] in
/-- Workers that have tested `m_stop` before it is set have returned. -/
theorem Timely.all_done (hs : Timely s) (hstop : s.stop = false)
    (htested : ∀ w < s.started, (s.pool.worker w).isTesting = false) :
    ∀ w < s.started, s.pool.worker w = .done := by
  intro w hw
  refine (hs.tested hstop w).resolve_left fun hpc => ?_
  have hw' := htested w hw
  rw [hpc] at hw'
  cases hw'

theorem Timely.thread (hs : Timely s) (hl : s.MayRun l) {pool : Pool ℕ A T}
    (hm : Moves s.pool l pool) :
    Timely { s with
      pool := pool
      late := if s.owner.ended then s.late ++ l.user?.toList else s.late } := by
  cases hworker : l.worker? with
  | none =>
    have hsame := worker_of_append hm hworker
    have huser := user_of_append hworker
    refine ⟨hs.fresh, hs.stopped, ?_, ?_, ?_⟩
    · simpa only [hsame] using hs.tested
    · simpa only [hsame] using hs.gone
    · simp [huser, hs.late]
  | some w =>
    -- the worker has not returned, so the pool is neither stopped nor thrown away
    have hlive := live_of_worker hm hworker
    have hopen : ¬ (s.stop = true ∨ s.owner = .thrown) :=
      fun h => hlive (hs.gone h w (hl.started hworker))
    obtain ⟨hstop, hthrown⟩ := not_or.1 hopen
    rw [Bool.not_eq_true] at hstop
    obtain ⟨stop, rfl, hupdate⟩ :=
      test_of_testing hm hworker ((hs.tested hstop w).resolve_right hlive)
    obtain rfl : stop = false := hl.2.trans hstop
    refine ⟨hs.fresh, hs.stopped, fun _ v => ?_, fun h => absurd h hopen, ?_⟩
    · by_cases hv : v = w
      · subst hv
        exact .inr (by rw [hupdate, Function.update_self]; rfl)
      · simpa only [hupdate, Function.update_of_ne hv] using hs.tested hstop v
    · have hended : s.owner.ended = false := by
        cases howner : s.owner with
        | thrown => exact absurd howner hthrown
        | destroyed => exact absurd (hs.stopped.2 (.inr howner)) (by simp [hstop])
        | _ => rfl
      simp [hended, hs.late]

omit [DecidableEq A] in
theorem Timely.moveOwner (hs : Timely s) (hstop : s.stop = false) {pc : OwnerPc} {started : ℕ}
    (hfresh : pc = .checking ∨ pc = .allocating → started = 0)
    (hpc : pc ≠ .finishing ∧ pc ≠ .destroyed)
    (hthrown : pc = .thrown → ∀ w < started, s.pool.worker w = .done) :
    Timely { s with owner := pc, started := started } where
  fresh := hfresh
  stopped := iff_of_false (by simp [hstop]) (not_or.2 hpc)
  tested := hs.tested
  gone h := hthrown (h.resolve_left (by simp [hstop]))
  late := hs.late

theorem Timely.step (hs : Timely s) (h : LifeMoves s a s') (ha : Tested s a) : Timely s' := by
  cases h with
  | reject howner =>
    have hfresh := hs.fresh (.inl howner)
    exact hs.moveOwner (hs.stop_eq (by simp [howner])) (by simp) (by simp) (by simp [hfresh])
  | check howner =>
    have hfresh := hs.fresh (.inl howner)
    exact hs.moveOwner (hs.stop_eq (by simp [howner])) (fun _ => hfresh) (by simp) (by simp)
  | @allocate ok howner =>
    have hfresh := hs.fresh (.inr howner)
    refine hs.moveOwner (hs.stop_eq (by simp [howner])) ?_ ?_ ?_
    all_goals cases ok <;> simp [hfresh]
  | create howner =>
    exact hs.moveOwner (hs.stop_eq (by simp [howner])) (by simp) (by simp) (by simp)
  | createFailed howner | detached howner =>
    -- the constructor throws
    have hstop := hs.stop_eq (by simp [howner])
    exact hs.moveOwner hstop (by simp) (by simp) fun _ => hs.all_done hstop ha
  | @detach i howner =>
    refine hs.moveOwner (hs.stop_eq (by simp [howner])) ?_ ?_ ?_
    all_goals split_ifs <;> simp
  | destroy howner =>
    exact hs.moveOwner (hs.stop_eq (by simp [howner])) (by simp) (by simp) (by simp)
  | stop howner =>
    have hdone := hs.all_done (hs.stop_eq (by simp [howner])) ha
    exact ⟨by simp, by simp, by simp, fun _ => hdone, hs.late⟩
  | finish howner =>
    have hstop := hs.stopped.2 (.inl howner)
    exact ⟨by simp, by simp [hstop], hs.tested, fun _ => hs.gone (.inl hstop), hs.late⟩
  | thread hl hm => exact hs.thread hl hm

/-- A worker that has not tested `m_stop` when the pool's life is over. -/
theorem exists_late (hw : w < s.started) (hpc : s.pool.worker w = .testing)
    (hended : s.owner.ended = true) :
    ∃ s', (lifeLTS A T).step s (.thread (.test w s.stop)) s' ∧ s'.late ≠ [] := by
  have hnext : next s.pool (.test w s.stop) =
      some (s.pool.moveWorker w (if s.stop ≠ false then .waiting else .done)) := by
    simp only [next, hpc]
  refine ⟨{ s with
    pool := s.pool.moveWorker w (if s.stop ≠ false then .waiting else .done)
    late := s.late ++ [w] }, ?_, by simp⟩
  change lifeStep s _ = _
  rw [lifeStep, if_pos ⟨hw, rfl⟩, hnext, hended]
  rfl

omit [DecidableEq A] in
theorem exists_testing (h : ¬ ∀ w < s.started, (s.pool.worker w).isTesting = false) :
    ∃ w < s.started, s.pool.worker w = .testing := by
  simp only [not_forall] at h
  obtain ⟨w, hw, htest⟩ := h
  refine ⟨w, hw, ?_⟩
  cases hpc : s.pool.worker w with
  | testing => rfl
  | _ => simp [hpc, WorkerPc.isTesting] at htest

/-- A worker that comes too late for the test of `m_stop` makes it after the end of the pool. -/
theorem exists_late_of_not_tested (h : LifeMoves s a s') (ha : ¬ Tested s a) :
    ∃ ops u, (lifeLTS A T).Run s' ops u ∧ u.late ≠ [] := by
  cases h with
  | createFailed howner | detached howner =>
    obtain ⟨w, hw, hpc⟩ := exists_testing ha
    obtain ⟨u, hstep, hlate⟩ :=
      exists_late (s := { s with owner := .thrown }) hw hpc rfl
    exact ⟨_, u, .single hstep, hlate⟩
  | stop howner =>
    obtain ⟨w, hw, hpc⟩ := exists_testing ha
    have hfinish : (lifeLTS A T).step { s with stop := true, owner := .finishing } .finish
        { s with stop := true, owner := .destroyed } := rfl
    obtain ⟨u, hstep, hlate⟩ :=
      exists_late (s := { s with stop := true, owner := .destroyed }) hw hpc rfl
    exact ⟨_, u, .cons hfinish (.single hstep), hlate⟩
  | reject | check | allocate | create | detach | destroy | finish | thread =>
    exact absurd trivial ha

/-- As long as the steps are `Tested`, no worker uses the pool after its end; after a step of a run
that is not, a worker can. -/
theorem none_late_of_tested (threadNumber maxRequests : ℤ) (ops : List (LifeAction A T))
    (s : Life A T) :
    (((lifeLTS A T).guard Tested).Run (.init A T threadNumber maxRequests) ops s → s.late = []) ∧
      ((lifeLTS A T).Run (.init A T threadNumber maxRequests) ops s →
        ∀ a u, (lifeLTS A T).step s a u → ¬ Tested s a →
          ∃ ops' v, (lifeLTS A T).Run u ops' v ∧ v.late ≠ []) := by
  constructor
  · intro h
    exact (h.invariant timely_init
      fun _ _ _ hu hstep => hu.step (lifeMoves_of_step hstep.1) hstep.2).late
  · intro _ a u hstep ha
    exact exists_late_of_not_tested (lifeMoves_of_step hstep) ha

/-- The worker has returned when the constructor throws. -/
theorem none_late_of_tested_one : ∃ s, ((lifeLTS Unit Unit).guard Tested).Run
    (.init Unit Unit 1 1) [.check, .allocate true, .create true, .thread (.test 0 false),
      .detach true] s ∧ s.late = [] := by
  have hrun : ((lifeLTS Unit Unit).guard Tested).Run (.init Unit Unit 1 1)
      [.check, .allocate true, .create true, .thread (.test 0 false), .detach true] _ :=
    LTS.run_guard_of_foldlM rfl
  exact ⟨_, hrun, (none_late_of_tested 1 1 _ _).1 hrun⟩

/-- `pthread_detach` succeeds, so the constructor throws, before the worker's first step. -/
theorem not_none_late_one : ¬ ∀ threadNumber maxRequests ops (s : Life Unit Unit),
    (lifeLTS Unit Unit).Run (.init Unit Unit threadNumber maxRequests) ops s → s.late = [] := by
  intro hall
  have hlate := hall 1 1
    [.check, .allocate true, .create true, .detach true, .thread (.test 0 false)] _
    (LTS.run_of_foldlM rfl)
  exact absurd hlate (List.cons_ne_nil 0 [])

end Step

end ThreadPool

end LinuxServer
