import LinuxServer.ThreadPool.Accounts

/-!
# The pool drains

* `WorkerPc.rank`, `AppenderPc.rank`, `Pool.work`: the steps that are still to be made at most.
* `Guarded s`: the thread that has the mutex is between `lock` and `unlock`.
* `ownLTS`: the steps that need neither a call of `append` nor a signal.
* `Drained s`: no thread has anything left to do.

`steps_le_of_run`: there is no busy waiting: a run has only as many steps as its calls pay for.
`drains`: left alone, the threads come to a stop, and where they stop no request is left over.
-/

namespace LinuxServer

namespace ThreadPool

open Counting

variable {W A T : Type*} [DecidableEq W] [DecidableEq A] {s s' u : Pool W A T} {l : Action W A T}
  {stop : Bool → Prop} {maxRequest : ℕ}

/-! ### The steps still to be made -/

/-- The steps of a worker until it waits or has returned. -/
def WorkerPc.rank : WorkerPc T → ℕ
  | .locking => 5
  | .taking => 4
  | .unlocking _ => 3
  | .processing _ => 2
  | .testing => 1
  | .waiting | .done => 0

/-- The steps of a thread until it leaves `append`, and those that its post allows a worker. -/
def AppenderPc.rank : AppenderPc T → ℕ
  | .locking _ => 10
  | .pushing _ => 9
  | .unlocking _ => 8
  | .posting => 7
  | .idle => 0

/-- `append` is called. -/
def Action.isCall : Action W A T → Bool
  | .call _ _ => true
  | _ => false

/-- `sem_wait` fails. -/
def Action.isInterrupt : Action W A T → Bool
  | .interrupt _ => true
  | _ => false

/-- What a step allows for. -/
def Action.cost : Action W A T → ℕ
  | .call _ _ => 11
  | .interrupt _ => 6
  | _ => 0

omit [DecidableEq W] [DecidableEq A] in
theorem sum_cost (ls : List (Action W A T)) : (ls.map Action.cost).sum =
    11 * ls.countP Action.isCall + 6 * ls.countP Action.isInterrupt := by
  induction ls with
  | nil => rfl
  | cons l ls ih =>
    rw [List.map_cons, List.sum_cons, ih, List.countP_cons, List.countP_cons]
    cases l <;> simp [Action.cost, Action.isCall, Action.isInterrupt] <;> omega

section Work

variable [Fintype W] [Fintype A]

/-- The steps still to be made at most, when each post lets a worker go round once. -/
def Pool.work (s : Pool W A T) : ℕ :=
  total WorkerPc.rank s.worker + total AppenderPc.rank s.appender + 6 * s.queueStat

omit [DecidableEq A] in
theorem work_of_worker {w : W} {pc : WorkerPc T} {c : ℕ}
    (hw : s'.worker = Function.update s.worker w pc) (ha : s'.appender = s.appender)
    (hrank : pc.rank + 6 * s'.queueStat + 1 ≤ (s.worker w).rank + 6 * s.queueStat + c) :
    s'.work + 1 ≤ s.work + c := by
  have htotal := total_update WorkerPc.rank s.worker w pc
  rw [Pool.work, Pool.work, hw, ha]
  omega

omit [DecidableEq W] in
theorem work_of_appender {a : A} {pc : AppenderPc T} {c : ℕ} (hw : s'.worker = s.worker)
    (ha : s'.appender = Function.update s.appender a pc)
    (hrank : pc.rank + 6 * s'.queueStat + 1 ≤ (s.appender a).rank + 6 * s.queueStat + c) :
    s'.work + 1 ≤ s.work + c := by
  have htotal := total_update AppenderPc.rank s.appender a pc
  rw [Pool.work, Pool.work, hw, ha]
  omega

omit [Fintype W] [Fintype A] [DecidableEq W] [DecidableEq A] in
theorem rank_afterUnlock_worker (taken : Option (Option T)) :
    (WorkerPc.afterUnlock taken).rank ≤ 2 := by
  rcases taken with _ | _ | request <;> simp [WorkerPc.afterUnlock, WorkerPc.rank]

omit [Fintype W] [Fintype A] [DecidableEq W] [DecidableEq A] in
theorem rank_afterUnlock_appender (accepted : Bool) :
    (AppenderPc.afterUnlock accepted : AppenderPc T).rank ≤ 7 := by
  cases accepted <;> simp [AppenderPc.afterUnlock, AppenderPc.rank]

/-- Every step uses up work, but for a call and an interrupted wait. -/
theorem Moves.work (hm : Moves s l s') : s'.work + 1 ≤ s.work + l.cost := by
  cases hm with
  | call hpc | lockAppender hpc | refuse hpc | accept hpc | post hpc =>
    refine work_of_appender rfl rfl ?_
    simp only [hpc, AppenderPc.rank, Action.cost, Pool.moveAppender]
    omega
  | @unlockAppender a accepted hpc =>
    have hrank := rank_afterUnlock_appender (T := T) accepted
    refine work_of_appender rfl rfl ?_
    rw [hpc]
    show _ + 6 * s.queueStat + 1 ≤ 8 + 6 * s.queueStat + 0
    omega
  | lockWorker hpc | process hpc | takeNone hpc | takeSome hpc | interrupt hpc =>
    refine work_of_worker rfl rfl ?_
    simp only [hpc, WorkerPc.rank, Action.cost, Pool.moveWorker]
    omega
  | @unlockWorker w taken hpc =>
    have hrank := rank_afterUnlock_worker taken
    refine work_of_worker rfl rfl ?_
    rw [hpc]
    show _ + 6 * s.queueStat + 1 ≤ 3 + 6 * s.queueStat + 0
    omega
  | @test w b hpc =>
    have hrank : (if b ≠ false then .waiting else .done : WorkerPc T).rank = 0 := by
      split_ifs <;> rfl
    refine work_of_worker rfl rfl ?_
    rw [hpc, hrank]
    show 0 + 6 * s.queueStat + 1 ≤ 1 + 6 * s.queueStat + 0
    omega
  | wait hpc hpos =>
    refine work_of_worker rfl rfl ?_
    simp only [hpc, WorkerPc.rank, Action.cost]
    omega

omit [DecidableEq W] [DecidableEq A] in
theorem work_init : (Pool.init W A T maxRequest).work = Fintype.card W := by
  show (∑ _ : W, 1) + (∑ _ : A, 0) + 6 * 0 = Fintype.card W
  rw [Finset.sum_const_zero, ← Finset.card_eq_sum_ones, Finset.card_univ]
  rfl

/-- **There is no busy waiting.**  A run from the start makes one step for each worker, at most 11
more for each call of `append` and 6 more for each interrupted wait. -/
theorem steps_le_of_run {ls : List (Action W A T)}
    (hrun : (poolLTS W A T stop).Run (.init W A T maxRequest) ls s) :
    ls.length ≤ Fintype.card W + 11 * ls.countP Action.isCall +
      6 * ls.countP Action.isInterrupt := by
  have hle := hrun.length_le Pool.work Action.cost fun _ _ _ hs => (moves_of_next hs.1).work
  rw [work_init, sum_cost] at hle
  omega

theorem steps_le_of_run_one : ∃ (ls : List (Action Unit Unit ℕ)) (s : Pool Unit Unit ℕ),
    (poolLTS Unit Unit ℕ fun _ => True).Run (.init Unit Unit ℕ 1) ls s ∧ ls.length = 12 ∧
      ls.length ≤ Fintype.card Unit + 11 * ls.countP Action.isCall +
        6 * ls.countP Action.isInterrupt := by
  let steps : List (Action Unit Unit ℕ) :=
    [.call () (some 7), .lock (.inr ()), .push (), .unlock (.inr ()), .post (), .test () true,
      .wait (), .lock (.inl ()), .take (), .unlock (.inl ()), .process (), .test () true]
  have hplay : steps.foldlM next (.init Unit Unit ℕ 1) = some _ := rfl
  have hrun := (LTS.run_of_foldlM hplay).mono (B := poolLTS Unit Unit ℕ fun _ => True)
    fun _ _ _ _ hs => ⟨hs, fun _ _ _ => trivial⟩
  exact ⟨steps, _, hrun, rfl, steps_le_of_run hrun⟩

end Work

/-! ### Where the threads stop -/

/-- The thread that has the mutex is between `lock` and `unlock`. -/
def Guarded (s : Pool W A T) : Prop := ∀ t, s.queueLocker = some t → s.Holds t

omit [DecidableEq W] [DecidableEq A] in
theorem guarded_init : Guarded (Pool.init W A T maxRequest) := nofun

omit [DecidableEq W] [DecidableEq A] in
theorem Guarded.stay (h : Guarded s) {t₀ : W ⊕ A} (hothers : ∀ t ≠ t₀, s.Holds t → s'.Holds t)
    (hm : s'.queueLocker = s.queueLocker) (h₀ : s.Holds t₀ → s'.Holds t₀) : Guarded s' := by
  intro t ht
  have hheld := h t (hm ▸ ht)
  rcases eq_or_ne t t₀ with rfl | hne
  · exact h₀ hheld
  · exact hothers t hne hheld

omit [DecidableEq A] in
theorem holds_of_worker_before {w : W} {pc : WorkerPc T}
    (hw : s'.worker = Function.update s.worker w pc) (ha : s'.appender = s.appender) :
    ∀ t ≠ .inl w, s.Holds t → s'.Holds t := by
  have hback : s.worker = Function.update s'.worker w (s.worker w) := by
    rw [hw, Function.update_idem, Function.update_eq_self]
  exact holds_of_worker hback ha.symm

omit [DecidableEq W] in
theorem holds_of_appender_before {a : A} {pc : AppenderPc T} (hw : s'.worker = s.worker)
    (ha : s'.appender = Function.update s.appender a pc) :
    ∀ t ≠ .inr a, s.Holds t → s'.Holds t := by
  have hback : s.appender = Function.update s'.appender a (s.appender a) := by
    rw [ha, Function.update_idem, Function.update_eq_self]
  exact holds_of_appender hw.symm hback

theorem Guarded.step (h : Guarded s) (hm : Moves s l s') : Guarded s' := by
  cases hm with
  | call hpc | refuse hpc | accept hpc | post hpc =>
    refine h.stay (holds_of_appender_before rfl rfl) rfl fun ht => ?_
    simp [Pool.Holds, Pool.moveAppender, hpc] at ht ⊢
  | test hpc | wait hpc | interrupt hpc | takeNone hpc | takeSome hpc | process hpc =>
    refine h.stay (holds_of_worker_before rfl rfl) rfl fun ht => ?_
    simp [Pool.Holds, Pool.moveWorker, hpc] at ht ⊢
  | @lockWorker w =>
    rintro t ⟨⟩
    exact .inl (Function.update_self ..)
  | @lockAppender a request =>
    rintro t ⟨⟩
    exact .inl ⟨request, Function.update_self ..⟩
  | unlockWorker | unlockAppender =>
    rintro t ⟨⟩

/-- A step that needs neither a call of `append` nor a signal. -/
def Action.isOwn (l : Action W A T) : Bool := !l.isCall && !l.isInterrupt

/-- The steps that the threads make when they are left alone. -/
def ownLTS (W A T : Type*) [DecidableEq W] [DecidableEq A] (stop : Bool → Prop) :
    LTS (Pool W A T) (Action W A T) := (poolLTS W A T stop).guard fun _ l => l.isOwn

/-- Nothing is left to do: no thread is in `append`, the workers wait or have returned, and unless
all have returned, all requests accepted have been taken out of the queue. -/
structure Drained (s : Pool W A T) : Prop where
  appender : ∀ a, s.appender a = .idle
  worker : ∀ w, s.worker w = .waiting ∨ s.worker w = .done
  queueLocker : s.queueLocker = none
  served : (∃ w, s.worker w ≠ .done) → s.workQueue = [] ∧ s.taken.map Prod.snd = s.accepted

/-- A step that reads `m_stop` reads `b`. -/
def Action.Reads (b : Bool) : Action W A T → Prop
  | .test _ c => c = b
  | _ => True

/-- The threads have stopped: where `m_stop` is read as `b`, none can make a step by itself. -/
def Stopped (b : Bool) (s : Pool W A T) : Prop :=
  ∀ l : Action W A T, l.isOwn → l.Reads b → next s l = none

theorem stopped_of_stuck {b : Bool} (hb : stop b)
    (hstuck : ∀ l v, ¬ (ownLTS W A T stop).step s l v) : Stopped b s := by
  intro l hown hl
  by_contra hnext
  obtain ⟨v, hv⟩ := Option.ne_none_iff_exists'.1 hnext
  refine hstuck l v ⟨⟨hv, fun w c h => ?_⟩, hown⟩
  subst h
  obtain rfl : c = b := hl
  exact hb

variable {b : Bool}

/-- No deadlock: the thread that has the mutex can go on. -/
theorem Stopped.queueLocker (h : Stopped b s) (hg : Guarded s) : s.queueLocker = none := by
  by_contra hheld
  obtain ⟨t, ht⟩ := Option.ne_none_iff_exists'.1 hheld
  rcases t with w | a
  · rcases hg _ ht with hpc | ⟨taken, hpc⟩
    · have hnext := h (.take w) rfl trivial
      simp [next, hpc] at hnext
    · have hnext := h (.unlock (.inl w)) rfl trivial
      simp [next, hpc] at hnext
  · rcases hg _ ht with ⟨request, hpc⟩ | ⟨accepted, hpc⟩
    · have hnext := h (.push a) rfl trivial
      simp [next, hpc] at hnext
    · have hnext := h (.unlock (.inr a)) rfl trivial
      simp [next, hpc] at hnext

theorem Stopped.worker (h : Stopped b s) (hfree : s.queueLocker = none) (w : W) :
    s.worker w = .waiting ∨ s.worker w = .done := by
  cases hpc : s.worker w with
  | testing =>
    have hnext := h (.test w b) rfl rfl
    simp [next, hpc] at hnext
  | waiting => exact .inl rfl
  | locking =>
    have hnext := h (.lock (.inl w)) rfl trivial
    simp [next, hpc, hfree] at hnext
  | taking =>
    have hnext := h (.take w) rfl trivial
    simp [next, hpc] at hnext
  | unlocking taken =>
    have hnext := h (.unlock (.inl w)) rfl trivial
    simp [next, hpc] at hnext
  | processing request =>
    have hnext := h (.process w) rfl trivial
    simp [next, hpc] at hnext
  | done => exact .inr rfl

theorem Stopped.appender (h : Stopped b s) (hfree : s.queueLocker = none) (a : A) :
    s.appender a = .idle := by
  cases hpc : s.appender a with
  | idle => rfl
  | locking request =>
    have hnext := h (.lock (.inr a)) rfl trivial
    simp [next, hpc, hfree] at hnext
  | pushing request =>
    have hnext := h (.push a) rfl trivial
    simp [next, hpc] at hnext
  | unlocking accepted =>
    have hnext := h (.unlock (.inr a)) rfl trivial
    simp [next, hpc] at hnext
  | posting =>
    have hnext := h (.post a) rfl trivial
    simp [next, hpc] at hnext

theorem Stopped.queueStat {w : W} (h : Stopped b s) (hw : s.worker w = .waiting) :
    s.queueStat = 0 := by
  by_contra hpos
  have hnext := h (.wait w) rfl trivial
  simp [next, hw, Nat.pos_of_ne_zero hpos] at hnext

variable [Fintype W] [Fintype A]

/-- The threads have stopped only where nothing is left to do. -/
theorem Stopped.drained (h : Stopped b s) (hg : Guarded s) (hc : Covered s) (ha : Accounts s) :
    Drained s := by
  have hfree := h.queueLocker hg
  have hworker := h.worker hfree
  have hidle := h.appender hfree
  refine ⟨hidle, hworker, hfree, fun ⟨w, hw⟩ => ?_⟩
  -- a worker that waits finds no post, and nobody is on the way to the queue or to `post`
  have hstat := h.queueStat ((hworker w).resolve_right hw)
  have hawake : count Awake s.worker = 0 := count_eq_zero fun v => by
    rcases hworker v with hv | hv <;> simp [hv, Awake]
  have hunposted : count Unposted s.appender = 0 := count_eq_zero fun a => by
    simp [hidle a, Unposted]
  have hempty : s.workQueue = [] := by
    rw [Covered, hstat, hawake, hunposted] at hc
    exact List.length_eq_zero_iff.1 (Nat.le_zero.1 hc)
  refine ⟨hempty, ?_⟩
  rw [ha.order, hempty, List.append_nil]

/-- **The pool drains.**  From every state that the threads can reach, the steps that need no call
and no signal come to an end, whatever their order, and where they end the threads are idle and, if
some worker has not returned, every accepted request has been taken out of the queue and
processed: no deadlock, and no request that waits for a wake-up. -/
theorem drains (hb : stop b) (h : (poolLTS W A T stop).Reachable (.init W A T maxRequest) s) :
    (∀ ls u, (ownLTS W A T stop).Run s ls u → ls.length ≤ s.work) ∧
      (∃ u, (ownLTS W A T stop).Reachable s u ∧ Drained u) ∧
      ∀ u, (ownLTS W A T stop).Reachable s u → (∀ l v, ¬ (ownLTS W A T stop).step u l v) →
        Drained u := by
  refine LTS.comes_to_rest (I := fun u => (poolLTS W A T stop).Reachable (.init W A T maxRequest) u)
    Pool.work h (fun u l v hu hs => hu.tail hs.1) (fun u l v _ hs => ?_) fun u hu hstuck => ?_
  · have hwork := (moves_of_next hs.1.1).work
    have hcost : l.cost = 0 := by
      have hl := hs.2
      cases l <;> simp_all [Action.cost, Action.isOwn, Action.isCall, Action.isInterrupt]
    omega
  · refine (stopped_of_stuck hb hstuck).drained ?_ ?_ ?_
    · exact hu.invariant guarded_init fun _ _ _ hv hs => hv.step (moves_of_next hs.1)
    · exact hu.invariant (Covered.init maxRequest) fun _ _ _ hv hs => hv.step (moves_of_next hs.1)
    · exact hu.invariant (Accounts.init maxRequest) fun _ _ _ hv hs => hv.step (moves_of_next hs.1)

theorem drains_one : ∃ u : Pool Unit Unit ℕ,
    (ownLTS Unit Unit ℕ fun b => b = true).Reachable
      ((Pool.init Unit Unit ℕ 1).moveAppender () (.locking (some 7))) u ∧ Drained u := by
  have hrun : [.call () (some 7)].foldlM next (.init Unit Unit ℕ 1) = some _ := rfl
  have hreach : (poolLTS Unit Unit ℕ fun b => b = true).Reachable (.init Unit Unit ℕ 1) _ :=
    reachable_of_foldlM hrun nofun
  refine (drains (b := true) ?_ hreach).2.1
  rfl

end ThreadPool

end LinuxServer
